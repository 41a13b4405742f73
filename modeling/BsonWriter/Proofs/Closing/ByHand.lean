import BsonWriter.Proofs.Run.Causes
import BsonWriter.Proofs.Run.Moves

/-!
Closing a session is ending by hand whatever is open. The end that closing picks for a
container is always the one that the container needs, so what can go wrong is what can go
wrong with any end (`Action.obstacle_endContainer`). `close_eq_by_hand` compares the two for
a session that runs, and `close_is_final` says what is left to do for a session that has been
closed.
-/

namespace BsonWriter

/-- The calls that end what is open, innermost first, and then the session. -/
def Writer.closingCalls (w : Writer) : List Call :=
  w.containers.map (fun c => .endContainer c.shape) ++ [.flush, .close]

/-- Ends the container that is innermost at the time, in at most `rounds` rounds. -/
def Action.endInnermost : (rounds : Nat) → Action Unit
  | 0 => pure ()
  | rounds + 1 => do
    match (← get).containers with
    | [] => pure ()
    | container :: _ =>
      endContainer container.shape
      endInnermost rounds

/-- What can keep the containers of a session from being ended, and its output from
leaving. -/
inductive Writer.Obstacle (w : Writer) : Cause → Prop
  | valueMissing {rest : List Expectation} : w.expectations = .value :: rest →
    Obstacle w (.outOfOrder .endBeforeValue)
  | headerGone {container : Container} : w.options.streaming = false →
    container ∈ w.containers → container.header < w.buffer.gone →
    Obstacle w (.alreadyFlushed container.header)
  | tooLong {length : Nat} : lengthBound ≤ length → Obstacle w (.lengthOverflow length)
  | sink {fault : Sink.Fault} : Obstacle w (.sink fault)

namespace Action

open Writer (Obstacle)

variable {w : Writer}

/-! ## One end -/

/-- A container is an array exactly if an element is expected in it. -/
theorem leave_shape {e : Expectation} {c : Container} (h : Container.Expects e c)
    (rest : List Expectation) : leave c.shape (e :: rest) =
      if e = .value then .error .endBeforeValue else .ok rest := by
  unfold Container.shape
  cases e with
  | name | value =>
    have hn : ¬c.nextIndex.isSome = true := fun hs => Expectation.noConfusion (h.mpr hs)
    rw [if_neg hn]
    rfl
  | element =>
    rw [if_pos (h.mp rfl)]
    rfl

/-- Filling the length field of an open container fails if the field has left or the
container is too long. -/
theorem obstacle_drainOrPatchLength {v : Writer} {c : Container} (hc : c ∈ w.containers)
    (hg : v.buffer.gone = w.buffer.gone) (hv : c.header + 4 ≤ v.buffer.size) :
    (if w.options.streaming then drain else patchLength c.header).Yields v (fun _ _ => True)
      fun e _ => w.Obstacle e.cause := by
  split
  · rw [yields_drain]
    rcases v.sink.handOver v.buffer.held with ⟨⟨⟩ | ⟨⟩, sink⟩
    · exact .sink
    · trivial
  · rename_i hs
    unfold patchLength
    simp only [yields_andThen, yields_offset, yields_ite, yields_raise]
    split
    · refine (yields_patch_written ?_).mono (fun _ _ _ => trivial) fun e _ h => ?_
      · rw [length_lengthField]
        exact hv
      · rw [h.2]
        exact .headerGone (Bool.eq_false_iff.mpr hs) hc (hg ▸ h.1)
    · exact .tooLong (by omega)

/-- The end that fits the innermost container fails for no other reason. -/
theorem obstacle_endContainer (h : w.Consistent) (hr : w.phase = .running) {c : Container}
    {cs : List Container} (hc : w.containers = c :: cs) :
    (endContainer c.shape).Yields w (fun _ _ => True) fun e _ => w.Obstacle e.cause := by
  have haligned := h.aligned
  rw [hc] at haligned
  obtain ⟨e, rest, hexpects, -, he⟩ := List.forall₂_cons_right_iff.mp haligned
  have hm : c ∈ w.containers := by rw [hc]; exact List.mem_cons_self
  rw [endContainer_eq]
  simp only [yields_tracked, yields_andThen, yields_checkRunning, hr, yields_advance, he,
    leave_shape hexpects, yields_closeContainer]
  by_cases hv : e = .value
  · rw [if_pos hv]
    exact .valueMissing (by rw [he, hv])
  · rw [if_neg hv]
    simp only [hc]
    exact obstacle_drainOrPatchLength hm rfl ((h.append [endOfDocument]).written c hm)

/-- Such an end leaves a session in which no value is missing, and whatever is in the way
then was in the way before. -/
theorem after_endContainer (h : w.Consistent) {c : Container} {cs : List Container}
    (hc : w.containers = c :: cs) {v : Writer} (hrun : (endContainer c.shape).run w = .ok () v) :
    Settled v ∧ v.containers = cs ∧ v.options = w.options ∧
      ∀ cause, v.Obstacle cause → w.Obstacle cause := by
  have hsettled : Settled v := (settled_endContainer h c.shape).of_ok hrun
  obtain ⟨rest, container, containers, -, hc', hv⟩ := extends_of_endContainer hrun
  obtain ⟨rfl, rfl⟩ := List.cons.inj (hc.symm.trans hc')
  refine ⟨hsettled, hv.containers, hv.options, fun cause ho => ?_⟩
  cases ho with
  | valueMissing he => exact absurd he (hsettled.expects _)
  | headerGone hs hm hg =>
    rw [hv.options] at hs
    rw [hv.containers] at hm
    rw [hv.stays hs] at hg
    exact .headerGone hs (by rw [hc]; exact List.mem_cons_of_mem _ hm) hg
  | tooLong hl => exact .tooLong hl
  | sink => exact .sink

/-! ## All ends -/

theorem run_forM_cons {f : Container → Action Unit} (c : Container) (cs : List Container) :
    ((c :: cs).forM f).run w = (f c >>= fun _ => cs.forM f).run w := rfl

/-- The ends of all containers leave none open, and keep the session running. -/
structure Emptied (w v : Writer) : Prop where
  containers : v.containers = []
  running : v.phase = .running
  options : v.options = w.options

theorem emptied_ends {cs : List Container} (h : w.Consistent) (hr : w.phase = .running)
    (hc : w.containers = cs) : (cs.forM fun c => endContainer c.shape).Yields w
      (fun _ v => Emptied w v) fun e _ => w.Obstacle e.cause := by
  induction cs generalizing w with
  | nil => exact ⟨hc, hr, rfl⟩
  | cons c cs ih =>
    rw [yields_forM_cons]
    cases hrun : (endContainer c.shape).run w with
    | error e v =>
      rw [Yields, hrun]
      exact (obstacle_endContainer h hr hc).of_error hrun
    | ok u v =>
      rw [yields_iff_of_ok hrun]
      obtain ⟨hv, hcs, ho, hobstacle⟩ := after_endContainer h hc hrun
      refine (ih hv.consistent hv.running hcs).mono (fun _ x hx => ?_) fun e _ hx => ?_
      · exact ⟨hx.containers, hx.running, hx.options.trans ho⟩
      · exact hobstacle e.cause hx

/-- Looking for the innermost container in each round comes to the same as ending the
containers that were open at first, and as many rounds as there are containers suffice. -/
theorem run_endInnermost {cs : List Container} (h : w.Consistent) (hc : w.containers = cs)
    {rounds : Nat} (hn : cs.length ≤ rounds) :
    (endInnermost rounds).run w = (cs.forM fun c => endContainer c.shape).run w := by
  induction rounds generalizing w cs with
  | zero =>
    obtain rfl : cs = [] := List.eq_nil_of_length_eq_zero (Nat.le_zero.mp hn)
    rfl
  | succ rounds ih =>
    rw [endInnermost, run_andThen, show (get : Action Writer).run w = .ok w w from rfl]
    cases cs with
    | nil =>
      simp only [hc]
      rfl
    | cons c cs =>
      simp only [hc]
      rw [run_forM_cons, run_andThen, run_andThen]
      cases hrun : (endContainer c.shape).run w with
      | error e v => rfl
      | ok u v =>
        obtain ⟨hv, hcs, -, -⟩ := after_endContainer h hc hrun
        exact ih hv.consistent hcs (Nat.le_of_succ_le_succ hn)

theorem obstacle_close (h : w.Consistent) (hr : w.phase = .running)
    (ha : w.options.autoClose = true) :
    close.Yields w (fun _ _ => True) fun e _ => w.Obstacle e.cause := by
  have hstopped : ∀ {phase : Phase}, w.phase = phase → phase ≠ .running → False :=
    fun hp hn => hn (hp.symm.trans hr)
  refine yields_close (fun hp => (hstopped hp nofun).elim) (fun hp => (hstopped hp nofun).elim)
    fun _ => ?_
  rw [endAll, if_pos ha]
  refine (emptied_ends h hr rfl).mono (fun _ v _ => ?_) fun _ _ he => he
  rw [yields_flushSink, yields_drain]
  rcases v.sink.handOver v.buffer.held with ⟨⟨⟩ | ⟨⟩, sink⟩
  · exact .sink
  · dsimp only
    split
    · exact .sink
    · trivial

/-! ## Flushing and closing -/

/-- Where a flush has gone well, the next one has nothing to hand over and goes well too. -/
theorem run_flushSink_again {v : Writer} (h : flushSink.run w = .ok () v) :
    flushSink.run v = .ok () { v with sink := v.sink.flush.2 } := by
  have hy := run_eq_ok_iff.mp h
  rw [yields_flushSink, yields_drain] at hy
  rcases ho : w.sink.handOver w.buffer.held with ⟨⟨⟩ | ⟨⟩, sink⟩
  · rw [ho] at hy
    exact hy.elim
  · rw [ho] at hy
    dsimp only at hy
    split at hy
    · exact hy.elim
    rename_i hf
    obtain ⟨-, rfl⟩ := hy
    rw [run_eq_ok_iff, yields_flushSink, yields_drain]
    have hempty : w.buffer.drained.held = [] := rfl
    simp only [hempty, Sink.handOver_nil, Sink.flush, Buffer.drained_of_nil hempty]
    rw [if_neg hf]
    exact ⟨trivial, trivial⟩

/-- A running session without open containers that is flushed may be closed right away. -/
theorem run_flush_close (hr : w.phase = .running) (hc : w.containers = []) :
    (flush >>= fun _ => close).run w = match (tracked flushSink).run w with
      | .ok () v => .ok () { v with sink := v.sink.flush.2, phase := .closed }
      | .error e v => .error e v := by
  have hflush : flush.run w = (tracked flushSink).run w := by
    unfold flush
    simp only [run_tracked, run_andThen, show (get : Action Writer).run w = .ok w w from rfl, hr]
    rfl
  rw [run_andThen, hflush]
  cases hrun : (tracked flushSink).run w with
  | error e v => rfl
  | ok u v =>
    have hflushed := tracked_eq_ok hrun
    obtain ⟨sink, -, hv⟩ := flushSink_eq_ok hflushed
    have hends : (endAll v).run v = .ok () v := by
      rw [endAll, hv]
      simp only [hc]
      cases w.options.autoClose <;> rfl
    dsimp only
    rw [run_close (by rw [hv]; exact hr), run_andThen, hends]
    dsimp only
    rw [run_andThen, run_tracked, run_flushSink_again hflushed]
    rfl

end Action

namespace Call

open BsonWriter.Action

variable {w : Writer}

/-- What becomes of the calls that end the session by hand. -/
theorem run_closingCalls (cs : List Container) : (scopeAction false
      (cs.map (fun c => .endContainer c.shape) ++ [.flush, .close])).run w =
    ((cs.forM fun c => Action.endContainer c.shape) >>= fun _ =>
      Action.flush >>= fun _ => Action.close).run w := by
  induction cs generalizing w with
  | nil =>
    simp only [List.map_nil, List.nil_append, scopeAction, tolerate, action, Bool.false_eq_true,
      if_false, bind_pure_unit]
    rfl
  | cons c cs ih =>
    simp only [List.map_cons, List.cons_append, scopeAction, tolerate, action, Bool.false_eq_true,
      if_false]
    rw [run_andThen, run_andThen, run_forM_cons, run_andThen]
    cases (Action.endContainer c.shape).run w with
    | error e v => rfl
    | ok u v => exact ih.trans (run_andThen _ _ v)

/-- Closing a running session comes to the same as the calls that end it by hand, but for
the flush that the last of them makes. -/
theorem run_closingCalls_of_running (h : w.Consistent) (hr : w.phase = .running)
    (ha : w.options.autoClose = true) : (scopeAction false w.closingCalls).run w =
      match Action.close.run w with
      | .ok () v => .ok () { v with sink := v.sink.flush.2 }
      | .error e v => .error e v := by
  rw [Writer.closingCalls, run_closingCalls, Action.run_close hr, run_andThen, run_andThen, endAll,
    if_pos ha]
  cases hends : (w.containers.forM fun c => Action.endContainer c.shape).run w with
  | error e v => rfl
  | ok u v =>
    have hv : Emptied w v := (emptied_ends h hr rfl).of_ok hends
    dsimp only
    rw [run_flush_close hv.running hv.containers, run_andThen]
    cases (tracked flushSink).run v with
    | error e x => rfl
    | ok u x => rfl

/-- The calls that close a session by hand report what its closing reports. -/
theorem report_closingCalls (h : w.Consistent) (hr : w.phase = .running)
    (ha : w.options.autoClose = true) :
    let closing := Call.close.run w
    let byHand := runScope false w w.closingCalls
    let last := Report.lastState w byHand
    Report.scopeResult false byHand = closing.result ∧ last = { closing.after with
      sink := { closing.after.sink with flushes := last.sink.flushes } } := by
  intro closing byHand last
  have hcalls := run_closingCalls_of_running h hr ha
  have hlast : last = (scopeAction false w.closingCalls).after w := lastState_runScope false w _
  have hresult : closing.result = Action.close.result w := result_run w .close
  have hafter : closing.after = Action.close.after w := after_run w .close
  rw [hlast, hresult, hafter, result_runScope]
  cases hrun : Action.close.run w with
  | ok u v =>
    rw [hrun] at hcalls
    rw [result_of_ok hcalls, result_of_ok hrun, after_of_ok hcalls, after_of_ok hrun]
    exact ⟨rfl, rfl⟩
  | error e v =>
    rw [hrun] at hcalls
    rw [result_of_error hcalls, result_of_error hrun, after_of_error hcalls, after_of_error hrun]
    exact ⟨rfl, rfl⟩

/-! ## After the closing -/

/-- A closed session refuses to be flushed, too. -/
theorem run_flush_of_closed (hp : w.phase = .closed) :
    ∃ e, Call.flush.run w = ⟨.error e, w, []⟩ := by
  refine ⟨⟨.outOfOrder .usedAfterClose, none⟩, ?_⟩
  have hrun : Action.flush.run w = .error ⟨.outOfOrder .usedAfterClose, none⟩ w := by
    rw [run_eq_error_iff, Action.flush]
    simp only [yields_tracked, yields_andThen, yields_get, hp, if_true, yields_raise]
    refine ⟨trivial, Writer.fail_of_stopped ?_⟩
    rw [hp]
    exact Phase.noConfusion
  simp only [run, action, Report.ofAction, hrun]

/-- Closing a session that does not run goes well and leaves the sink alone. -/
theorem close_of_stopped (hp : w.phase ≠ .running) : (Call.close.run w).result = .ok () ∧
    (Call.close.run w).after.phase = .closed ∧ (Call.close.run w).after.sink = w.sink := by
  have hy : Action.close.Yields w (fun _ v => v.phase = .closed ∧ v.sink = w.sink)
      (fun _ _ => False) :=
    yields_close (fun h => ⟨h, rfl⟩) (fun _ => ⟨rfl, rfl⟩) fun h => absurd h hp
  obtain ⟨_, v, hrun, hv⟩ := hy.exists_ok
  simp only [run, action, Report.ofAction, hrun]
  exact ⟨trivial, hv⟩

/-- However a session is closed, it does not run afterwards. -/
theorem stopped_close (w : Writer) : (Call.close.run w).after.phase ≠ .running := by
  cases hr : (Call.close.run w).result with
  | error e => exact stopped_of_failed (by rw [Report.failed, hr])
  | ok u =>
    rw [after_run, action, phase_of_close (run_of_not_failed _)]
    · exact Phase.noConfusion
    · rintro ⟨e, he⟩
      rw [result_run, action, he] at hr
      cases hr

/-- Closing a session that does not run once more, and once more. -/
theorem close_again (hp : w.phase ≠ .running) (n : Nat) {r : Report}
    (hr : r ∈ runAll w (List.replicate n .close)) : r.result = .ok () ∧ r.after.sink = w.sink := by
  induction n generalizing w with
  | zero => cases hr
  | succ n ih =>
    obtain ⟨hok, hclosed, hsink⟩ := close_of_stopped hp
    rw [List.replicate_succ, runAll] at hr
    obtain rfl | hr := List.mem_cons.mp hr
    · exact ⟨hok, hsink⟩
    · obtain ⟨hr, hs⟩ := ih (by rw [hclosed]; exact Phase.noConfusion) hr
      exact ⟨hr, hs.trans hsink⟩

/-- Later calls can only replace the escape table of a closed session. -/
theorem runAll_of_closed (hp : w.phase = .closed) (calls : List Call) :
    ∃ escapes, Report.lastState w (runAll w calls) = { w with escapes } := by
  induction calls generalizing w with
  | nil => exact ⟨w.escapes, rfl⟩
  | cons call calls ih =>
    obtain ⟨steps, hsteps⟩ := call.issues w []
    obtain ⟨escapes, hw⟩ := @Step.writer_run_of_closed ⟨w, []⟩ hp steps
    rw [hsteps] at hw
    have hafter : (call.run w).after = { w with escapes } := (after_run w call).trans hw
    obtain ⟨other, ho⟩ := @ih (call.run w).after (by rw [hafter]; exact hp)
    exact ⟨other, by rw [runAll, Report.lastState, ho, hafter]⟩

end Call

/-! ## The closing of a session -/

open BsonWriter.Action

/-- Closing a running session that ends what is open gives the answer that the calls give
which end it by hand, innermost container first, and leaves the same state but for one flush
that the sink has counted. It makes as many rounds as the session is deep, and it fails only
for a value that is missing, a length field that has left, a container that is too long, or
the sink. However often a session is closed, only the first time can the sink receive
anything; and once it has been closed without an error, every call that would write, and
every flush, fails and changes nothing, whatever other calls come in between. -/
theorem close_ends_everything {w : Writer} (hw : w.Reachable) :
    let closing := Call.close.run w
    let byHand := Call.runScope false w w.closingCalls
    let last := Report.lastState w byHand
    (w.phase = .running → w.options.autoClose = true →
      (Report.scopeResult false byHand = closing.result ∧
        last = { closing.after with
          sink := { closing.after.sink with flushes := last.sink.flushes } }) ∧
      (∀ rounds, w.depth ≤ rounds →
        (Action.endInnermost rounds).run w = (Action.endInnermost w.depth).run w ∧
        Action.close.run w = (do
          Action.endInnermost rounds
          Action.tracked Action.flushSink
          modify fun v => { v with phase := .closed } : Action Unit).run w) ∧
      (∀ v, (Action.endInnermost w.depth).run w = .ok () v → v.containers = []) ∧
      ∀ e, closing.result = .error e → w.Obstacle e.cause) ∧
    (∀ n, ∀ r ∈ (Call.runAll w (List.replicate (n + 1) .close)).tail,
      r.result = .ok () ∧ r.after.sink = closing.after.sink) ∧
    (closing.result = .ok () → ∀ calls,
      let v := Report.lastState closing.after (Call.runAll closing.after calls)
      (∃ escapes, v = { closing.after with escapes }) ∧
        ∀ call : Call, call.Writes ∨ call = .flush → ∃ e, call.run v = ⟨.error e, v, []⟩) := by
  intro closing byHand last
  have hc := hw.consistent
  have hclosing : Action.close.run w = closing.outcome := (Call.outcome_run w .close).symm
  have hends : ∀ rounds, w.depth ≤ rounds → (endInnermost rounds).run w =
      (w.containers.forM fun c => endContainer c.shape).run w :=
    fun rounds hn => run_endInnermost hc rfl hn
  refine ⟨fun hr ha => ⟨?_, ?_, ?_, ?_⟩, fun n r hm => ?_, fun hok calls => ?_⟩
  · exact Call.report_closingCalls hc hr ha
  · intro rounds hn
    refine ⟨(hends rounds hn).trans (hends w.depth (Nat.le_refl _)).symm, ?_⟩
    rw [Action.run_close hr, run_andThen, run_andThen, hends rounds hn, endAll, if_pos ha]
  · intro v hv
    rw [hends w.depth (Nat.le_refl _)] at hv
    exact ((emptied_ends hc hr rfl).of_ok hv).containers
  · intro e he
    have hfailed : Action.close.run w = .error e closing.after := by
      rw [hclosing, Report.outcome, he]
    exact (obstacle_close hc hr ha).of_error hfailed
  · rw [List.replicate_succ, Call.runAll, List.tail_cons] at hm
    exact Call.close_again (Call.stopped_close w) n hm
  · have hp : closing.after.phase = .closed := phase_of_close (by
      rw [hclosing, Report.outcome, hok])
    intro v
    obtain ⟨escapes, hv⟩ := Call.runAll_of_closed hp calls
    have hvp : v.phase = .closed := (congrArg Writer.phase hv).trans hp
    refine ⟨⟨escapes, hv⟩, fun call hcall => ?_⟩
    rcases hcall with hcall | rfl
    · obtain ⟨e, hrun, -⟩ := Call.refused hcall (w := v) (by rw [hvp]; exact Phase.noConfusion)
      exact ⟨e, hrun⟩
    · exact Call.run_flush_of_closed hvp

/-- An array is open in a document, and the sink is full before all has left. By hand, too,
it is the sink that fails; then the session is closed without a complaint, and what the sink
has is what it took the first time. -/
theorem close_ends_everything_full_sink :
    let w := (Step.run ⟨Writer.onStorage { limit := some 3 } {} [], []⟩
      [.begin .container .startObject .document, .name "a",
        .begin .container .startArray .array]).writer
    let byHand := Call.runScope false w w.closingCalls
    w.depth = 2 ∧ (Call.close.run w).failed = true ∧
      Report.scopeResult false byHand = (Call.close.run w).result ∧
      (Report.lastState w byHand).sink.held = [13, 0, 0] ∧
      ∀ r ∈ (Call.runAll w [.close, .close, .close]).tail,
        r.result = .ok () ∧ r.after.sink.held = [13, 0, 0] := by
  intro w byHand
  have hw : w.Reachable := ⟨{ limit := some 3 }, {}, [], _, [], rfl⟩
  obtain ⟨hclosing, hagain, -⟩ := close_ends_everything hw
  obtain ⟨⟨hresult, hlast⟩, -⟩ := hclosing (by decide +kernel) (by decide +kernel)
  refine ⟨by decide +kernel, by decide +kernel, hresult, ?_, fun r hr => ?_⟩
  · rw [show Report.lastState w byHand = _ from hlast]
    decide +kernel
  · obtain ⟨hok, hsink⟩ := hagain 2 r hr
    exact ⟨hok, by rw [hsink]; decide +kernel⟩

end BsonWriter
