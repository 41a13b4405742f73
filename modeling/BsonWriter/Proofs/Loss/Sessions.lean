import BsonWriter.Proofs.Loss.Following
import BsonWriter.Proofs.Run.Refusal
import BsonWriter.Proofs.Session.Success

/-!
What a session loses whose sink goes bad. It is laid beside the session that makes the same
calls over a sink that takes everything. Until a sink error is reported both report the same
(`even_run`), and from then on the first session is behind (`behind_run`): what its sink has
is a front part of what the other sink has, also after any further calls.
`bad_sink_loses_tail` says both of whole sessions, and of the calls inside of scopes too.
-/

namespace BsonWriter

open BsonWriter.Action (Tame)
open Writer (Even Behind Fed)

/-! ## Reports side by side -/

namespace Report

/-- The call has been reported to fail for the sink. -/
def isIo (r : Report) : Bool := match r.result with
  | .ok () => false
  | .error e => e.isIo

mutual

/-- A report and those of the calls inside, in the order in which the calls end. -/
def events : Report → List Report
  | ⟨result, after, inner⟩ => eventsAll inner ++ [⟨result, after, inner⟩]

def eventsAll : List Report → List Report
  | [] => []
  | r :: rest => events r ++ eventsAll rest

end

/-- Two calls with the same result, after which the sessions differ in nothing but their
sinks, and the sinks hold the same. -/
structure Same (r s : Report) : Prop where
  result : s.result = r.result
  after : s.after = { r.after with sink := s.after.sink }
  held : s.after.sink.held = r.after.sink.held

/-- The reports are the same up to one of the first list that is of a sink error. -/
inductive Parted : List Report → List Report → Prop
  | here {r : Report} {rs ss : List Report} : r.isIo = true → Parted (r :: rs) ss
  | later {r s : Report} {rs ss : List Report} : Same r s → Parted rs ss →
    Parted (r :: rs) (s :: ss)

/-- After the first call the sink has a front part of what the sink has after the second, and
all it has place for unless it cannot be flushed. So it is with the calls inside. -/
inductive Trails (s₀ : Sink) : Report → Report → Prop
  | intro {r s : Report} : r.after.sink.held <+: s.after.sink.held →
    (s₀.flushFails = false → r.after.sink.held = s₀.kept s.after.sink.held) →
    List.Forall₂ (Trails s₀) r.inner (s.inner.take r.inner.length) → Trails s₀ r s

/-- Two calls in even sessions: these stay even, or the first falls behind. -/
inductive Beside (s₀ : Sink) (r s : Report) : Prop
  | even : s.result = r.result → Even s₀ r.after s.after →
    List.Forall₂ Same r.events s.events → Trails s₀ r s → Beside s₀ r s
  | lost : r.failed = true → r.after.phase ≠ .running → Behind s₀ r.after s.after →
    Parted r.events s.events → Trails s₀ r s → Beside s₀ r s

/-- The calls of a scope that begins in even sessions, in states `w` and `v`. -/
inductive Abreast (s₀ : Sink) (forgiving : Bool) (w v : Writer) (rs ss : List Report) : Prop
  | even : scopeResult forgiving ss = scopeResult forgiving rs →
    Even s₀ (lastState w rs) (lastState v ss) → List.Forall₂ Same (eventsAll rs) (eventsAll ss) →
    List.Forall₂ (Trails s₀) rs (ss.take rs.length) → Abreast s₀ forgiving w v rs ss
  | lost : (lastState w rs).phase ≠ .running → Behind s₀ (lastState w rs) (lastState v ss) →
    Parted (eventsAll rs) (eventsAll ss) → List.Forall₂ (Trails s₀) rs (ss.take rs.length) →
    Abreast s₀ forgiving w v rs ss

theorem events_eq (r : Report) : r.events = eventsAll r.inner ++ [r] := by
  cases r
  rw [events]

/-- Two calls that end alike after the same calls inside. -/
theorem Beside.of_even {s₀ : Sink} {r s : Report} (hr : s.result = r.result)
    (he : Even s₀ r.after s.after)
    (hevents : List.Forall₂ Same (eventsAll r.inner) (eventsAll s.inner))
    (hinner : List.Forall₂ (Trails s₀) r.inner (s.inner.take r.inner.length)) :
    Beside s₀ r s := by
  have hsame : Same r s := ⟨hr, he.same, he.held⟩
  refine .even hr he ?_ (.intro he.tail.1 he.tail.2 hinner)
  rw [events_eq, events_eq]
  exact List.rel_append hevents (.cons hsame .nil)

theorem scopeResult_cons {r : Report} {forgiving : Bool} (h : (r.failed && !forgiving) = false)
    (rest : List Report) : scopeResult forgiving (r :: rest) = scopeResult forgiving rest := by
  cases forgiving with
  | true => rfl
  | false =>
    cases hr : r.result with
    | error e =>
      rw [failed, hr] at h
      cases h
    | ok u =>
      cases rest with
      | nil => exact hr
      | cons => rfl

theorem Parted.append {rs ss : List Report} (h : Parted rs ss) (rs' ss' : List Report) :
    Parted (rs ++ rs') (ss ++ ss') := by
  induction h with
  | here hio => exact .here hio
  | later hsame _ ih => exact .later hsame ih

theorem Parted.after {rs ss rs' ss' : List Report} (h : List.Forall₂ Same rs ss)
    (hp : Parted rs' ss') : Parted (rs ++ rs') (ss ++ ss') := by
  induction h with
  | nil => exact hp
  | cons hsame _ ih => exact .later hsame ih

/-- As long as no sink error has been reported, the reports are the same. -/
theorem Parted.take {rs ss : List Report} (h : Parted rs ss) {n : Nat}
    (hn : ∀ r ∈ rs.take n, r.isIo = false) : List.Forall₂ Same (rs.take n) (ss.take n) := by
  induction h generalizing n with
  | here hio =>
    cases n with
    | zero => exact .nil
    | succ n =>
      have hfalse := hn _ List.mem_cons_self
      rw [hio] at hfalse
      cases hfalse
  | later hsame _ ih =>
    cases n with
    | zero => exact .nil
    | succ n => exact .cons hsame (ih fun r hr => hn r (List.mem_cons_of_mem _ hr))

end Report

/-! ## Sessions that are behind -/

variable {s₀ : Sink} {w v : Writer}

namespace Writer

/-- Being behind depends on nothing else of the first session. -/
theorem Behind.of_output (h : Behind s₀ w v) {w' : Writer} (hs : w'.sink = w.sink)
    (hb : w.buffer.held = [] → w'.buffer.held = []) : Behind s₀ w' v := by
  refine ⟨by rw [hs]; exact h.state, h.takes, ?_⟩
  rw [hs]
  exact h.lost.imp_right fun hlost => ⟨hlost.1, hb hlost.2.1, hlost.2.2⟩

/-- What is handed over once more does not arrive. -/
theorem Behind.drained (h : Behind s₀ w v) :
    Behind s₀ { w with sink := (w.sink.handOver w.buffer.held).2 } v := by
  obtain ⟨hfull, hkept⟩ | ⟨-, hempty, -⟩ := h.lost
  · obtain ⟨hstate, hheld, -⟩ := Sink.handOver_limited h.state w.buffer.held
    rw [h.state.kept_of_full hfull] at hheld
    refine ⟨hstate, h.takes, .inl ⟨?_, hheld.trans hkept⟩⟩
    rw [Sink.isFull, hheld, hstate.limit, ← h.state.limit]
    exact hfull
  · rw [hempty, Sink.handOver_nil]
    exact h

theorem Behind.flushed (h : Behind s₀ w v) : Behind s₀ { w with sink := w.sink.flush.2 } v :=
  ⟨h.state.flush, h.takes, h.lost⟩

end Writer

namespace Step

open BsonWriter.Action

variable {p : Progress}

theorem behind_flush (h : Behind s₀ p.writer v) : Behind s₀ (flush.apply p).writer v := by
  refine @Yields.after _ Action.flush p.writer (fun w => Behind s₀ w v) ?_
  refine yields_flush (fun _ => h.fail_left) fun _ => ?_
  have hdrained := h.drained
  rw [yields_flushSink, yields_drain]
  rcases ho : p.writer.sink.handOver p.writer.buffer.held with ⟨result, sink⟩
  rw [ho] at hdrained
  cases result with
  | error fault => exact hdrained.fail_left
  | ok u =>
    have hempty : Behind s₀ { p.writer with sink, buffer := p.writer.buffer.drained } v :=
      hdrained.of_output rfl fun _ => rfl
    dsimp only
    split
    · exact hempty.flushed.fail_left
    · exact hempty.flushed

/-- No step helps a session that does not run to catch up. -/
theorem behind_apply (hp : p.writer.phase ≠ .running) (h : Behind s₀ p.writer v) (step : Step) :
    Behind s₀ (step.apply p).writer v := by
  by_cases hf : step = .flush
  · subst hf
    exact behind_flush h
  by_cases hc : step = .close
  · subst hc
    refine @Yields.after _ Action.close p.writer (fun w => Behind s₀ w v) ?_
    exact yields_close (fun _ => h) (fun _ => h.of_output rfl fun _ => rfl) fun hr => absurd hr hp
  · obtain ⟨escapes, hw⟩ := writer_of_stopped hp hf hc
    rw [hw]
    exact h.of_output rfl id

end Step

namespace Action

variable {α : Type}

theorem Issues.behind {a : Action α} (ha : a.Issues) (hp : w.phase ≠ .running)
    (h : Behind s₀ w v) : Behind s₀ (a.after w) v := by
  obtain ⟨steps, hrun⟩ := ha w []
  have hall := @Step.run_induction (fun p => p.writer.phase ≠ .running ∧ Behind s₀ p.writer v)
    (fun p step hp => ⟨Step.stopped_apply hp.1 step, Step.behind_apply hp.1 hp.2 step⟩)
    ⟨w, []⟩ ⟨hp, h⟩ steps
  rw [hrun] at hall
  exact hall.2

theorem Issues.fed {a : Action α} (ha : a.Issues) {bs : Bytes} (h : v.Fed bs) :
    (a.after v).Fed bs := by
  obtain ⟨steps, hrun⟩ := ha v []
  have hfed := (Writer.robust_fed bs).run (p := ⟨v, []⟩) h steps fun _ hw => hw
  rwa [hrun] at hfed

end Action

namespace Call

open BsonWriter.Action
open Report (Same Parted Trails Beside Abreast)

/-- A session that does not run carries out no calls inside of scopes. -/
theorem inner_of_stopped (hp : w.phase ≠ .running) (call : Call) : (call.run w).inner = [] := by
  by_cases hs : call.Single
  · rw [run_single hs, Report.ofAction_eq]
  · have hw : call.Writes := by
      cases call <;> first | exact trivial | exact absurd trivial hs
    obtain ⟨e, hrun, -⟩ := refused hw hp
    rw [hrun]

theorem behind_run (hp : w.phase ≠ .running) (h : Behind s₀ w v) (call : Call) :
    (call.run w).after.phase ≠ .running ∧ Behind s₀ (call.run w).after (call.run v).after ∧
      Trails s₀ (call.run w) (call.run v) := by
  have hbehind : Behind s₀ (call.run w).after (call.run v).after := by
    rw [after_run, after_run]
    exact (call.issues.behind hp h).mono (call.issues.fed ⟨h.takes, List.prefix_rfl⟩)
  refine ⟨?_, hbehind, .intro hbehind.tail.1 hbehind.tail.2 ?_⟩
  · rw [after_run]
    exact call.issues.stopped hp
  · rw [inner_of_stopped hp]
    exact .nil

/-- A forgiving scope goes on behind, too. -/
theorem behind_runScope (calls : List Call) (hp : w.phase ≠ .running) (h : Behind s₀ w v) :
    Behind s₀ (Report.lastState w (runScope true w calls))
        (Report.lastState v (runScope true v calls)) ∧
      List.Forall₂ (Trails s₀) (runScope true w calls)
        ((runScope true v calls).take (runScope true w calls).length) := by
  induction calls generalizing w v with
  | nil => exact ⟨h, .nil⟩
  | cons call rest ih =>
    obtain ⟨hstopped, hbehind, htrails⟩ := behind_run hp h call
    obtain ⟨hlast, hrest⟩ := ih hstopped hbehind
    simp only [runScope, Bool.not_true, Bool.and_false, Bool.false_eq_true, if_false]
    exact ⟨hlast, .cons htrails hrest⟩

/-! ## Sessions that are even -/

/-- An action after the same calls inside. -/
theorem beside_ofAction {a : Action Unit} (ha : Tame s₀ a) (hs : a.Stops) (h : Even s₀ w v)
    {limited full : List Report}
    (hevents : List.Forall₂ Same (Report.eventsAll limited) (Report.eventsAll full))
    (hinner : List.Forall₂ (Trails s₀) limited (full.take limited.length)) :
    Beside s₀ (.ofAction a w limited) (.ofAction a v full) := by
  rw [Report.ofAction_eq, Report.ofAction_eq]
  cases ha.follows h with
  | ok hw hv he =>
    rw [result_of_ok hw, result_of_ok hv, after_of_ok hw, after_of_ok hv]
    exact .of_even rfl he hevents hinner
  | error hw hv he =>
    rw [result_of_error hw, result_of_error hv, after_of_error hw, after_of_error hv]
    exact .of_even rfl he hevents hinner
  | lost hw hio hbehind =>
    have hstopped := phase_of_result_error hs (result_of_error hw)
    rw [after_of_error hw] at hstopped
    rw [result_of_error hw, after_of_error hw]
    exact .lost rfl hstopped hbehind (.after hevents (.here hio))
      (.intro hbehind.tail.1 hbehind.tail.2 hinner)

/-- The end of a scope in which the first session has fallen behind. -/
theorem beside_finishScope (hp : w.phase ≠ .running) (h : Behind s₀ w v)
    {limited full : List Report}
    (hparted : Parted (Report.eventsAll limited) (Report.eventsAll full))
    (hinner : List.Forall₂ (Trails s₀) limited (full.take limited.length)) (mark : ScopeMark)
    (result result' : Except Error Unit) :
    Beside s₀ (.ofAction (finishScope mark result) w limited)
      (.ofAction (finishScope mark result') v full) := by
  obtain ⟨e, hrun⟩ := exists_run_of_refused (refused_finishScope mark result) hp
  have hbehind : Behind s₀ w ((finishScope mark result').after v) :=
    h.mono ((@tame_finishScope s₀ mark result').fed ⟨h.takes, List.prefix_rfl⟩)
  rw [Report.ofAction_eq, Report.ofAction_eq, result_of_error hrun, after_of_error hrun]
  exact .lost rfl hp hbehind (hparted.append _ _) (.intro hbehind.tail.1 hbehind.tail.2 hinner)

theorem even_single {call : Call} (hs : call.Single) (h : Even s₀ w v) :
    Beside s₀ (call.run w) (call.run v) := by
  rw [run_single hs, run_single hs]
  exact beside_ofAction (tame_single hs s₀) call.stops h .nil .nil

mutual

theorem even_run : (call : Call) → ∀ {w v : Writer}, Even s₀ w v →
    Beside s₀ (call.run w) (call.run v)
  | codeWithCalls place code forgiving calls, w, v, h => by
    have hbegin := (blind_beginScope place code).together h
    rw [run, run]
    cases hw : (Action.beginScope place code).run w with
    | error e w' =>
      rw [hw] at hbegin
      obtain ⟨v', hv, he⟩ := hbegin
      rw [hv]
      exact .of_even rfl he .nil .nil
    | ok mark w' =>
      rw [hw] at hbegin
      obtain ⟨v', hv, he⟩ := hbegin
      rw [hv]
      dsimp only
      cases even_runScope forgiving calls he with
      | even hresult he' hevents hinner =>
        rw [hresult]
        exact beside_ofAction (tame_finishScope mark _) (stops_finishScope mark _) he' hevents
          hinner
      | lost hp hbehind hparted hinner =>
        exact beside_finishScope hp hbehind hparted hinner mark _ _
  | beginContainer .., w, v, h | endContainer .., w, v, h | fieldName .., w, v, h
  | write .., w, v, h | abandon .., w, v, h | serialize .., w, v, h | flush, w, v, h
  | close, w, v, h | setEscapes .., w, v, h | inspect, w, v, h | codeWithDatum .., w, v, h => by
    exact even_single trivial h

theorem even_runScope (forgiving : Bool) : (calls : List Call) → ∀ {w v : Writer}, Even s₀ w v →
    Abreast s₀ forgiving w v (runScope forgiving w calls) (runScope forgiving v calls)
  | [], _, _, h => .even rfl h .nil .nil
  | call :: rest, w, v, h => by
    rw [runScope, runScope]
    cases even_run call h with
    | even hresult he hevents htrails =>
      have hfailed : (call.run v).failed = (call.run w).failed := by
        rw [Report.failed, Report.failed, hresult]
      rw [hfailed]
      split
      · refine .even ?_ he ?_ (.cons htrails .nil)
        · simp only [Report.scopeResult, List.getLast?_singleton, hresult]
        · simpa only [Report.eventsAll, List.append_nil] using hevents
      · rename_i hgo
        have hgoes : ((call.run w).failed && !forgiving) = false := Bool.eq_false_iff.mpr hgo
        have hskip := Report.scopeResult_cons hgoes
        have hskip' := Report.scopeResult_cons (hfailed.symm ▸ hgoes)
        cases even_runScope forgiving rest he with
        | even hresults hlast hrest hinner =>
          refine .even ?_ hlast (List.rel_append hevents hrest) (.cons htrails hinner)
          rw [hskip, hskip', hresults]
        | lost hp hbehind hparted hinner =>
          exact .lost hp hbehind (.after hevents hparted) (.cons htrails hinner)
    | lost hf hp hbehind hparted htrails =>
      cases forgiving with
      | true =>
        obtain ⟨hlast, hinner⟩ := behind_runScope rest hp hbehind
        simp only [Bool.not_true, Bool.and_false, Bool.false_eq_true, if_false]
        exact .lost (stopped_runScope hp true rest) hlast (hparted.append _ _)
          (.cons htrails hinner)
      | false =>
        -- The scope ends here in the first session, and may go on in the other.
        simp only [hf, Bool.not_false, Bool.and_self, if_true]
        refine .lost hp (hbehind.mono ?_) (hparted.append _ _) (.cons htrails .nil)
        have hfed : (call.run v).after.Fed (call.run v).after.sink.held :=
          ⟨hbehind.takes, List.prefix_rfl⟩
        rw [Report.lastState]
        split
        · exact hfed
        · rw [lastState_runScope]
          exact (scope_issues false rest).fed hfed

end

end Call

/-- A session over a sink that has a limit, takes any number of bytes at once, may be
interrupted and may refuse to be flushed, and any calls, of which any may come after a
failure. It is compared with a session that makes the same calls over a sink that takes
everything. As long as no call fails for the sink, also inside of scopes, all calls report
the same and leave sessions that differ in their sinks only, which hold the same. After
every call, whatever has failed, the sink has a front part of what the other sink has, and
unless it cannot be flushed all of it that it has place for. So what is lost is a tail, and
nothing arrives twice or out of order. -/
theorem bad_sink_loses_tail {sink plain : Sink} (hc : sink.chunk ≠ some 0)
    (hf : sink.kept sink.held = sink.held) (hp : plain.TakesAll) (hh : plain.held = sink.held)
    (options : Options) (storage : Bytes) (calls : List Call) :
    let limited := Call.runAll (Writer.onStorage sink options storage) calls
    let full := Call.runAll (Writer.onStorage plain options storage) calls
    (∀ n, (∀ r ∈ (Report.eventsAll limited).take n, r.isIo = false) →
      List.Forall₂ Report.Same ((Report.eventsAll limited).take n)
        ((Report.eventsAll full).take n)) ∧
    List.Forall₂ (Report.Trails sink) limited full := by
  intro limited full
  have hstart : Even sink (Writer.onStorage sink options storage)
      (Writer.onStorage plain options storage) := ⟨rfl, hh, ⟨rfl, rfl, rfl, hc, hf⟩, hp⟩
  have hall : full.take limited.length = full := by
    rw [Call.length_runAll, ← Call.length_runAll (Writer.onStorage plain options storage) calls]
    exact List.take_length
  have habreast := Call.even_runScope true calls hstart
  rw [← Call.runAll_eq_runScope, ← Call.runAll_eq_runScope] at habreast
  cases habreast with
  | even _ _ hevents htrails =>
    rw [hall] at htrails
    exact ⟨fun n _ => List.forall₂_take n hevents, htrails⟩
  | lost _ _ hparted htrails =>
    rw [hall] at htrails
    exact ⟨fun n hn => hparted.take hn, htrails⟩

/-- The sink has place for three bytes and takes two at once. The first value is lost with
the rest of its document, and neither a flush nor the closing brings anything after. -/
theorem bad_sink_loses_tail_of_document :
    let sink : Sink :=
      { limit := some 3, chunk := some 2, interrupts := 1, whenFull := .takesNothing }
    let calls : List Call := [.beginContainer .direct .document, .write (.field "a") .null,
      .flush, .endContainer .document, .close, .flush]
    let limited := Call.runAll (Writer.onStorage sink { streaming := true } []) calls
    let full := Call.runAll (Writer.onStorage {} { streaming := true } []) calls
    limited.map Report.isIo = [false, true, true, false, false, false] ∧
      List.Forall₂ Report.Same ((Report.eventsAll limited).take 1)
        ((Report.eventsAll full).take 1) ∧
      List.Forall₂ (Report.Trails sink) limited full ∧
      limited.map (·.after.sink.held) = [] :: List.replicate 5 [0, 0, 0] ∧
      (full.map (·.after.sink.held)).getLast? = some [0, 0, 0, 0, 10, 97, 0, 0] := by
  intro sink calls limited full
  have htakes : Sink.TakesAll {} := ⟨rfl, by decide, rfl⟩
  obtain ⟨hsame, htrails⟩ := @bad_sink_loses_tail sink {} (by decide) (by decide) htakes rfl
    { streaming := true } [] calls
  refine ⟨by decide +kernel, hsame 1 ?_, htrails, by decide +kernel, by decide +kernel⟩
  decide +kernel

end BsonWriter
