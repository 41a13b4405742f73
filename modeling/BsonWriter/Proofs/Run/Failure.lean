import BsonWriter.Proofs.Run.Delivered

/-!
What a session can still do once something in it has failed. Whatever fails ends its
use (`Step.stopped_of_fails`), and from then on every step but a flush and the
closing leaves the output alone. A flush does not look at that: the first one before
the session is closed hands over what is here. `failed_session_fed_by_flush` says
that nothing else does.
-/

namespace BsonWriter

/-- A session that does not run cannot fail once more. -/
theorem Writer.fail_of_stopped {w : Writer} (h : w.phase ≠ .running) : w.fail = w := by
  rw [fail, if_neg h]

namespace Action

variable {α β : Type} {w : Writer}

/-! ## Errors end the use of a session -/

/-- Where the action fails, the session does not run any more. -/
def Stops (a : Action α) : Prop :=
  ∀ w, a.Yields w (fun _ _ => True) (fun _ w' => w'.phase ≠ .running)

theorem stops_tracked (a : Action α) : (tracked a).Stops := by
  intro w
  rw [yields_tracked, Yields]
  cases a.run w with
  | ok x w' => trivial
  | error e w' => exact w'.phase_fail

theorem stops_andThen {a : Action β} {f : β → Action α} (ha : a.Stops) (hf : ∀ x, (f x).Stops) :
    (a >>= f).Stops := fails_andThen ha hf

theorem stops_endContainer (shape : Shape) : (endContainer shape).Stops := by
  rw [endContainer_eq]
  exact stops_tracked _

theorem stops_close : close.Stops := by
  have hends : ∀ containers : List Container,
      (containers.forM fun c => endContainer c.shape).Stops := by
    intro containers
    induction containers with
    | nil => exact fun _ => trivial
    | cons c containers ih => exact stops_andThen (stops_endContainer c.shape) fun _ => ih
  intro w
  refine yields_close (fun _ => trivial) (fun _ => trivial) fun _ => ?_
  have hall : (endAll w).Stops := by
    unfold endAll
    split
    · exact hends _
    · exact fun _ => trivial
  refine (hall w).mono (fun _ w' _ => ?_) fun _ _ h => h
  rw [Yields]
  cases flushSink.run w' with
  | ok x v => trivial
  | error e v => exact v.phase_fail

theorem phase_of_result_error {a : Action α} (ha : a.Stops) {e : Error}
    (h : a.result w = .error e) : (a.after w).phase ≠ .running := by
  have hy := ha w
  unfold result at h
  cases hr : a.run w with
  | ok x w' => simp [hr] at h
  | error f w' =>
    rw [after_of_error hr]
    exact hy.of_error hr

/-! ## What a session refuses -/

/-- A session that does not run refuses the action, which then changes nothing. -/
def Refused (a : Action α) : Prop :=
  ∀ w, w.phase ≠ .running → a.Yields w (fun _ _ => False) (fun _ w' => w' = w)

theorem refused_checked (f : Unit → Action α) : (tracked (checkRunning >>= f)).Refused := by
  intro w hp
  simp only [yields_tracked, yields_andThen, yields_checkRunning]
  cases h : w.phase with
  | running => exact absurd h hp
  | failed => exact Writer.fail_of_stopped hp
  | closed => exact Writer.fail_of_stopped hp

theorem refused_andThen {a : Action β} (ha : a.Refused) (f : β → Action α) :
    (a >>= f).Refused := by
  intro w hp
  rw [yields_andThen]
  exact (ha w hp).mono (fun _ _ h => h.elim) fun _ _ h => h

theorem refused_takePosition (kind : ValueKind) (activity : Activity) :
    (takePosition kind activity).Refused := refused_checked _

theorem refused_endContainer (shape : Shape) : (endContainer shape).Refused := by
  rw [endContainer_eq]
  exact refused_checked _

theorem refused_endScope (mark : ScopeMark) : (endScope mark).Refused := by
  intro w hp
  refine yields_endScope (fun _ => Writer.fail_of_stopped hp) fun _ => ?_
  refine (refused_endContainer .document w hp).mono (fun _ _ h => h.elim) fun _ w' h => ?_
  rw [h, Writer.fail_of_stopped hp]

theorem after_of_refused {a : Action α} (ha : a.Refused) (hp : w.phase ≠ .running) :
    a.after w = w :=
  @Yields.after _ a w (fun w' => w' = w) ((ha w hp).mono (fun _ _ h => h.elim) fun _ _ h => h)

end Action

/-! ## Steps of a session that does not run -/

namespace Step

open BsonWriter.Action

variable {p : Progress}

theorem stops_openScope (activity : Activity) (code : String) :
    (openScope activity code).Stops :=
  stops_andThen (stops_tracked _) fun _ => stops_tracked _

/-- The step returns an error, gives up a type byte, or stands for an error that is
none of the session's own. -/
def Fails (p : Progress) : Step → Prop
  | drop _ | fail | failScope => True
  | step => ∃ e, step.result p = .error e

instance (p : Progress) (step : Step) : Decidable (step.Fails p) :=
  have hasError (report : Except Error Unit) : Decidable (∃ e, report = .error e) :=
    match report with
    | .ok () => isFalse nofun
    | .error e => isTrue ⟨e, rfl⟩
  match step with
  | drop _ | fail | failScope => isTrue trivial
  | name _ | checkArray | write .. | begin .. | finish _ | beginScope .. | endScope | flush
  | close | setEscapes _ => hasError _

/-- Whatever fails ends the use of the session. -/
theorem stopped_of_fails {step : Step} (h : step.Fails p) :
    (step.apply p).writer.phase ≠ .running := by
  cases step with
  | drop activity =>
    refine @Yields.after _ (Action.drop activity) p.writer (fun w => w.phase ≠ .running) ?_
    rw [Action.drop, yields_andThen]
    exact (stops_tracked _ p.writer).mono (fun _ w _ => w.phase_fail) fun _ _ h => h
  | fail => exact p.writer.phase_fail
  | failScope => exact p.writer.phase_fail
  | beginScope activity code =>
    obtain ⟨e, he⟩ := h
    unfold Step.result Action.result at he
    cases hr : (openScope activity code).run p.writer with
    | ok mark w => simp [hr, Except.map] at he
    | error f w =>
      simp only [apply, hr]
      exact (stops_openScope activity code p.writer).of_error hr
  | endScope =>
    obtain ⟨e, he⟩ := h
    unfold Step.result at he
    unfold apply
    cases hs : p.scopes with
    | nil => simp [hs] at he
    | cons mark rest =>
      rw [hs] at he
      exact phase_of_result_error (stops_tracked _) he
  | name | checkArray | flush =>
    obtain ⟨e, he⟩ := h
    exact phase_of_result_error (stops_tracked _) he
  | write | begin =>
    obtain ⟨e, he⟩ := h
    exact phase_of_result_error (stops_andThen (stops_tracked _) fun _ => stops_tracked _) he
  | finish shape =>
    obtain ⟨e, he⟩ := h
    exact phase_of_result_error (stops_endContainer shape) he
  | close =>
    obtain ⟨e, he⟩ := h
    exact phase_of_result_error stops_close he
  | setEscapes table =>
    obtain ⟨e, he⟩ := h
    cases he

/-- Every step but a flush and the closing is refused. Only the escape table can be
replaced. -/
theorem writer_of_stopped (hp : p.writer.phase ≠ .running) {step : Step} (hf : step ≠ .flush)
    (hc : step ≠ .close) :
    ∃ escapes, (step.apply p).writer = { p.writer with escapes } := by
  have hfail : p.writer.fail = p.writer := Writer.fail_of_stopped hp
  have htake : ∀ kind activity (f : Option Nat → Action Unit),
      (takePosition kind activity >>= f).after p.writer = p.writer := fun kind activity f =>
    after_of_refused (refused_andThen (refused_takePosition kind activity) f) hp
  cases step with
  | flush => exact absurd rfl hf
  | close => exact absurd rfl hc
  | setEscapes table => exact ⟨table, rfl⟩
  | fail => exact ⟨_, hfail⟩
  | failScope => exact ⟨_, hfail⟩
  | name text => exact ⟨_, after_of_refused (refused_checked _) hp⟩
  | checkArray => exact ⟨_, after_of_refused (refused_checked _) hp⟩
  | write activity value => exact ⟨_, htake .scalar activity _⟩
  | begin kind activity shape => exact ⟨_, htake kind activity _⟩
  | drop activity => exact ⟨_, htake .scalar activity _⟩
  | finish shape => exact ⟨_, after_of_refused (refused_endContainer shape) hp⟩
  | beginScope activity code =>
    obtain ⟨e, w, hr, hw⟩ := Yields.exists_error (a := openScope activity code)
      (refused_andThen (refused_takePosition .scalar activity) (openScopeAt code) _ hp)
    refine ⟨p.writer.escapes, ?_⟩
    simp only [apply, hr]
    exact hw
  | endScope =>
    refine ⟨p.writer.escapes, ?_⟩
    unfold apply
    cases p.scopes with
    | nil => rfl
    | cons mark rest => exact after_of_refused (refused_endScope mark) hp

/-- A closed session stays as it is. -/
theorem writer_of_closed (hp : p.writer.phase = .closed) (step : Step) :
    ∃ escapes, (step.apply p).writer = { p.writer with escapes } := by
  have hn : p.writer.phase ≠ .running := by rw [hp]; exact Phase.noConfusion
  by_cases hf : step = .flush
  · subst hf
    refine ⟨p.writer.escapes, ?_⟩
    refine @Yields.after _ Action.flush p.writer (fun w => w = p.writer) ?_
    exact yields_flush (fun _ => Writer.fail_of_stopped hn) fun hc => absurd hp hc
  by_cases hc : step = .close
  · subst hc
    refine ⟨p.writer.escapes, ?_⟩
    refine @Yields.after _ Action.close p.writer (fun w => w = p.writer) ?_
    refine yields_close (fun _ => rfl) (fun h => ?_) fun h => absurd h hn
    rw [hp] at h
    cases h
  exact writer_of_stopped hn hf hc

/-- Closing a failed session gives up what is still here. -/
theorem close_of_failed (hp : p.writer.phase = .failed) : (close.apply p).writer =
    { p.writer with phase := .closed, buffer := p.writer.buffer.clear } := by
  refine @Yields.after _ Action.close p.writer (fun w => w = _) ?_
  refine yields_close (fun h => ?_) (fun _ => rfl) fun h => ?_
  · rw [hp] at h
    cases h
  · rw [hp] at h
    cases h

/-- A flush of a failed session hands over what is still here. -/
theorem flush_of_failed (hp : p.writer.phase = .failed) (hs : p.writer.sink.TakesAll) :
    ∃ sink : Sink, sink.TakesAll ∧ sink.held = p.writer.sink.held ++ p.writer.buffered ∧
      (flush.apply p).writer = { p.writer with sink, buffer := p.writer.buffer.drained } := by
  obtain ⟨sink, hall, hok, hheld⟩ := Sink.handOver_of_takesAll hs p.writer.buffer.held
  have hn : p.writer.phase ≠ .closed := by rw [hp]; exact Phase.noConfusion
  refine ⟨sink.flush.2, ⟨hall.unlimited, hall.hungry, hall.flushes⟩, hheld, ?_⟩
  refine @Yields.after _ Action.flush p.writer (fun w => w = _) ?_
  unfold Action.flush
  simp only [yields_tracked, yields_andThen, yields_get, yields_ite, if_neg hn, yields_flushSink,
    yields_drain, hok, hall.flushes, Bool.false_eq_true, if_false]

end Step

/-! ## The rest of a run -/

namespace Step

variable {p : Progress}

/-- The steps before the session is closed. -/
def beforeClose (steps : List Step) : List Step := steps.takeWhile (· ≠ .close)

theorem beforeClose_close (steps : List Step) : beforeClose (.close :: steps) = [] := by
  simp [beforeClose]

theorem beforeClose_cons {step : Step} (h : step ≠ .close) (steps : List Step) :
    beforeClose (step :: steps) = step :: beforeClose steps := by
  simp [beforeClose, h]

/-- A closed session stays as it is, whatever comes. -/
theorem writer_run_of_closed (hp : p.writer.phase = .closed) (steps : List Step) :
    ∃ escapes, (run p steps).writer = { p.writer with escapes } := by
  induction steps generalizing p with
  | nil => exact ⟨p.writer.escapes, rfl⟩
  | cons step steps ih =>
    obtain ⟨escapes, hw⟩ := writer_of_closed hp step
    obtain ⟨other, hrun⟩ := ih (p := step.apply p) (by rw [hw]; exact hp)
    exact ⟨other, by rw [run, hrun, hw]⟩

/-- Nothing leaves a closed session, and nothing is given up. -/
theorem run_of_closed (hp : p.writer.phase = .closed) (steps : List Step) :
    (run p steps).writer.sink = p.writer.sink ∧ (run p steps).writer.buffer = p.writer.buffer := by
  obtain ⟨escapes, hw⟩ := writer_run_of_closed hp steps
  rw [hw]
  exact ⟨rfl, rfl⟩

/-- A failed session that is not flushed gives its sink nothing, and gives up what is
here when it is closed. -/
theorem run_of_failed (hp : p.writer.phase = .failed) {steps : List Step}
    (hf : .flush ∉ beforeClose steps) : (run p steps).writer.sink = p.writer.sink ∧
      (run p steps).writer.buffered = if .close ∈ steps then [] else p.writer.buffered := by
  induction steps generalizing p with
  | nil => exact ⟨rfl, rfl⟩
  | cons step steps ih =>
    by_cases hc : step = .close
    · subst hc
      have hw := close_of_failed hp
      have hrun := run_of_closed (p := close.apply p) (by rw [hw]) steps
      rw [hw] at hrun
      rw [if_pos List.mem_cons_self]
      exact ⟨hrun.1, congrArg Buffer.held hrun.2⟩
    · rw [beforeClose_cons hc, List.mem_cons, not_or] at hf
      have hn : p.writer.phase ≠ .running := by rw [hp]; exact Phase.noConfusion
      obtain ⟨escapes, hw⟩ := writer_of_stopped hn (Ne.symm hf.1) hc
      have hrun := ih (p := step.apply p) (by rw [hw]; exact hp) hf.2
      rw [hw] at hrun
      simp only [List.mem_cons, Ne.symm hc, false_or]
      exact hrun

/-- The first flush of a failed session hands over everything that is here. -/
theorem held_run_of_failed (hp : p.writer.phase = .failed) (hs : p.writer.sink.TakesAll)
    (steps : List Step) : (run p steps).writer.sink.held = p.writer.sink.held ++
      if .flush ∈ beforeClose steps then p.writer.buffered else [] := by
  induction steps generalizing p with
  | nil => simp [run, beforeClose]
  | cons step steps ih =>
    by_cases hc : step = .close
    · subst hc
      have hf : .flush ∉ beforeClose (.close :: steps) := by simp [beforeClose_close]
      rw [if_neg hf, (run_of_failed hp hf).1, List.append_nil]
    rw [beforeClose_cons hc]
    by_cases hf : step = .flush
    · subst hf
      obtain ⟨sink, hall, hheld, hw⟩ := flush_of_failed hp hs
      have hrun := ih (p := flush.apply p) (by rw [hw]; exact hp) (by rw [hw]; exact hall)
      rw [hw] at hrun
      rw [if_pos List.mem_cons_self, run, hrun, ← hheld]
      simp [Writer.buffered]
    · have hn : p.writer.phase ≠ .running := by rw [hp]; exact Phase.noConfusion
      obtain ⟨escapes, hw⟩ := writer_of_stopped hn hf hc
      have hrun := ih (p := step.apply p) (by rw [hw]; exact hp) (by rw [hw]; exact hs)
      rw [hw] at hrun
      simp only [List.mem_cons, Ne.symm hf, false_or]
      exact hrun

end Step

namespace Trail

/-- A sink that takes everything does so to the end. -/
theorem takesAll_run {t : Trail} (h : t.Sound) (hs : t.writer.sink.TakesAll) (steps : List Step) :
    (t.run steps).writer.sink.TakesAll := by
  induction steps generalizing t with
  | nil => exact hs
  | cons step steps ih =>
    obtain ⟨bs, hhanded, -, -⟩ := exists_delivered h step
    exact ih (sound_step h step) (hhanded.takes hs)

end Trail

theorem Step.takesAll_run {sink : Sink} (hs : sink.TakesAll) (options : Options) (storage : Bytes)
    (steps : List Step) :
    (Step.run ⟨Writer.onStorage sink options storage, []⟩ steps).writer.sink.TakesAll := by
  have h := Trail.takesAll_run (Trail.sound_start sink options storage) hs steps
  rwa [Trail.writer, Trail.progress_run] at h

/-- After a step that fails, the session does not run any more. What it still holds
leaves only through a flush that comes before the session is closed: without one the
sink receives nothing, and closing gives up what is here; with one, a sink that takes
everything receives all of it. -/
theorem failed_session_fed_by_flush (sink : Sink) (options : Options) (storage : Bytes)
    (steps : List Step) (step : Step) (rest : List Step)
    (h : step.Fails (Step.run ⟨Writer.onStorage sink options storage, []⟩ steps)) :
    let p := step.apply (Step.run ⟨Writer.onStorage sink options storage, []⟩ steps)
    let q := Step.run p rest
    p.writer.phase ≠ .running ∧
      (p.writer.phase = .closed → q.writer.sink = p.writer.sink ∧
        q.writer.buffered = p.writer.buffered) ∧
      (p.writer.phase = .failed → .flush ∉ Step.beforeClose rest →
        q.writer.sink = p.writer.sink ∧
        q.writer.buffered = if .close ∈ rest then [] else p.writer.buffered) ∧
      (p.writer.phase = .failed → sink.TakesAll → .flush ∈ Step.beforeClose rest →
        q.writer.sink.held = p.writer.sink.held ++ p.writer.buffered) := by
  intro p q
  refine ⟨Step.stopped_of_fails h, fun hp => ?_, fun hp hf => Step.run_of_failed hp hf,
    fun hp hs hf => ?_⟩
  · have hrun := Step.run_of_closed hp rest
    exact ⟨hrun.1, congrArg Buffer.held hrun.2⟩
  · have hall : p.writer.sink.TakesAll := by
      have hrun := Step.takesAll_run hs options storage (steps ++ [step])
      rwa [Step.run_append] at hrun
    have hheld := Step.held_run_of_failed hp hall rest
    rwa [if_pos hf] at hheld

/-- The end of an array where a document is open, a name, a flush and the closing:
the flush hands over the length field of the document as it is. -/
theorem failed_session_fed_by_flush_unfinished :
    let p := Step.run ⟨Writer.onStorage {} {} [], []⟩
      [.begin .container .startObject .document, .finish .array, .name "a", .flush, .close]
    p.writer.sink.held = [0, 0, 0, 0] ∧ p.writer.buffered = [] := by
  have hfails : (Step.finish .array).Fails (Step.run ⟨Writer.onStorage {} {} [], []⟩
      [.begin .container .startObject .document]) :=
    ⟨⟨.outOfOrder (.endOutsideArray .object), none⟩, by decide +kernel⟩
  have h := (failed_session_fed_by_flush {} {} [] _ _ [.name "a", .flush, .close] hfails).2.2.2
    (by decide +kernel) ⟨rfl, by decide, rfl⟩ (by decide)
  exact ⟨h.trans (by decide +kernel), by decide +kernel⟩

end BsonWriter
