import BsonWriter.Proofs.Run.Failure
import BsonWriter.Proofs.Run.Frame
import BsonWriter.Proofs.Run.Script

/-!
A failed session stays failed. Once a step has failed, nothing makes the session run
again (`Step.stopped_run`), every call that would write is refused and changes nothing
(`Call.refused`), and so is the end of every scope that is still open
(`Call.refused_finishScope`), so a scope cannot hide the failure of a call in it.
`failure_is_final` puts this together with what closing such a session does.
-/

namespace BsonWriter

namespace Action

variable {α β : Type} {w : Writer}

/-! ## Calls out of order -/

/-- A session that does not run refuses the action as out of order, and nothing changes. -/
def Barred (a : Action α) : Prop :=
  ∀ w, w.phase ≠ .running →
    a.Yields w (fun _ _ => False) fun e v => e.isOutOfOrder = true ∧ v = w

theorem Barred.refused {a : Action α} (h : a.Barred) : a.Refused :=
  fun w hp => (h w hp).mono (fun _ _ hf => hf) fun _ _ hv => hv.2

theorem barred_checked (f : Unit → Action α) : (tracked (checkRunning >>= f)).Barred := by
  intro w hp
  simp only [yields_tracked, yields_andThen, yields_checkRunning]
  cases h : w.phase with
  | running => exact absurd h hp
  | failed | closed => exact ⟨rfl, Writer.fail_of_stopped hp⟩

theorem barred_andThen {a : Action β} (ha : a.Barred) (f : β → Action α) :
    (a >>= f).Barred := by
  intro w hp
  rw [yields_andThen]
  exact (ha w hp).mono (fun _ _ h => h.elim) fun _ _ h => h

theorem barred_take (place : Place) (kind : ValueKind) (activity : Activity) :
    (take place kind activity).Barred := by
  cases place with
  | direct => exact barred_checked _
  | field name => exact barred_andThen (barred_checked _) _
  | element => exact barred_andThen (barred_checked _) _

theorem barred_beginContainer (place : Place) (shape : Shape) :
    (beginContainer place shape).Barred := barred_andThen (barred_take _ _ _) _

theorem barred_endContainer (shape : Shape) : (endContainer shape).Barred := by
  rw [endContainer_eq]
  exact barred_checked _

theorem barred_write (place : Place) (value : Scalar) : (write place value).Barred :=
  barred_andThen (barred_take _ _ _) _

theorem barred_codeWithScope (place : Place) (code : String) (scope : Action Unit) :
    (codeWithScope place code scope).Barred :=
  barred_andThen (barred_andThen (barred_take _ _ _) _) _

theorem exists_run_of_barred {a : Action α} (h : a.Barred) (hp : w.phase ≠ .running) :
    ∃ e, a.run w = .error e w ∧ e.isOutOfOrder = true := by
  obtain ⟨e, _, hr, he, rfl⟩ := (h w hp).exists_error
  exact ⟨e, hr, he⟩

theorem exists_run_of_refused {a : Action α} (h : a.Refused) (hp : w.phase ≠ .running) :
    ∃ e, a.run w = .error e w := by
  obtain ⟨e, _, hr, rfl⟩ := (h w hp).exists_error
  exact ⟨e, hr⟩

theorem refused_tracked {a : Action α} (ha : a.Refused) : (tracked a).Refused := by
  intro w hp
  rw [yields_tracked]
  refine (ha w hp).mono (fun _ _ h => h) fun _ v h => ?_
  rw [h, Writer.fail_of_stopped hp]

theorem refused_throw (e : Error) : (throw e : Action α).Refused := fun _ _ => rfl

/-- The closing of a session that does not run gives up what is here. -/
theorem run_close_of_stopped (hp : w.phase ≠ .running)
    (hc : w.phase = .closed → w.buffered = []) : ∃ v, close.run w = .ok () v ∧
      v.phase = .closed ∧ v.buffered = [] ∧ v.sink = w.sink := by
  have hy : close.Yields w (fun _ v => v.phase = .closed ∧ v.buffered = [] ∧ v.sink = w.sink)
      (fun _ _ => False) :=
    yields_close (fun h => ⟨h, hc h, rfl⟩) (fun _ => ⟨rfl, rfl, rfl⟩) fun h => absurd h hp
  obtain ⟨_, v, hr, hv⟩ := hy.exists_ok
  exact ⟨v, hr, hv⟩

end Action

/-! ## Data -/

namespace Datum

open BsonWriter.Action

theorem refused_write (value : Scalar) : (Action.write .direct value).Refused :=
  (barred_write .direct value).refused

theorem refused_writeText (reading : Reading) (s : String) : (writeText reading s).Refused := by
  unfold writeText
  split
  · split
    · exact refused_write _
    · exact refused_throw _
  · exact refused_write _

/-- Only the fields of a document that is open already may be none at all. Every other
datum begins with a call that is refused, or refuses itself. -/
theorem refused_datum {reading : Reading} (hr : reading ≠ .fields) :
    (d : Datum) → (d.write reading).Refused
  | boolean _ | single _ | double _ | bytes _ | empty _ | audience => refused_write _
  | integer v => by
    rw [write, writeInteger]
    split <;> exact refused_write _
  | character c => refused_writeText reading _
  | text s => refused_writeText reading s
  | choice name => refused_writeText reading name
  | present d => by
    rw [write]
    exact refused_datum hr d
  | wrapper name d => by
    rw [write]
    refine refused_datum ?_ d
    unfold Reading.inside
    repeat' split
    · exact Reading.noConfusion
    · exact Reading.noConfusion
    · exact hr
  | tagged .. | sequence .. | taggedSequence .. | taggedRecord .. => by
    rw [write]
    exact refused_andThen (barred_beginContainer _ _).refused _
  | map steps => by
    rw [write, if_neg hr]
    exact refused_andThen (barred_beginContainer _ _).refused _
  | record _ fields => by
    rw [write, if_neg hr]
    exact refused_andThen (barred_beginContainer _ _).refused _
  | refusal _ => refused_throw _

end Datum

/-! ## Steps -/

namespace Step

open BsonWriter.Action

variable {p : Progress}

/-- A flush does not make a session run. -/
theorem stopped_flush (hp : p.writer.phase ≠ .running) :
    (flush.apply p).writer.phase ≠ .running := by
  refine @Yields.after _ Action.flush p.writer (fun w => w.phase ≠ .running) ?_
  refine yields_flush (fun _ => p.writer.phase_fail) fun _ => ?_
  rw [yields_flushSink, yields_drain]
  cases p.writer.sink.handOver p.writer.buffer.held with
  | mk result sink =>
    cases result with
    | error fault => exact Writer.phase_fail _
    | ok u =>
      dsimp only
      split
      · exact Writer.phase_fail _
      · exact hp

theorem stopped_apply (hp : p.writer.phase ≠ .running) (step : Step) :
    (step.apply p).writer.phase ≠ .running := by
  by_cases hf : step = .flush
  · subst hf
    exact stopped_flush hp
  by_cases hc : step = .close
  · subst hc
    refine @Yields.after _ Action.close p.writer (fun w => w.phase ≠ .running) ?_
    exact yields_close (fun _ => hp) (fun _ => Phase.noConfusion) fun h => absurd h hp
  obtain ⟨escapes, hw⟩ := writer_of_stopped hp hf hc
  rw [hw]
  exact hp

/-- Nothing makes a session run again. -/
theorem stopped_run (hp : p.writer.phase ≠ .running) (steps : List Step) :
    (run p steps).writer.phase ≠ .running :=
  @run_induction (fun p => p.writer.phase ≠ .running) (fun _ step h => stopped_apply h step) p hp
    steps

/-- Only the closing closes a session. -/
theorem robust_open : Robust fun w => w.phase ≠ .closed where
  grown _ _ h _ := h
  delivered _ _ h := h
  flushed _ h := h
  moved _ _ _ _ h := h
  spelled _ _ h := h
  failed w h := by
    unfold Writer.fail
    split
    · exact Phase.noConfusion
    · exact h

/-- The closing of a session leaves nothing here, unless it fails. -/
theorem buffered_close (hp : p.writer.phase ≠ .closed) :
    (close.apply p).writer.phase = .closed → (close.apply p).writer.buffered = [] := by
  refine @Yields.after _ Action.close p.writer (fun w => w.phase = .closed → w.buffered = []) ?_
  refine yields_close (fun h => absurd h hp) (fun _ _ => rfl) fun _ => ?_
  have hopen : ∀ w : Writer, w.phase ≠ .closed → w.fail.phase = .closed → w.fail.buffered = [] :=
    fun w h hc => absurd hc (robust_open.failed w h)
  refine (robust_open.endAll p.writer p.writer hp).mono (fun _ w h => ?_) fun _ w h hc =>
    absurd hc h
  rw [yields_flushSink, yields_drain]
  cases w.sink.handOver w.buffer.held with
  | mk result sink =>
    cases result with
    | error fault => exact hopen _ h
    | ok u =>
      dsimp only
      split
      · exact hopen _ h
      · exact fun _ => rfl

/-- A closed session has nothing here. -/
theorem buffered_of_closed (hp : p.writer.phase = .closed → p.writer.buffered = [])
    (steps : List Step) :
    (run p steps).writer.phase = .closed → (run p steps).writer.buffered = [] := by
  refine @run_induction (fun p => p.writer.phase = .closed → p.writer.buffered = [])
    (fun p step hp => ?_) p hp steps
  by_cases hn : p.writer.phase = .closed
  · obtain ⟨escapes, hw⟩ := writer_of_closed hn step
    rw [hw]
    exact fun _ => hp hn
  by_cases hc : step = .close
  · subst hc
    exact buffered_close hn
  · exact fun h => absurd h (robust_open.apply hn step fun h => absurd h hc)

end Step

/-- What is made of steps does not make a session run again. -/
theorem Action.Issues.stopped {α : Type} {a : Action α} (h : a.Issues) {w : Writer}
    (hp : w.phase ≠ .running) : (a.after w).phase ≠ .running := by
  obtain ⟨steps, hrun⟩ := h w []
  have hq := Step.stopped_run (p := ⟨w, []⟩) hp steps
  rwa [hrun] at hq

/-! ## Calls -/

namespace Call

open BsonWriter.Action

variable {w : Writer}

/-- The call begins or ends something, names a field, takes a type byte or writes. -/
def Writes : Call → Prop
  | flush | close | setEscapes _ | inspect => False
  | _ => True

/-- A session that does not run refuses every call that writes. Unless it writes a datum,
which may refuse first, the call is out of order. -/
theorem refused {call : Call} (hw : call.Writes) (hp : w.phase ≠ .running) :
    ∃ e, call.run w = ⟨.error e, w, []⟩ ∧
      ((∀ d, call ≠ .serialize d) → e.isOutOfOrder = true) := by
  have hbarred : ∀ {a : Action Unit}, a.Barred →
      ∃ e, Report.ofAction a w [] = ⟨.error e, w, []⟩ ∧
        ((∀ d, call ≠ .serialize d) → e.isOutOfOrder = true) := by
    intro a ha
    obtain ⟨e, hr, he⟩ := exists_run_of_barred ha hp
    exact ⟨e, by rw [Report.ofAction, hr], fun _ => he⟩
  cases call with
  | flush | close | setEscapes | inspect => exact hw.elim
  | beginContainer place shape => exact hbarred (barred_beginContainer place shape)
  | endContainer shape => exact hbarred (barred_endContainer shape)
  | fieldName name => exact hbarred (barred_checked _)
  | write place value => exact hbarred (barred_write place value)
  | abandon place => exact hbarred (barred_andThen (barred_take _ _ _) _)
  | codeWithDatum place code d => exact hbarred (barred_codeWithScope place code d.asScope)
  | codeWithCalls place code forgiving calls =>
    obtain ⟨e, hr, he⟩ :=
      exists_run_of_barred (barred_andThen (barred_take place .scalar .javaScript)
        (openScopeAt code)) hp
    refine ⟨e, ?_, fun _ => he⟩
    rw [run, show (beginScope place code).run w = _ from hr]
  | serialize d =>
    obtain ⟨e, hr⟩ := exists_run_of_refused
      (refused_tracked (@Datum.refused_datum .plain nofun d)) hp
    refine ⟨e, ?_, fun h => absurd rfl (h d)⟩
    rw [run, Report.ofAction, action, Action.serialize, hr]
    exact nofun

/-- Where a call fails, the session does not run any more. -/
theorem stops (call : Call) : call.action.Stops := by
  have htake : ∀ place kind activity, (take place kind activity).Stops := by
    intro place kind activity
    cases place with
    | direct => exact stops_tracked _
    | field name => exact stops_andThen (stops_tracked _) fun _ => stops_tracked _
    | element => exact stops_andThen (stops_tracked _) fun _ => stops_tracked _
  have hscope : ∀ place code scope, (codeWithScope place code scope).Stops :=
    fun place code scope => stops_andThen
      (stops_andThen (htake place _ _) fun _ => stops_tracked _) fun _ =>
        stops_andThen (stops_tracked _) fun _ => stops_tracked _
  cases call with
  | beginContainer | write => exact stops_andThen (htake _ _ _) fun _ => stops_tracked _
  | endContainer shape => exact stops_endContainer shape
  | fieldName | serialize | flush => exact stops_tracked _
  | abandon => exact stops_andThen (htake _ _ _) fun _ _ => trivial
  | close => exact stops_close
  | setEscapes | inspect => exact fun _ => trivial
  | codeWithDatum => exact hscope _ _ _
  | codeWithCalls => exact hscope _ _ _

/-- A call that reports an error has ended the use of the session. -/
theorem stopped_of_failed {call : Call} (h : (call.run w).failed = true) :
    (call.run w).after.phase ≠ .running := by
  rw [after_run]
  cases hr : (call.run w).result with
  | ok u => simp [Report.failed, hr] at h
  | error e => exact phase_of_result_error call.stops ((result_run w call).symm.trans hr)

/-- What follows the calls of a scope. -/
theorem refused_finishScope (mark : ScopeMark) (result : Except Error Unit) :
    (finishScope mark result).Refused := by
  cases result with
  | ok u => exact refused_endScope mark
  | error e => exact refused_tracked (refused_throw e)

theorem stops_finishScope (mark : ScopeMark) (result : Except Error Unit) :
    (finishScope mark result).Stops := by
  cases result with
  | ok u => exact stops_tracked _
  | error e => exact stops_tracked (throw e)

/-- The rest of a scope does not make a session run again. -/
theorem stopped_runScope (hp : w.phase ≠ .running) (forgiving : Bool) (calls : List Call) :
    (Report.lastState w (runScope forgiving w calls)).phase ≠ .running := by
  rw [lastState_runScope]
  exact (scope_issues forgiving calls).stopped hp

/-- If a call in a scope fails or leaves the session unusable, the scope does. -/
theorem stopped_of_mem_runScope {forgiving : Bool} {calls : List Call} {r : Report}
    (hm : r ∈ runScope forgiving w calls) (hr : r.failed = true ∨ r.after.phase ≠ .running) :
    (Report.lastState w (runScope forgiving w calls)).phase ≠ .running := by
  induction calls generalizing w with
  | nil => cases hm
  | cons call rest ih =>
    rw [runScope] at hm ⊢
    rw [Report.lastState]
    obtain rfl | hm := List.mem_cons.mp hm
    · have hstop : (call.run w).after.phase ≠ .running := hr.elim stopped_of_failed id
      split
      · exact hstop
      · exact stopped_runScope hstop forgiving rest
    · split at hm
      · cases hm
      · rename_i hgo
        rw [if_neg hgo]
        exact ih hm

/-- Code fails with a scope in which a call fails or leaves the session unusable, even if
the scope forgives errors. -/
theorem failed_of_mem_inner {place : Place} {code : String} {forgiving : Bool}
    {calls : List Call} {r : Report}
    (hm : r ∈ ((codeWithCalls place code forgiving calls).run w).inner)
    (hr : r.failed = true ∨ r.after.phase ≠ .running) :
    ((codeWithCalls place code forgiving calls).run w).failed = true := by
  rw [run] at hm ⊢
  cases hbegin : (beginScope place code).run w with
  | error e v => rfl
  | ok mark v =>
    rw [hbegin] at hm
    dsimp only at hm
    rw [Report.ofAction_eq] at hm
    obtain ⟨e, hrun⟩ := exists_run_of_refused (refused_finishScope mark
      (Report.scopeResult forgiving (runScope forgiving v calls)))
      (stopped_of_mem_runScope hm hr)
    simp only [Report.ofAction, hrun, Report.failed]

end Call

/-! ## What comes after a failure -/

/-- After a step that fails and any steps `rest`, the session does not run. Every call that
writes is refused and changes nothing, with any scope and inside any scope that is open;
what follows the beginning of a scope fails, whatever is left of the scope does; and
closing goes well, gives up what is here and hands nothing over. The fourth part is the
case of a scope whose calls are known: if one of them fails or leaves the session
unusable, the code with that scope fails, even if the scope forgives errors. -/
theorem failure_is_final (sink : Sink) (options : Options) (storage : Bytes)
    (steps : List Step) (step : Step) (rest : List Step)
    (h : step.Fails (Step.run ⟨Writer.onStorage sink options storage, []⟩ steps)) :
    let p := step.apply (Step.run ⟨Writer.onStorage sink options storage, []⟩ steps)
    let w := (Step.run p rest).writer
    w.phase ≠ .running ∧
      (∀ call : Call, call.Writes → ∃ e, call.run w = ⟨.error e, w, []⟩ ∧
        ((∀ d, call ≠ .serialize d) → e.isOutOfOrder = true)) ∧
      (∀ place code scope, ∃ e, (Action.codeWithScope place code scope).run w = .error e w ∧
        e.isOutOfOrder = true) ∧
      (∀ (before : Writer) place code forgiving calls,
        let r := (Call.codeWithCalls place code forgiving calls).run before
        (∃ inner ∈ r.inner, inner.failed = true ∨ inner.after.phase ≠ .running) →
          r.failed = true ∧ r.after.phase ≠ .running) ∧
      (∀ mark (remaining : Action Unit), remaining.Issues →
        ∃ e, (Action.inScope remaining mark).run w = .error e (remaining.after w)) ∧
      ∃ v, Action.close.run w = .ok () v ∧ v.phase = .closed ∧ v.buffered = [] ∧
        v.sink = w.sink := by
  intro p w
  have hp : w.phase ≠ .running := Step.stopped_run (Step.stopped_of_fails h) rest
  refine ⟨hp, fun call hw => Call.refused hw hp, fun place code scope => ?_, ?_, ?_, ?_⟩
  · exact Action.exists_run_of_barred (Action.barred_codeWithScope place code scope) hp
  · rintro before place code forgiving calls r ⟨inner, hm, hinner⟩
    have hfailed := Call.failed_of_mem_inner hm hinner
    exact ⟨hfailed, Call.stopped_of_failed hfailed⟩
  · intro mark remaining hissues
    rw [Action.run_inScope]
    exact Action.exists_run_of_refused (Call.refused_finishScope mark _) (hissues.stopped hp)
  · have hempty : w.phase = .closed → w.buffered = [] := by
      have hall := @Step.buffered_of_closed ⟨Writer.onStorage sink options storage, []⟩ nofun
        (steps ++ step :: rest)
      rwa [Step.run_append] at hall
    exact Action.run_close_of_stopped hp hempty

/-- The session has failed in the scope, at a field that has no value yet. Its writer goes
on, and neither another field nor the end of the scope is taken. -/
theorem failure_is_final_scope :
    let p := (Step.finish .document).apply (Step.run ⟨Writer.onStorage {} {} [], []⟩
      [.begin .container .startObject .document, .name "f", .beginScope .javaScript "c",
        .name "x"])
    let w := (Step.run p [.flush]).writer
    (Step.finish .document).Fails (Step.run ⟨Writer.onStorage {} {} [], []⟩
      [.begin .container .startObject .document, .name "f", .beginScope .javaScript "c",
        .name "x"]) ∧
      (∃ e, (Call.fieldName "y").run w = ⟨.error e, w, []⟩) ∧
      ∃ v, Action.close.run w = .ok () v ∧ v.phase = .closed ∧ v.buffered = [] ∧
        v.sink = w.sink := by
  have hfails : (Step.finish .document).Fails (Step.run ⟨Writer.onStorage {} {} [], []⟩
      [.begin .container .startObject .document, .name "f", .beginScope .javaScript "c",
        .name "x"]) := by decide +kernel
  obtain ⟨-, hcalls, -, -, -, hclose⟩ := failure_is_final {} {} [] _ _ [.flush] hfails
  obtain ⟨e, hrun, -⟩ := hcalls (.fieldName "y") trivial
  exact ⟨hfails, ⟨e, hrun⟩, hclose⟩

end BsonWriter
