import BsonWriter.Proofs.Datum.Closure
import BsonWriter.Proofs.Run.Step
import Mathlib.Tactic.Choose

/-!
Callers as scripts. A caller chooses each step by what came of the steps before, so
it is a tree of steps that branches on what they report. Every call is what some
script does (`Call.scripted`), in all states by the same script; it takes a flush
only if the call flushes. In one given state a script comes down to a list of
steps, and then `Issues` says that an action is made of steps (`Call.issues`).
-/

namespace BsonWriter

/-- Steps of which each may depend on the reports of those before, and at last a
result. -/
inductive Script (α : Type)
  | stop (result : Except Error α)
  | make (step : Step) (next : Except Error Unit → Script α)

namespace Script

variable {α β : Type}

/-- The result of a script, and where it leaves the session. -/
def run (p : Progress) : Script α → Except Error α × Progress
  | stop result => (result, p)
  | make step next => (next (step.result p)).run (step.apply p)

/-- The steps that a script makes. -/
def steps (p : Progress) : Script α → List Step
  | stop _ => []
  | make step next => step :: (next (step.result p)).steps (step.apply p)

/-- Goes on with what the result asks for. -/
def handle (t : Script α) (k : Except Error α → Script β) : Script β :=
  match t with
  | stop result => k result
  | make step next => make step fun report => (next report).handle k

/-- Goes on with what has been given, or stops with the error. -/
def follow (next : α → Script β) : Except Error α → Script β
  | .ok x => next x
  | .error e => stop (.error e)

/-- An error also fails the session. -/
def track : Except Error α → Script α
  | .ok x => stop (.ok x)
  | .error e => make .fail fun _ => stop (.error e)

/-- The script flushes only if `flush` holds. -/
def Spares (flush : Prop) : Script α → Prop
  | stop _ => True
  | make step next => (step = .flush → flush) ∧ ∀ report, (next report).Spares flush

theorem run_handle (t : Script α) (k : Except Error α → Script β) (p : Progress) :
    (t.handle k).run p = (k (t.run p).1).run (t.run p).2 := by
  induction t generalizing p with
  | stop result => rfl
  | make step next ih => exact ih (step.result p) (step.apply p)

theorem progress_run (t : Script α) (p : Progress) : (t.run p).2 = Step.run p (t.steps p) := by
  induction t generalizing p with
  | stop result => rfl
  | make step next ih => exact ih (step.result p) (step.apply p)

variable {flush : Prop}

theorem Spares.handle {t : Script α} (ht : t.Spares flush) {k : Except Error α → Script β}
    (hk : ∀ result, (k result).Spares flush) : (t.handle k).Spares flush := by
  induction t with
  | stop result => exact hk result
  | make step next ih => exact ⟨ht.1, fun report => ih report (ht.2 report)⟩

theorem spares_follow {next : α → Script β} (h : ∀ x, (next x).Spares flush)
    (report : Except Error α) : (follow next report).Spares flush := by
  cases report with
  | ok x => exact h x
  | error e => exact trivial

theorem spares_track (report : Except Error α) : (track report).Spares flush := by
  cases report with
  | ok x => exact trivial
  | error e => exact ⟨fun h => (by cases h), fun _ => trivial⟩

theorem Spares.steps {t : Script α} (ht : t.Spares flush) (p : Progress) :
    Step.flush ∈ t.steps p → flush := by
  induction t generalizing p with
  | stop result => intro h; cases h
  | make step next ih =>
    intro h
    rcases List.mem_cons.mp h with h | h
    · exact ht.1 h.symm
    · exact ih _ (ht.2 _) _ h

end Script

/-! ## Actions that scripts do -/

/-- Some script does the same in every state and inside any scopes, and flushes only
if `flush` holds. -/
def Action.Scripted {α : Type} (flush : Prop) (a : Action α) : Prop :=
  ∃ t : Script α, t.Spares flush ∧ ∀ w scopes, t.run ⟨w, scopes⟩ = (a.result w, ⟨a.after w, scopes⟩)

/-- In every state and inside any scopes, the action does what some steps do. The
steps may depend on the state. -/
def Action.Issues {α : Type} (a : Action α) : Prop :=
  ∀ w scopes, ∃ steps, Step.run ⟨w, scopes⟩ steps = ⟨a.after w, scopes⟩

namespace Action

variable {α β : Type} {flush : Prop}

theorem Scripted.issues {a : Action α} (h : a.Scripted flush) : a.Issues := by
  obtain ⟨t, -, ht⟩ := h
  exact fun w scopes => ⟨t.steps ⟨w, scopes⟩, by rw [← t.progress_run, ht]⟩

theorem scripted_pure (x : α) : (pure x : Action α).Scripted flush :=
  ⟨.stop (.ok x), trivial, fun _ _ => rfl⟩

theorem scripted_raise (cause : Cause) : (raise cause : Action α).Scripted flush :=
  ⟨.stop (.error ⟨cause, none⟩), trivial, fun _ _ => rfl⟩

theorem scripted_andThen {a : Action β} {f : β → Action α} (ha : a.Scripted flush)
    (hf : ∀ x, (f x).Scripted flush) : (a >>= f).Scripted flush := by
  obtain ⟨t, hs, ht⟩ := ha
  choose g hgs hg using hf
  refine ⟨t.handle (.follow g), hs.handle (Script.spares_follow hgs), fun w scopes => ?_⟩
  rw [Script.run_handle, ht, after_andThen]
  cases hr : a.run w with
  | ok x w' =>
    rw [result_of_ok hr, after_of_ok hr, Script.follow, hg]
    simp only [result, run_andThen, hr]
  | error e w' =>
    rw [result_of_error hr, after_of_error hr]
    simp only [result, run_andThen, hr, Script.follow, Script.run]

theorem scripted_tracked {a : Action α} (ha : a.Scripted flush) :
    (tracked a).Scripted flush := by
  obtain ⟨t, hs, ht⟩ := ha
  refine ⟨t.handle .track, hs.handle Script.spares_track, fun w scopes => ?_⟩
  rw [Script.run_handle, ht, after_tracked]
  cases hr : a.run w with
  | ok x w' =>
    rw [result_of_ok hr, after_of_ok hr]
    simp only [result, run_tracked, hr, Script.track, Script.run]
  | error e w' =>
    rw [result_of_error hr, after_of_error hr]
    simp only [result, run_tracked, hr, Script.track, Script.run]
    rfl

theorem scripted_forgive {a : Action Unit} (ha : a.Scripted flush) :
    (forgive a).Scripted flush := by
  obtain ⟨t, hs, ht⟩ := ha
  refine ⟨t.handle fun _ => .stop (.ok ()), hs.handle fun _ => trivial, fun w scopes => ?_⟩
  rw [Script.run_handle, ht, Script.run]
  simp only [result, after, run_forgive]
  cases a.run w <;> rfl

/-- A step that has no part in scopes is an action made of one step. -/
theorem scripted_step {step : Step} {a : Action Unit} (hf : step = .flush → flush)
    (h : ∀ p, step.apply p = ⟨a.after p.writer, p.scopes⟩)
    (hr : ∀ p, step.result p = a.result p.writer) : a.Scripted flush :=
  ⟨.make step .stop, ⟨hf, fun _ => trivial⟩, fun w scopes => by
    rw [Script.run, Script.run, h, hr]⟩

/-- A value goes to a place in at most two steps. -/
theorem scripted_take {f : Option Nat → Action α} {kind : ValueKind} {activity : Activity}
    (hf : ∀ activity, (takePosition kind activity >>= f).Scripted flush)
    (hs : ∀ activity, (takePosition .scalar activity >>= f).Scripted flush) (place : Place) :
    (take place kind activity >>= f).Scripted flush := by
  cases place with
  | direct => exact hf activity
  | field name =>
    rw [take, bind_assoc]
    exact scripted_andThen (@scripted_step _ (.name name) _ nofun (fun _ => rfl) fun _ => rfl)
      fun _ => hs .value
  | element =>
    rw [take, bind_assoc]
    exact scripted_andThen (@scripted_step _ .checkArray _ nofun (fun _ => rfl) fun _ => rfl)
      fun _ => hs .arrayElement

theorem scripted_beginContainer (place : Place) (shape : Shape) :
    (beginContainer place shape).Scripted flush :=
  scripted_take
    (fun activity => @scripted_step _ (.begin .container activity shape) _ nofun (fun _ => rfl)
      fun _ => rfl)
    (fun activity => @scripted_step _ (.begin .scalar activity shape) _ nofun (fun _ => rfl)
      fun _ => rfl) place

theorem scripted_endContainer (shape : Shape) : (endContainer shape).Scripted flush :=
  @scripted_step _ (.finish shape) _ nofun (fun _ => rfl) fun _ => rfl

theorem scripted_fieldName (name : String) : (fieldName name).Scripted flush :=
  @scripted_step _ (.name name) _ nofun (fun _ => rfl) fun _ => rfl

theorem scripted_write (place : Place) (value : Scalar) : (write place value).Scripted flush :=
  have h : ∀ activity, (takePosition .scalar activity >>= writeTo value).Scripted flush :=
    fun activity => @scripted_step _ (.write activity value) _ nofun (fun _ => rfl) fun _ => rfl
  scripted_take h h place

theorem scripted_abandon (place : Place) : (abandon place).Scripted flush :=
  have h : ∀ activity, (drop activity).Scripted flush :=
    fun activity => @scripted_step _ (.drop activity) _ nofun (fun _ => rfl) fun _ => rfl
  scripted_take h h place

theorem scripted_flush (hf : flush) : Action.flush.Scripted flush :=
  @scripted_step _ .flush _ (fun _ => hf) (fun _ => rfl) fun _ => rfl

theorem scripted_close : close.Scripted flush :=
  @scripted_step _ .close _ nofun (fun _ => rfl) fun _ => rfl

theorem scripted_setEscapes (table : Option EscapeTable) : (setEscapes table).Scripted flush :=
  @scripted_step _ (.setEscapes table) _ nofun (fun _ => rfl) fun _ => rfl

/-! ## Scopes -/

/-- What follows the beginning of a scope. -/
def inScope (scope : Action Unit) (mark : ScopeMark) : Action Unit := do
  tracked scope
  endScope mark

/-- Code with a scope takes a type byte, begins the scope and then goes inside. -/
theorem codeWithScope_eq (place : Place) (code : String) (scope : Action Unit) :
    codeWithScope place code scope = take place .scalar .javaScript >>= fun slot =>
      openScopeAt code slot >>= inScope scope := bind_assoc ..

/-- The step with which a scope begins, as a script. -/
def opening (activity : Activity) (code : String) : Script Unit :=
  .make (.beginScope activity code) .stop

theorem spares_opening (activity : Activity) (code : String) :
    (opening activity code).Spares flush :=
  ⟨fun h => (by cases h), fun _ => trivial⟩

/-- The beginning of a scope is one step where its value comes next. -/
theorem run_opening (activity : Activity) (code : String) (w : Writer) (scopes : List ScopeMark) :
    (opening activity code).run ⟨w, scopes⟩ = match (Step.openScope activity code).run w with
      | .ok mark w' => (.ok (), ⟨w', mark :: scopes⟩)
      | .error e w' => (.error e, ⟨w', scopes⟩) := by
  rw [opening, Script.run, Script.run, Step.result, Step.apply, result]
  cases (Step.openScope activity code).run w <;> rfl

/-- The beginning of a scope after another step. -/
theorem run_make_opening {first : Step} {a : Action Unit}
    (happly : ∀ p, first.apply p = ⟨a.after p.writer, p.scopes⟩)
    (hresult : ∀ p, first.result p = a.result p.writer) (activity : Activity) (code : String)
    (w : Writer) (scopes : List ScopeMark) :
    (Script.make first (.follow fun _ => opening activity code)).run ⟨w, scopes⟩ =
      match (a >>= fun _ => Step.openScope activity code).run w with
      | .ok mark w' => (.ok (), ⟨w', mark :: scopes⟩)
      | .error e w' => (.error e, ⟨w', scopes⟩) := by
  rw [Script.run, happly, hresult, run_andThen]
  cases hr : a.run w with
  | ok x w' =>
    rw [result_of_ok hr, after_of_ok hr]
    exact run_opening activity code w' scopes
  | error e w' =>
    rw [result_of_error hr, after_of_error hr]
    rfl

/-- The beginning of a scope puts its mark upon the scopes. -/
theorem exists_script_beginScope (place : Place) (code : String) : ∃ t : Script Unit,
    t.Spares flush ∧ ∀ w scopes, t.run ⟨w, scopes⟩ = match (beginScope place code).run w with
      | .ok mark w' => (.ok (), ⟨w', mark :: scopes⟩)
      | .error e w' => (.error e, ⟨w', scopes⟩) := by
  have hspares : ∀ activity report,
      (Script.follow (fun _ : Unit => opening activity code) report).Spares flush :=
    fun activity => Script.spares_follow fun _ => spares_opening activity code
  cases place with
  | direct => exact ⟨opening .javaScript code, spares_opening .javaScript code,
      run_opening .javaScript code⟩
  | field name =>
    refine ⟨.make (.name name) (.follow fun _ => opening .value code),
      ⟨fun h => (by cases h), hspares .value⟩, fun w scopes => ?_⟩
    rw [@run_make_opening (.name name) (fieldName name) (fun _ => rfl) (fun _ => rfl),
      Step.openScope, ← bind_assoc]
    rfl
  | element =>
    refine ⟨.make .checkArray (.follow fun _ => opening .arrayElement code),
      ⟨fun h => (by cases h), hspares .arrayElement⟩, fun w scopes => ?_⟩
    rw [@run_make_opening .checkArray checkArray (fun _ => rfl) (fun _ => rfl), Step.openScope,
      ← bind_assoc]
    rfl

/-- What the writer of a scope reports decides on how the scope goes on. -/
def afterScope : Except Error Unit → Script Unit
  | .ok () => .make .endScope .stop
  | .error e => .make .failScope fun _ => .stop (.error e)

theorem spares_afterScope (report : Except Error Unit) : (afterScope report).Spares flush := by
  cases report with
  | ok x => exact ⟨nofun, fun _ => trivial⟩
  | error e => exact ⟨nofun, fun _ => trivial⟩

theorem run_afterScope (report : Except Error Unit) (w : Writer) (mark : ScopeMark)
    (scopes : List ScopeMark) : (afterScope report).run ⟨w, mark :: scopes⟩ =
      ((Call.finishScope mark report).result w,
        ⟨(Call.finishScope mark report).after w, scopes⟩) := by
  cases report <;> rfl

theorem run_inScope (scope : Action Unit) (mark : ScopeMark) (w : Writer) :
    (inScope scope mark).run w = (Call.finishScope mark (scope.result w)).run (scope.after w) := by
  rw [inScope, run_andThen, run_tracked]
  cases hr : scope.run w with
  | ok x u =>
    rw [result_of_ok hr, after_of_ok hr]
    rfl
  | error e u =>
    rw [result_of_error hr, after_of_error hr]
    rfl

theorem scripted_codeWithScope {scope : Action Unit} (hs : scope.Scripted flush) (place : Place)
    (code : String) : (codeWithScope place code scope).Scripted flush := by
  obtain ⟨t, hts, ht⟩ := hs
  obtain ⟨b, hbs, hb⟩ := @exists_script_beginScope flush place code
  have hspares : ∀ _ : Unit, (t.handle afterScope).Spares flush := fun _ =>
    hts.handle spares_afterScope
  refine ⟨b.handle (.follow fun _ => t.handle afterScope),
    hbs.handle (Script.spares_follow hspares), fun w scopes => ?_⟩
  rw [Script.run_handle, hb,
    show codeWithScope place code scope = beginScope place code >>= inScope scope from rfl]
  simp only [result, after, run_andThen]
  cases hr : (beginScope place code).run w with
  | error e w' => rfl
  | ok mark w' =>
    simp only [Script.follow]
    rw [Script.run_handle, ht, run_afterScope]
    simp only [run_inScope, result, after]

end Action

/-! ## Data and calls -/

namespace Datum

open BsonWriter.Action

variable {flush : Prop}

/-- Data are written by calls that scripts make. -/
theorem scripted_inherited : Inherited (Scripted flush) where
  nothing := scripted_pure ()
  raised := scripted_raise
  followed ha hb := scripted_andThen ha fun _ => hb
  named := scripted_fieldName
  began := scripted_beginContainer .direct
  ended := scripted_endContainer
  written := scripted_write .direct

theorem scripted_datum (reading : Reading) (d : Datum) : (d.write reading).Scripted flush :=
  scripted_inherited.datum reading d

end Datum

namespace Call

open BsonWriter.Action

mutual

/-- The call does not flush, and no call in its scope does. -/
def Flushless : Call → Prop
  | flush => False
  | codeWithCalls _ _ _ calls => AllFlushless calls
  | _ => True

def AllFlushless : List Call → Prop
  | [] => True
  | call :: rest => call.Flushless ∧ AllFlushless rest

end

variable {flush : Prop}

mutual

/-- Every call is what a script does, and flushes only if it says so. -/
theorem scripted : (call : Call) → (¬flush → call.Flushless) → call.action.Scripted flush
  | beginContainer place shape, _ => scripted_beginContainer place shape
  | endContainer shape, _ => scripted_endContainer shape
  | fieldName name, _ => scripted_fieldName name
  | write place value, _ => scripted_write place value
  | abandon place, _ => scripted_abandon place
  | serialize d, _ => scripted_tracked (d.scripted_datum .plain)
  | .flush, h => scripted_flush (Classical.not_not.mp h)
  | close, _ => scripted_close
  | setEscapes table, _ => scripted_setEscapes table
  | inspect, _ => scripted_pure ()
  | codeWithDatum place code d, _ => scripted_codeWithScope (d.scripted_datum .fields) place code
  | codeWithCalls place code forgiving calls, h =>
    scripted_codeWithScope (scope_scripted forgiving calls h) place code

theorem scope_scripted (forgiving : Bool) : (calls : List Call) →
    (¬flush → AllFlushless calls) → (scopeAction forgiving calls).Scripted flush
  | [], _ => scripted_pure ()
  | call :: rest, h => by
    rw [scopeAction]
    refine scripted_andThen ?_ fun _ => scope_scripted forgiving rest fun hn => (h hn).2
    have hcall := scripted call fun hn => (h hn).1
    cases forgiving
    · exact hcall
    · exact scripted_forgive hcall

end

/-- Every call is made of steps. -/
theorem issues (call : Call) : call.action.Issues :=
  (@scripted True call fun h => absurd trivial h).issues

theorem scope_issues (forgiving : Bool) (calls : List Call) :
    (scopeAction forgiving calls).Issues :=
  (@scope_scripted True forgiving calls fun h => absurd trivial h).issues

/-! What holds of an action holds of the report of its call. -/

theorem result_run (w : Writer) (call : Call) : (call.run w).result = call.action.result w := by
  rw [result, ← outcome_run w call, Report.outcome]
  cases (call.run w).result <;> rfl

theorem after_run (w : Writer) (call : Call) : (call.run w).after = call.action.after w := by
  rw [after, ← outcome_run w call, Report.outcome]
  cases (call.run w).result <;> rfl

theorem result_runScope (forgiving : Bool) (w : Writer) (calls : List Call) :
    Report.scopeResult forgiving (runScope forgiving w calls) =
      (scopeAction forgiving calls).result w := by
  rw [result, ← scopeOutcome_runScope forgiving w calls, Report.scopeOutcome]
  cases Report.scopeResult forgiving (runScope forgiving w calls) <;> rfl

theorem lastState_runScope (forgiving : Bool) (w : Writer) (calls : List Call) :
    Report.lastState w (runScope forgiving w calls) = (scopeAction forgiving calls).after w := by
  rw [after, ← scopeOutcome_runScope forgiving w calls, Report.scopeOutcome]
  cases Report.scopeResult forgiving (runScope forgiving w calls) <;> rfl

end Call

end BsonWriter
