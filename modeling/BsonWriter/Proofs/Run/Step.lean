import BsonWriter.Proofs.Action.Yields
import BsonWriter.Session.Outcome

/-!
Sessions as sequences of steps. Whatever a caller does comes down to single
steps: a name, the check that an element may come, a value at the current
position, an end, a flush. The scope of code is not one step. It begins with one and
ends with another, and whoever writes the scope makes any steps in between.
-/

namespace BsonWriter

namespace Action

/-- The state an action ends with. -/
def after {α : Type} (a : Action α) (w : Writer) : Writer :=
  match a.run w with
  | .ok _ w => w
  | .error _ w => w

/-- What an action reports. -/
def result {α : Type} (a : Action α) (w : Writer) : Except Error α :=
  match a.run w with
  | .ok x _ => .ok x
  | .error e _ => .error e

theorem result_of_ok {α : Type} {a : Action α} {x : α} {w w' : Writer} (h : a.run w = .ok x w') :
    a.result w = .ok x := by
  rw [result, h]

theorem result_of_error {α : Type} {a : Action α} {e : Error} {w w' : Writer}
    (h : a.run w = .error e w') : a.result w = .error e := by
  rw [result, h]

theorem after_of_ok {α : Type} {a : Action α} {x : α} {w w' : Writer} (h : a.run w = .ok x w') :
    a.after w = w' := by
  rw [after, h]

theorem after_of_error {α : Type} {a : Action α} {e : Error} {w w' : Writer}
    (h : a.run w = .error e w') : a.after w = w' := by
  rw [after, h]

theorem run_of_not_failed {a : Action Unit} {w : Writer}
    (h : ¬∃ e, a.result w = .error e) : a.run w = .ok () (a.after w) := by
  unfold result at h
  unfold after
  cases hr : a.run w with
  | ok x w' => rfl
  | error e w' => exact absurd ⟨e, by rw [hr]⟩ h

theorem after_andThen {α β : Type} (a : Action α) (f : α → Action β) (w : Writer) :
    (a >>= f).after w = match a.run w with
      | .ok x w => (f x).after w
      | .error _ w => w := by
  rw [after, run_andThen]
  cases a.run w <;> rfl

theorem after_tracked {α : Type} (a : Action α) (w : Writer) :
    (tracked a).after w = match a.run w with
      | .ok _ w => w
      | .error _ w => w.fail := by
  rw [after, run_tracked]
  cases a.run w <;> rfl

theorem Yields.after {α : Type} {a : Action α} {w : Writer} {R : Writer → Prop}
    (h : a.Yields w (fun _ => R) (fun _ => R)) : R (a.after w) := by
  unfold Action.after
  cases hr : a.run w with
  | ok x w' => exact h.of_ok hr
  | error e w' => exact h.of_error hr

/-! ## Values behind their type byte -/

/-- Writes a value whose type byte has been taken. -/
def writeTo (value : Scalar) (slot : Option Nat) : Action Unit := tracked do
  let w ← get
  let primitive := value.primitive w.options
  fillScalar slot primitive.type
  emit (primitive.payload w.escapes)
  drainIfStreaming

/-- Begins a container whose type byte has been taken. -/
def openAt (shape : Shape) (slot : Option Nat) : Action Unit := tracked do
  fill slot shape.elementType
  openContainer shape

/-- Writes code whose type byte has been taken, and begins its scope. -/
def openScopeAt (code : String) (slot : Option Nat) : Action ScopeMark := tracked do
  fillScalar slot .javaScriptCodeWithScope
  let start ← offset
  append (lengthField 0)
  emit (.string (← get).escapes code)
  openContainer .document
  return ⟨start, (← get).expectations.length⟩

/-- Takes a type byte and gives it up. -/
def drop (activity : Activity) : Action Unit := do
  let _ ← takePosition .scalar activity
  modify Writer.fail

end Action

theorem Report.ofAction_eq (a : Action Unit) (w : Writer) (inner : List Report) :
    ofAction a w inner = ⟨a.result w, a.after w, inner⟩ := by
  unfold ofAction Action.result Action.after
  cases a.run w <;> rfl

/-! ## Steps -/

/-- One step of a session. A value or a container takes the current position under
the name of an activity; `failScope` is what becomes of a scope whose writer fails,
and `fail` any other failure that is none of the session's own. -/
inductive Step
  | name (text : String)
  | checkArray
  | write (activity : Activity) (value : Scalar)
  | begin (kind : ValueKind) (activity : Activity) (shape : Shape)
  | finish (shape : Shape)
  | drop (activity : Activity)
  | beginScope (activity : Activity) (code : String)
  | endScope
  | failScope
  | fail
  | flush
  | close
  | setEscapes (table : Option EscapeTable)
  deriving DecidableEq, Repr

/-- A session under way: its state, and the scopes that have begun and not ended,
innermost first. -/
structure Progress where
  writer : Writer
  scopes : List ScopeMark := []
  deriving DecidableEq, Repr

namespace Step

/-- The action of a step, where it takes no part in scopes. -/
def action : Step → Action Unit
  | name text => Action.fieldName text
  | checkArray => Action.checkArray
  | write activity value => Action.takePosition .scalar activity >>= Action.writeTo value
  | begin kind activity shape => Action.takePosition kind activity >>= Action.openAt shape
  | finish shape => Action.endContainer shape
  | drop activity => Action.drop activity
  | fail => modify Writer.fail
  | flush => Action.flush
  | close => Action.close
  | setEscapes table => Action.setEscapes table
  | beginScope .. | endScope | failScope => pure ()

def openScope (activity : Activity) (code : String) : Action ScopeMark :=
  Action.takePosition .scalar activity >>= Action.openScopeAt code

/-- Makes a step. Without a scope there is none to end. -/
def apply (p : Progress) : Step → Progress
  | beginScope activity code =>
    match (openScope activity code).run p.writer with
    | .ok mark w => ⟨w, mark :: p.scopes⟩
    | .error _ w => ⟨w, p.scopes⟩
  | endScope =>
    match p.scopes with
    | [] => p
    | mark :: rest => ⟨(Action.endScope mark).after p.writer, rest⟩
  | failScope => ⟨p.writer.fail, p.scopes.tail⟩
  | step => ⟨step.action.after p.writer, p.scopes⟩

/-- What a step reports. Giving up a type byte is no error of its own. -/
def result (p : Progress) : Step → Except Error Unit
  | beginScope activity code => ((openScope activity code).result p.writer).map fun _ => ()
  | endScope =>
    match p.scopes with
    | [] => .ok ()
    | mark :: _ => (Action.endScope mark).result p.writer
  | step => step.action.result p.writer

/-- Makes steps one after another. -/
def run (p : Progress) : List Step → Progress
  | [] => p
  | step :: rest => run (step.apply p) rest

theorem run_append (p : Progress) (a b : List Step) : run p (a ++ b) = run (run p a) b := by
  induction a generalizing p with
  | nil => rfl
  | cons step a ih => exact ih (step.apply p)

theorem apply_beginScope (p : Progress) (activity : Activity) (code : String) :
    (beginScope activity code).apply p =
      ⟨(openScope activity code).after p.writer,
        match (openScope activity code).result p.writer with
        | .ok mark => mark :: p.scopes
        | .error _ => p.scopes⟩ := by
  simp only [apply, Action.after, Action.result]
  cases (openScope activity code).run p.writer <;> rfl

/-- What becomes of a session under way, by the part that the step takes in scopes. -/
theorem apply_cases {P : Progress → Prop} {p : Progress} (step : Step) (h : P p)
    (plain : step.action.Yields p.writer (fun _ w => P ⟨w, p.scopes⟩) fun _ w => P ⟨w, p.scopes⟩)
    (opened : ∀ activity code, (openScope activity code).Yields p.writer
      (fun mark w => P ⟨w, mark :: p.scopes⟩) fun _ w => P ⟨w, p.scopes⟩)
    (ended : ∀ mark rest, p.scopes = mark :: rest → (Action.endScope mark).Yields p.writer
      (fun _ w => P ⟨w, rest⟩) fun _ w => P ⟨w, rest⟩)
    (failed : P ⟨p.writer.fail, p.scopes.tail⟩) : P (step.apply p) := by
  have hplain : P ⟨step.action.after p.writer, p.scopes⟩ :=
    @Action.Yields.after _ _ _ (fun w => P ⟨w, p.scopes⟩) plain
  cases step with
  | beginScope activity code =>
    have hy := opened activity code
    simp only [apply]
    split
    · exact hy.of_ok (by assumption)
    · exact hy.of_error (by assumption)
  | endScope =>
    unfold apply
    cases hs : p.scopes with
    | nil => exact h
    | cons mark rest => exact @Action.Yields.after _ _ _ (fun w => P ⟨w, rest⟩) (ended mark rest hs)
  | failScope => exact failed
  | _ => exact hplain

/-- What every step keeps, every run keeps. -/
theorem run_induction {P : Progress → Prop} (hstep : ∀ p step, P p → P (apply p step))
    {p : Progress} (h : P p) (steps : List Step) : P (run p steps) := by
  induction steps generalizing p with
  | nil => exact h
  | cons step steps ih => exact ih (hstep p step h)

end Step

/-- A state that a session can be in, also in the middle of scopes. -/
def Writer.Reachable (w : Writer) : Prop :=
  ∃ sink options storage steps scopes,
    Step.run ⟨Writer.onStorage sink options storage, []⟩ steps = ⟨w, scopes⟩

end BsonWriter
