import BsonWriter.Proofs.Run.Inversion
import BsonWriter.Proofs.Run.Refusal
import BsonWriter.Proofs.Session.Success

/-!
Values through slots. A value method can be called on the session itself or on the slot of a
field or an element, and the slot is taken as that of a scalar whatever is then written. The
kind of a value and the words for it matter only where no value may come, so both ways do
the same wherever the slot can be had (`run_take_field`, `run_take_element`), and calls
can be respelled one way or the other anywhere in a session (`slots_interchange`).
-/

namespace BsonWriter

open BsonWriter.Action

variable {w : Writer}

/-- The innermost open container is an array. -/
def Writer.InArray (w : Writer) : Prop := Expectation.enclosing w.expectations = .array

theorem Writer.InArray.exists_cons (h : w.InArray) :
    ∃ rest, w.expectations = .element :: rest := by
  unfold InArray Expectation.enclosing at h
  split at h
  · cases h
  · cases h
  · cases h
  · exact ⟨_, by assumption⟩

/-- What the context of a session says is what its containers say. -/
theorem Writer.inArray_iff (h : w.Consistent) :
    w.InArray ↔ ∃ c rest, w.containers = c :: rest ∧ c.shape = .array := by
  constructor
  · intro hw
    obtain ⟨rest, he⟩ := hw.exists_cons
    obtain ⟨c, containers, hc, hexpects, -⟩ := h.exists_cons he
    exact ⟨c, containers, hc, if_pos (hexpects.mp rfl)⟩
  · rintro ⟨c, containers, hc, hshape⟩
    have hindex : c.nextIndex.isSome = true := by
      by_contra hnone
      rw [Container.shape, if_neg hnone] at hshape
      cases hshape
    have haligned := h.aligned
    rw [hc] at haligned
    obtain ⟨e, rest, hexpects, -, he⟩ := List.forall₂_cons_right_iff.mp haligned
    rw [InArray, he, hexpects.mpr hindex]
    rfl

/-! ## Taking a slot -/

namespace Action

/-- Kind and activity of a value count only in the check whether a value may come. -/
theorem run_takePosition_congr {kind kind' : ValueKind} {activity activity' : Activity}
    (h : Expectation.admitValue kind activity w.expectations =
      Expectation.admitValue kind' activity' w.expectations) :
    (takePosition kind activity).run w = (takePosition kind' activity').run w := by
  apply run_eq_of_yields
  intro Q E
  unfold takePosition
  simp only [yields_tracked, yields_andThen, yields_checkRunning, yields_advance, h]

/-- Behind a name its value is expected. -/
theorem expectations_of_fieldName {name : String} {v : Writer}
    (h : (fieldName name).run w = .ok () v) : ∃ rest, v.expectations = .value :: rest := by
  have hy : (fieldName name).Yields w (fun _ v => ∃ rest, v.expectations = .value :: rest)
      fun _ _ => True := by
    apply yields_fieldName
    · exact fun _ => trivial
    · intro expectations bs _ hadmit
      obtain ⟨rest, -, hrest⟩ := Expectation.admitName_eq_ok hadmit
      exact ⟨⟨rest, hrest⟩, fun _ => trivial⟩
  exact hy.of_ok h

/-- The slot of a field is the type byte that waits behind its name. -/
theorem run_take_field (name : String) (kind : ValueKind) (activity : Activity) :
    (take (.field name) kind activity).run w =
      (do fieldName name; take .direct kind activity : Action (Option Nat)).run w := by
  simp only [take]
  rw [run_andThen, run_andThen]
  cases h : (fieldName name).run w with
  | error e v => rfl
  | ok u v =>
    obtain ⟨rest, he⟩ := expectations_of_fieldName h
    apply run_takePosition_congr
    rw [he]
    rfl

/-- In an array, the slot of an element is the one that any value takes. -/
theorem run_take_element (h : w.InArray) (kind : ValueKind) (activity : Activity) :
    (take .element kind activity).run w = (take .direct kind activity).run w := by
  obtain ⟨rest, he⟩ := h.exists_cons
  have hcongr :
      (takePosition .scalar .arrayElement).run w = (takePosition kind activity).run w := by
    apply run_takePosition_congr
    rw [he]
    rfl
  simp only [take]
  rw [run_andThen]
  by_cases hr : w.phase = .running
  · have hcheck : checkArray.run w = .ok () w := by
      rw [run_eq_ok_iff]
      simp [checkArray, hr, he, Expectation.enclosing]
    rw [hcheck]
    exact hcongr
  · -- both are refused by the same check, in the same words
    rw [← run_andThen]
    apply run_eq_of_yields
    intro Q E
    simp only [checkArray, takePosition, yields_andThen, yields_tracked, yields_checkRunning]
    cases hp : w.phase with
    | running => exact absurd hp hr
    | failed | closed => rfl

end Action

/-! ## Value methods -/

/-- What can be written through a slot: a container that begins, a scalar, or code whose
scope any action writes. -/
inductive ValueMethod
  | container (shape : Shape)
  | scalar (value : Scalar)
  | codeWithScope (code : String) (scope : Action Unit)

namespace ValueMethod

/-- The method, called at a place. -/
def putAt (place : Place) : ValueMethod → Action Unit
  | container shape => beginContainer place shape
  | scalar value => write place value
  | codeWithScope code scope => Action.codeWithScope place code scope

def kind : ValueMethod → ValueKind
  | container _ => .container
  | scalar _ | codeWithScope .. => .scalar

def activity : ValueMethod → Activity
  | container shape => shape.activity
  | scalar value => value.activity
  | codeWithScope .. => .javaScript

/-- What the method does once it has its slot. -/
def fill : ValueMethod → Option Nat → Action Unit
  | container shape, slot => openAt shape slot
  | scalar value, slot => writeTo value slot
  | codeWithScope code scope, slot => do
    let mark ← openScopeAt code slot
    tracked scope
    endScope mark

theorem putAt_eq (m : ValueMethod) (place : Place) :
    m.putAt place = take place m.kind m.activity >>= m.fill := by
  cases m with
  | container | scalar => rfl
  | codeWithScope code scope => exact bind_assoc _ _ _

theorem run_putAt_congr {place place' : Place} {v : Writer} (m : ValueMethod)
    (h : (take place m.kind m.activity).run w = (take place' m.kind m.activity).run v) :
    (m.putAt place).run w = (m.putAt place').run v := by
  rw [putAt_eq, putAt_eq, run_andThen, run_andThen, h]

/-- A field is its name and then its value. -/
theorem run_putAt_field (name : String) (m : ValueMethod) :
    (m.putAt (.field name)).run w = (do fieldName name; m.putAt .direct : Action Unit).run w := by
  have hassoc : (do fieldName name; m.putAt .direct : Action Unit) =
      (do fieldName name; take .direct m.kind m.activity : Action (Option Nat)) >>= m.fill := by
    rw [putAt_eq, bind_assoc]
  rw [hassoc, putAt_eq, run_andThen, run_take_field, ← run_andThen]

/-- If the name cannot be written, the value is refused and changes nothing. -/
theorem after_putAt_field (name : String) (m : ValueMethod) :
    (m.putAt (.field name)).after w = (m.putAt .direct).after ((fieldName name).after w) := by
  have hsame : (m.putAt (.field name)).after w =
      (do fieldName name; m.putAt .direct : Action Unit).after w := by
    rw [Action.after, Action.after, run_putAt_field]
  rw [hsame, after_andThen]
  cases h : (fieldName name).run w with
  | ok u v => rw [after_of_ok h]
  | error e v =>
    have hstopped : v.phase ≠ .running := by
      rw [← after_of_error h]
      exact phase_of_result_error (stops_tracked _) (result_of_error h)
    have hbarred : (m.putAt .direct).Barred := by
      rw [putAt_eq]
      exact barred_andThen (barred_take _ _ _) _
    obtain ⟨e', hrun, -⟩ := exists_run_of_barred hbarred hstopped
    rw [after_of_error h, after_of_error hrun]

/-- An element of an array is its value. -/
theorem run_putAt_element (h : w.InArray) (m : ValueMethod) :
    (m.putAt .element).run w = (m.putAt .direct).run w :=
  m.run_putAt_congr (run_take_element h _ _)

end ValueMethod

/-! ## Calls -/

/-- A call that writes a value, without the place. -/
inductive ValueCall
  | container (shape : Shape)
  | scalar (value : Scalar)
  | codeWithDatum (code : String) (d : Datum)
  | codeWithCalls (code : String) (forgiving : Bool) (calls : List Call)

namespace ValueCall

/-- The call at a place. -/
def putAt (place : Place) : ValueCall → Call
  | container shape => .beginContainer place shape
  | scalar value => .write place value
  | codeWithDatum code d => .codeWithDatum place code d
  | codeWithCalls code forgiving calls => .codeWithCalls place code forgiving calls

def method : ValueCall → ValueMethod
  | container shape => .container shape
  | scalar value => .scalar value
  | codeWithDatum code d => .codeWithScope code d.asScope
  | codeWithCalls code forgiving calls => .codeWithScope code (Call.scopeAction forgiving calls)

theorem action_putAt (v : ValueCall) (place : Place) :
    (v.putAt place).action = v.method.putAt place := by
  cases v with
  | codeWithCalls => rw [putAt, Call.action]; rfl
  | container | scalar | codeWithDatum => rw [putAt, Call.action]; rfl

end ValueCall

/-- From a state on, the second calls are the first with some values written through slots:
an element of an array through its slot, or a name and its value through the slot of the
field, anywhere among other calls or in the scope of code. -/
inductive Respelled : Writer → List Call → List Call → Prop
  | refl (w : Writer) (calls : List Call) : Respelled w calls calls
  | trans {w : Writer} {a b c : List Call} : Respelled w a b → Respelled w b c → Respelled w a c
  | within {w : Writer} {a b : List Call} (before after : List Call) :
      Respelled (Report.lastState w (Call.runAll w before)) a b →
      Respelled w (before ++ a ++ after) (before ++ b ++ after)
  | element {w : Writer} (v : ValueCall) : w.InArray →
      Respelled w [v.putAt .direct] [v.putAt .element]
  | field (w : Writer) (name : String) (v : ValueCall) :
      Respelled w [.fieldName name, v.putAt .direct] [v.putAt (.field name)]
  | scope {w : Writer} (place : Place) (code : String) (forgiving : Bool) {a b : List Call} :
      (∀ mark u, (beginScope place code).run w = .ok mark u → Respelled u a b) →
      Respelled w [.codeWithCalls place code forgiving a] [.codeWithCalls place code forgiving b]

/-- The error of the first call that failed, if any did. -/
def Report.firstError (reports : List Report) : Option Error :=
  reports.findSome? fun r => match r.result with
    | .ok () => none
    | .error e => some e

namespace Call

theorem run_scopeAction_append (forgiving : Bool) (a b : List Call) :
    (scopeAction forgiving (a ++ b)).run w =
      (scopeAction forgiving a >>= fun _ => scopeAction forgiving b).run w := by
  induction a generalizing w with
  | nil => rw [List.nil_append, scopeAction, pure_bind]
  | cons call a ih =>
    rw [List.cons_append, scopeAction, scopeAction, bind_assoc, run_andThen, run_andThen]
    cases (tolerate forgiving call.action).run w with
    | error e v => rfl
    | ok u v => exact ih

/-- Carrying on after every error is what a forgiving scope does. -/
theorem run_scopeAction_forgiving (calls : List Call) :
    (scopeAction true calls).run w = .ok () (Report.lastState w (runAll w calls)) := by
  rw [← scopeOutcome_runScope, ← runAll_eq_runScope]
  rfl

/-- A scope that ends well has carried out all its calls. -/
theorem lastState_of_scopeAction {forgiving : Bool} {calls : List Call} {v : Writer}
    (h : (scopeAction forgiving calls).run w = .ok () v) :
    Report.lastState w (runAll w calls) = v := by
  cases forgiving with
  | true =>
    rw [run_scopeAction_forgiving] at h
    cases h
    rfl
  | false =>
    induction calls generalizing w with
    | nil =>
      cases h
      rfl
    | cons call rest ih =>
      rw [scopeAction] at h
      obtain ⟨u, z, hcall, hrest⟩ := run_andThen_eq_ok h
      have hafter : (call.run w).after = z := by
        rw [after_run]
        exact after_of_ok hcall
      rw [runAll, Report.lastState, hafter]
      exact ih hrest

/-- The first error is the one that a scope stops at. -/
theorem firstError_runAll (calls : List Call) : Report.firstError (runAll w calls) =
    match (scopeAction false calls).result w with
    | .ok () => none
    | .error e => some e := by
  induction calls generalizing w with
  | nil => rfl
  | cons call rest ih =>
    have hscope : (scopeAction false (call :: rest)).run w =
        (call.action >>= fun _ => scopeAction false rest).run w := by
      rw [scopeAction]
      rfl
    rw [run_andThen] at hscope
    rw [runAll, Report.firstError, List.findSome?_cons, result_run]
    cases h : call.action.run w with
    | error e v =>
      rw [h] at hscope
      rw [result_of_error h, result_of_error hscope]
    | ok u v =>
      have hafter : (call.run w).after = v := by
        rw [after_run]
        exact after_of_ok h
      have hrest : (scopeAction false (call :: rest)).result w =
          (scopeAction false rest).result v := by
        rw [h] at hscope
        rw [result, hscope]
        rfl
      rw [result_of_ok h, hafter, hrest]
      exact ih

end Call

/-! ## Respelled sessions -/

/-- From a state on, two lists of calls do the same, whether they stop at the first error or
carry on. -/
def Interchangeable (w : Writer) (a b : List Call) : Prop :=
  ∀ forgiving, (Call.scopeAction forgiving b).run w = (Call.scopeAction forgiving a).run w

namespace Interchangeable

open Call

variable {a b : List Call}

theorem of_action {c d : Call} (h : d.action.run w = c.action.run w) :
    Interchangeable w [c] [d] := by
  intro forgiving
  simp only [scopeAction, run_andThen]
  cases forgiving with
  | true => simp only [tolerate, if_true, run_forgive, h]
  | false => simp only [tolerate, Bool.false_eq_true, if_false, h]

theorem within {before : List Call} (h : Interchangeable (Report.lastState w (runAll w before)) a b)
    (after : List Call) : Interchangeable w (before ++ a ++ after) (before ++ b ++ after) := by
  intro forgiving
  rw [run_scopeAction_append, run_scopeAction_append, run_andThen, run_andThen,
    run_scopeAction_append, run_scopeAction_append, run_andThen, run_andThen]
  cases hbefore : (scopeAction forgiving before).run w with
  | error e v => rfl
  | ok u v =>
    rw [lastState_of_scopeAction hbefore] at h
    simp only [h forgiving]

/-- A name and its value do what the slot of the field does, also when the name has failed
and the value is tried all the same. -/
theorem field (name : String) (v : ValueCall) :
    Interchangeable w [.fieldName name, v.putAt .direct] [v.putAt (.field name)] := by
  have hboth : (v.putAt (.field name)).action.run w =
      (do Action.fieldName name; (v.putAt .direct).action : Action Unit).run w := by
    rw [ValueCall.action_putAt, ValueCall.action_putAt, ValueMethod.run_putAt_field]
  have hafter : (v.putAt (.field name)).action.after w =
      (v.putAt .direct).action.after ((Action.fieldName name).after w) := by
    rw [ValueCall.action_putAt, ValueCall.action_putAt, ValueMethod.after_putAt_field]
  intro forgiving
  cases forgiving with
  | false =>
    simp only [scopeAction, tolerate, Bool.false_eq_true, if_false, bind_pure_unit]
    rw [hboth]
    rfl
  | true =>
    rw [run_scopeAction_forgiving, run_scopeAction_forgiving]
    simp only [runAll, Report.lastState, after_run]
    rw [hafter]
    rfl

end Interchangeable

theorem Respelled.interchangeable {a b : List Call} (h : Respelled w a b) :
    Interchangeable w a b := by
  induction h with
  | refl w calls => exact fun _ => rfl
  | trans _ _ ihab ihbc => exact fun forgiving => (ihbc forgiving).trans (ihab forgiving)
  | within before after _ ih => exact ih.within after
  | element v hw =>
    apply Interchangeable.of_action
    rw [v.action_putAt, v.action_putAt]
    exact ValueMethod.run_putAt_element hw _
  | field w name v => exact Interchangeable.field name v
  | @scope w place code forgiving a b _ ih =>
    apply Interchangeable.of_action
    rw [Call.action, Call.action, codeWithScope, codeWithScope, run_andThen, run_andThen]
    cases hbegin : (beginScope place code).run w with
    | error e u => rfl
    | ok mark u =>
      change (do tracked _; endScope mark : Action Unit).run u =
        (do tracked _; endScope mark : Action Unit).run u
      rw [run_andThen, run_andThen, run_tracked, run_tracked, ih mark u hbegin forgiving]

/-- Values can be written through slots or directly. The slot of a field does what the name
and then the value do, in every state and whether or not one goes on after the name has
failed; in an array the slot of an element does what the value does. So in any session, any
of the values can be respelled one way or the other: the first error is the same, and so is
the state that is left. -/
theorem slots_interchange :
    (∀ (w : Writer) (name : String) (m : ValueMethod),
      (m.putAt (.field name)).run w = (do fieldName name; m.putAt .direct : Action Unit).run w ∧
      (m.putAt (.field name)).after w = (m.putAt .direct).after ((fieldName name).after w)) ∧
    (∀ (w : Writer) (m : ValueMethod), w.Reachable →
      (∃ c rest, w.containers = c :: rest ∧ c.shape = .array) →
      (m.putAt .element).run w = (m.putAt .direct).run w) ∧
    ∀ (w : Writer) (calls respelled : List Call), Respelled w calls respelled →
      Report.firstError (Call.runAll w respelled) = Report.firstError (Call.runAll w calls) ∧
      Report.lastState w (Call.runAll w respelled) = Report.lastState w (Call.runAll w calls) := by
  refine ⟨fun w name m => ⟨m.run_putAt_field name, m.after_putAt_field name⟩, ?_, ?_⟩
  · intro w m hw hc
    exact m.run_putAt_element ((Writer.inArray_iff hw.consistent).mpr hc)
  · intro w calls respelled h
    have hsame := h.interchangeable
    constructor
    · rw [Call.firstError_runAll, Call.firstError_runAll, result, result, hsame false]
    · have hlast := hsame true
      rw [Call.run_scopeAction_forgiving, Call.run_scopeAction_forgiving] at hlast
      injection hlast

/-- A document with an array of code and a null value, written by flat calls and then through
slots: the array as a field, the fields of the scope as fields, the null value as an
element. -/
theorem slots_interchange_array :
    let calls : List Call := [.beginContainer .direct .document, .fieldName "a",
      .beginContainer .direct .array,
      .codeWithCalls .direct "f" false [.fieldName "x", .write .direct (.int32 1)],
      .write .direct .null, .endContainer .array, .endContainer .document]
    let respelled : List Call := [.beginContainer .direct .document,
      .beginContainer (.field "a") .array,
      .codeWithCalls .direct "f" false [.write (.field "x") (.int32 1)],
      .write .element .null, .endContainer .array, .endContainer .document]
    let opened : Writer := Writer.opened {} .array
    Report.firstError (Call.runAll {} respelled) = none ∧
      Report.lastState {} (Call.runAll {} respelled) = Report.lastState {} (Call.runAll {} calls) ∧
      (write .element .null).run opened = (write .direct .null).run opened := by
  intro calls respelled opened
  have hfield := Respelled.within (w := {}) [.beginContainer .direct .document]
    [.codeWithCalls .direct "f" false [.fieldName "x", .write .direct (.int32 1)],
      .write .direct .null, .endContainer .array, .endContainer .document]
    (.field _ "a" (.container .array))
  have hscope := Respelled.within (w := {})
    [.beginContainer .direct .document, .beginContainer (.field "a") .array]
    [.write .direct .null, .endContainer .array, .endContainer .document]
    (.scope .direct "f" false fun _ u _ => .field u "x" (.scalar (.int32 1)))
  have helement := Respelled.within (w := {})
    [.beginContainer .direct .document, .beginContainer (.field "a") .array,
      .codeWithCalls .direct "f" false [.write (.field "x") (.int32 1)]]
    [.endContainer .array, .endContainer .document]
    (.element (.scalar .null) (by unfold Writer.InArray; decide +kernel))
  obtain ⟨herror, hlast⟩ :=
    slots_interchange.2.2 {} calls respelled (hfield.trans (hscope.trans helement))
  refine ⟨herror.trans (by decide +kernel), hlast, ?_⟩
  exact slots_interchange.2.1 _ (.scalar .null)
    ⟨{}, {}, [], [.begin .container .startArray .array], [], rfl⟩ ⟨_, _, rfl, rfl⟩

end BsonWriter
