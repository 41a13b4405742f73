import BsonWriter.Error.Violation

/-!
Which call may come next. An open object expects a field name or the value of
one, an open array expects an element, and outside of all containers only a
container may start. The expectations of the open containers form a stack, the
innermost first.
-/

namespace BsonWriter

inductive Expectation
  | name
  | value
  | element
  deriving DecidableEq, Repr, Inhabited

inductive ValueKind
  | container
  | scalar
  deriving DecidableEq, Repr, Inhabited

namespace Expectation

/-- What the innermost container is. -/
def enclosing : List Expectation → Enclosing
  | [] => .root
  | .name :: _ => .object
  | .value :: _ => .object
  | .element :: _ => .array

/-- The expectations after a value. -/
def admitValue (kind : ValueKind) (activity : Activity) :
    List Expectation → Except Violation (List Expectation)
  | [] =>
    match kind with
    | .container => .ok []
    | .scalar => .error (.scalarAtRoot activity)
  | .name :: _ => .error (.nameExpected activity)
  | .value :: rest => .ok (.name :: rest)
  | .element :: rest => .ok (.element :: rest)

/-- The expectations after a field name. -/
def admitName : List Expectation → Except Violation (List Expectation)
  | .name :: rest => .ok (.value :: rest)
  | .value :: _ => .error .valueExpected
  | stack => .error (.nameOutsideObject (enclosing stack))

/-- The expectations after the end of an object. -/
def leaveObject : List Expectation → Except Violation (List Expectation)
  | .name :: rest => .ok rest
  | .value :: _ => .error .endBeforeValue
  | stack => .error (.endOutsideObject (enclosing stack))

/-- The expectations after the end of an array. -/
def leaveArray : List Expectation → Except Violation (List Expectation)
  | .element :: rest => .ok rest
  | stack => .error (.endOutsideArray (enclosing stack))

end Expectation

end BsonWriter
