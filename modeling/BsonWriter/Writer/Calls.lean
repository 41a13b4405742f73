import BsonWriter.Writer.Action
import BsonWriter.Writer.Scalar

/-!
The calls of a writing session. They walk no data structure of their own: the
caller begins and ends containers and gives names and values in depth-first
order. A value can be written directly, or through the slot of a field or of an
array element.
-/

namespace BsonWriter

/-- Where a value goes: to the current position, after a field name that is
written first, or into an array. -/
inductive Place
  | direct
  | field (name : String)
  | element
  deriving DecidableEq, Repr, Inhabited

/-- A scope document in progress: where its value starts, and how deep it is. -/
structure ScopeMark where
  start : Nat
  depth : Nat
  deriving DecidableEq, Repr, Inhabited

namespace Action

/-- Takes the type byte for a value at the current position. An element of an
array gets its index as name; a container outside of all others has no type
byte. -/
def takePosition (kind : ValueKind) (activity : Activity) : Action (Option Nat) := tracked do
  checkRunning
  advance (Expectation.admitValue kind activity)
  let w ← get
  match Container.nextElement w.containers with
  | some (index, containers) =>
    set { w with containers }
    return some (← reserve index.repr)
  | none =>
    set { w with slot := none }
    return w.slot

/-- Writes the name of a field. Exactly one value must follow. -/
def fieldName (name : String) : Action Unit := tracked do
  checkRunning
  atKey name do
    advance Expectation.admitName
    let start ← reserve name
    modify fun w => { w with slot := some start }

def checkArray : Action Unit := tracked do
  checkRunning
  unless Expectation.enclosing (← get).expectations = .array do
    raise (.outOfOrder .elementOutsideArray)

/-- Takes the type byte for a value at a place. Through a slot the value counts
as a scalar whatever it is. -/
def take (place : Place) (kind : ValueKind) (activity : Activity) : Action (Option Nat) :=
  match place with
  | .direct => takePosition kind activity
  | .field name => do
    fieldName name
    takePosition .scalar .value
  | .element => do
    checkArray
    takePosition .scalar .arrayElement

/-- Fills a type byte, if there is one. -/
def fill (slot : Option Nat) (type : ElementType) : Action Unit :=
  match slot with
  | some start => patch start [type.tag]
  | none => pure ()

/-- Fills the type byte of a value that cannot do without. -/
def fillScalar (slot : Option Nat) (type : ElementType) : Action Unit := do
  if slot.isNone then raise (.outOfOrder (.slotlessScalar type))
  fill slot type

/-! ## Containers -/

def beginContainer (place : Place) (shape : Shape) : Action Unit := do
  let slot ← take place .container shape.activity
  tracked do
    fill slot shape.elementType
    openContainer shape

def beginDocument : Action Unit := beginContainer .direct .document

def beginArray : Action Unit := beginContainer .direct .array

def endDocument : Action Unit := tracked do
  checkRunning
  advance Expectation.leaveObject
  closeContainer

def endArray : Action Unit := tracked do
  checkRunning
  advance Expectation.leaveArray
  closeContainer

def endContainer : Shape → Action Unit
  | .document => endDocument
  | .array => endArray

/-! ## Values -/

def write (place : Place) (value : Scalar) : Action Unit := do
  let slot ← take place .scalar value.activity
  tracked do
    let w ← get
    let primitive := value.primitive w.options
    fillScalar slot primitive.type
    emit (primitive.payload w.escapes)
    drainIfStreaming

/-- Takes a slot and gives it up without a value, which fails the session. -/
def abandon (place : Place) : Action Unit := do
  let _ ← take place .scalar .value
  modify Writer.fail

/-! ## Code with a scope -/

/-- Writes the code and begins the scope document. -/
def beginScope (place : Place) (code : String) : Action ScopeMark := do
  let slot ← take place .scalar .javaScript
  tracked do
    fillScalar slot .javaScriptCodeWithScope
    let start ← offset
    append (lengthField 0)
    emit (.string (← get).escapes code)
    openContainer .document
    return ⟨start, (← get).expectations.length⟩

/-- Ends the scope document, which must be the innermost container again. -/
def endScope (mark : ScopeMark) : Action Unit := tracked do
  unless (← get).expectations.length = mark.depth do raise (.outOfOrder .unbalancedScope)
  endDocument
  unless (← get).options.streaming do patchLength mark.start
  drainIfStreaming

/-- Writes code together with the scope whose fields `scope` writes. -/
def codeWithScope (place : Place) (code : String) (scope : Action Unit) : Action Unit := do
  let mark ← beginScope place code
  tracked scope
  endScope mark

/-! ## The session -/

/-- Replaces the escape table. -/
def setEscapes (table : Option EscapeTable) : Action Unit :=
  modify fun w => { w with escapes := table }

/-- Hands all buffered bytes to the sink and flushes it. A container whose
length field has left this way can no longer be ended. -/
def flush : Action Unit := tracked do
  if (← get).phase = .closed then raise (.outOfOrder .usedAfterClose)
  flushSink

/-- Ends the session: ends the open containers if so configured, and hands
everything to the sink. A failed session gives up its bytes instead, and a
closed one stays as it is. -/
def close : Action Unit := do
  let w ← get
  match w.phase with
  | .closed => pure ()
  | .failed => set { w with phase := .closed, buffer := w.buffer.clear }
  | .running =>
    if w.options.autoClose then w.containers.forM fun c => endContainer c.shape
    tracked flushSink
    modify fun w => { w with phase := .closed }

end Action

end BsonWriter
