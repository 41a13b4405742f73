import BsonWriter.Writer.Payload
import BsonWriter.Writer.State

/-!
The elementary actions of a writing session. An action that fails leaves the
state as far as it got, so bytes that were appended before the failure stay; a
tracked action that fails also ends the use of the session.
-/

namespace BsonWriter

/-- A step of a session: it ends with a result or an error, and in both cases
with the state it has reached. -/
abbrev Action := EStateM Error Writer

namespace Action

/-- Fails the session if the action fails. -/
def tracked {α : Type} (a : Action α) : Action α := fun w =>
  match a.run w with
  | .ok x w => .ok x w
  | .error e w => .error e w.fail

/-- Names the field at which an error arose. -/
def atKey {α : Type} (key : String) (a : Action α) : Action α := fun w =>
  match a.run w with
  | .ok x w => .ok x w
  | .error e w => .error { e with key := some key } w

def raise {α : Type} (cause : Cause) : Action α := throw ⟨cause, none⟩

/-- Carries an action out and forgets its error. -/
def forgive (a : Action Unit) : Action Unit := fun w =>
  match a.run w with
  | .ok () w => .ok () w
  | .error _ w => .ok () w

theorem run_tracked {α : Type} (a : Action α) (w : Writer) :
    (tracked a).run w = match a.run w with
      | .ok x w => .ok x w
      | .error e w => .error e w.fail := rfl

theorem run_forgive (a : Action Unit) (w : Writer) :
    (forgive a).run w = match a.run w with
      | .ok () w => .ok () w
      | .error _ w => .ok () w := rfl

theorem run_andThen {α β : Type} (a : Action α) (f : α → Action β) (w : Writer) :
    (a >>= f).run w = match a.run w with
      | .ok x w => (f x).run w
      | .error e w => .error e w := by
  rw [EStateM.run_bind]
  cases a.run w <;> rfl

def checkRunning : Action Unit := do
  match (← get).phase with
  | .running => pure ()
  | .failed => raise (.outOfOrder .usedAfterFailure)
  | .closed => raise (.outOfOrder .usedAfterClose)

/-! ## Output -/

def append (bs : Bytes) : Action Unit := modify fun w => { w with buffer := w.buffer.append bs }

/-- Appends what can be written of a payload, then fails if it is faulty. -/
def emit (p : Payload) : Action Unit := do
  append p.written
  match p.failure with
  | none => pure ()
  | some cause => raise cause

def offset : Action Nat := return (← get).buffer.size

def patch (offset : Nat) (bs : Bytes) : Action Unit := do
  let w ← get
  match w.buffer.patch offset bs with
  | .ok buffer => set { w with buffer }
  | .error cause => raise cause

/-- Fills the length field at `start` with the number of bytes from there on. -/
def patchLength (start : Nat) : Action Unit := do
  let length := (← offset) - start
  if length < lengthBound then patch start (lengthField length)
  else raise (.lengthOverflow length)

/-- Hands the buffered bytes to the sink. -/
def drain : Action Unit := fun w =>
  match w.buffer.drain w.sink with
  | (.ok (), buffer, sink) => .ok () { w with buffer, sink }
  | (.error fault, buffer, sink) => .error ⟨.sink fault, none⟩ { w with buffer, sink }

def drainIfStreaming : Action Unit := do
  if (← get).options.streaming then drain

def flushSink : Action Unit := do
  drain
  let w ← get
  match w.sink.flush with
  | (.ok (), sink) => set { w with sink }
  | (.error fault, sink) =>
    set { w with sink }
    raise (.sink fault)

/-! ## Structure -/

/-- Advances the expectations, or fails without a change. -/
def advance (f : List Expectation → Except Violation (List Expectation)) : Action Unit := do
  let w ← get
  match f w.expectations with
  | .ok expectations => set { w with expectations }
  | .error violation => raise (.outOfOrder violation)

/-- Writes a zero in place of a type byte and then a name, and gives the offset
of the type byte. -/
def reserve (name : String) : Action Nat := do
  let start ← offset
  append [0]
  emit (.cstring (← get).escapes name)
  return start

/-- Writes a zero length and begins a container there. -/
def openContainer (shape : Shape) : Action Unit := do
  let header ← offset
  append (lengthField 0)
  modify fun w => { w with
    containers := .start header shape :: w.containers
    expectations := shape.expectation :: w.expectations }

/-- Writes the end of the innermost container and, unless streaming, its
length. -/
def closeContainer : Action Unit := do
  let w ← get
  match w.containers with
  | [] => raise (.outOfOrder .nothingToEnd)
  | container :: rest =>
    set { w with containers := rest }
    append [endOfDocument]
    unless w.options.streaming do patchLength container.header
    drainIfStreaming

end Action

end BsonWriter
