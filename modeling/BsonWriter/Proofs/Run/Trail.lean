import BsonWriter.Proofs.Run.Step

/-!
A session with a record of its type bytes. Beside the session the record keeps
which type bytes have been reserved, what type the value has that took each of
them, and every byte that has reached the sink, with its offset in the output.
Nothing of this is part of the session, and no step looks at it
(`Trail.progress_run`).
-/

namespace BsonWriter

/-- A type byte that has been reserved, and the type of the value that has taken
it. -/
structure TypeByte where
  offset : Nat
  type : Option ElementType := none
  deriving DecidableEq, Repr

namespace TypeByte

/-- What stands in its place. -/
def shown (b : TypeByte) : UInt8 :=
  match b.type with
  | none => 0
  | some type => type.tag

/-- A name that was written from one state to another came after a type byte. -/
def reserve (reserved : List TypeByte) (w w' : Writer) : List TypeByte :=
  if w.buffer.size < w'.buffer.size then reserved ++ [⟨w.buffer.size, none⟩] else reserved

/-- A value of the given type has taken a type byte. -/
def assign (reserved : List TypeByte) (slot : Option Nat) (type : ElementType) : List TypeByte :=
  reserved.map fun b => if slot = some b.offset then { b with type := some type } else b

/-- A value of the given type takes the current position. -/
def take (reserved : List TypeByte) (w : Writer) (kind : ValueKind) (activity : Activity)
    (type : ElementType) : List TypeByte :=
  match (Action.takePosition kind activity).run w with
  | .ok slot w' => assign (reserve reserved w w') slot type
  | .error _ w' => reserve reserved w w'

/-- The type bytes after a step that is made in state `w`. -/
def after (reserved : List TypeByte) (w : Writer) : Step → List TypeByte
  | .name text => reserve reserved w ((Action.fieldName text).after w)
  | .write activity value => take reserved w .scalar activity (value.primitive w.options).type
  | .begin kind activity shape => take reserved w kind activity shape.elementType
  | .drop activity => reserve reserved w ((Action.takePosition .scalar activity).after w)
  | .beginScope activity _ => take reserved w .scalar activity .javaScriptCodeWithScope
  | _ => reserved

end TypeByte

/-- A session under way with its record. `delivered` are the bytes that have reached
the sink, in order, with their offsets. -/
structure Trail where
  progress : Progress
  reserved : List TypeByte := []
  delivered : List (UInt8 × Nat) := []
  deriving DecidableEq, Repr

namespace Trail

def start (sink : Sink) (options : Options) (storage : Bytes) : Trail :=
  ⟨⟨Writer.onStorage sink options storage, []⟩, [], []⟩

abbrev writer (t : Trail) : Writer := t.progress.writer

/-- Makes a step. What reaches the sink begins with the first byte that is still
here. -/
def step (t : Trail) (step : Step) : Trail :=
  let p := step.apply t.progress
  let bs := p.writer.sink.held.drop t.writer.sink.held.length
  ⟨p, TypeByte.after t.reserved t.writer step, t.delivered ++ bs.zipIdx t.writer.buffer.gone⟩

def run (t : Trail) : List Step → Trail
  | [] => t
  | step :: rest => (t.step step).run rest

theorem progress_run (t : Trail) (steps : List Step) :
    (t.run steps).progress = Step.run t.progress steps := by
  induction steps generalizing t with
  | nil => rfl
  | cons step steps ih => exact ih (t.step step)

/-- Every type byte that has reached the sink is the tag of the value that took it. -/
def Filled (t : Trail) : Prop :=
  ∀ d ∈ t.delivered, ∀ b ∈ t.reserved, b.offset = d.2 → b.type.map ElementType.tag = some d.1

/-- Every type byte that is still here has its value. -/
def Complete (t : Trail) : Prop :=
  ∀ b ∈ t.reserved, t.writer.buffer.gone ≤ b.offset → b.type ≠ none

/-- A step that hands over whatever is here comes when nothing waits for a value:
a flush, also of a failed session, and closing one whose containers may stay open. -/
def Heeds (t : Trail) : Step → Prop
  | .flush => t.writer.phase ≠ .closed → t.Complete
  | .close => t.writer.phase = .running → t.writer.options.autoClose = false → t.Complete
  | _ => True

/-- All steps heed what waits. -/
def Careful (t : Trail) : List Step → Prop
  | [] => True
  | step :: rest => t.Heeds step ∧ (t.step step).Careful rest

instance (t : Trail) : Decidable t.Filled :=
  inferInstanceAs (Decidable (∀ d ∈ t.delivered, ∀ b ∈ t.reserved,
    b.offset = d.2 → b.type.map ElementType.tag = some d.1))

instance (t : Trail) : Decidable t.Complete :=
  inferInstanceAs (Decidable (∀ b ∈ t.reserved, t.writer.buffer.gone ≤ b.offset → b.type ≠ none))

end Trail

end BsonWriter
