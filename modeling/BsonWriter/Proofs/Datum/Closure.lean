import BsonWriter.Datum.Write

/-!
What the writing of a datum has from the calls it is made of. A property that the calls for
scalars and names have, and that sequences keep and a beginning with its end around them,
holds of every datum (`Composed.datum`). So does one that a beginning and an end have each for
itself (`Inherited.datum`).
-/

namespace BsonWriter

/-- What is written for the value does not depend on the options. -/
def Scalar.Fixed (value : Scalar) : Prop := ∀ options, value.primitive options = value.primitive {}

namespace Datum

/-- The calls that data are written by have the property, one after another and between the
beginning and the end of a container. -/
structure Composed (P : Action Unit → Prop) : Prop where
  nothing : P (pure ())
  raised : ∀ cause, P (Action.raise cause)
  followed : ∀ {a b : Action Unit}, P a → P b → P (a >>= fun _ => b)
  named : ∀ name, P (Action.fieldName name)
  enclosed : ∀ {inner : Action Unit} (shape : Shape), P inner → P (do
    Action.beginContainer .direct shape
    inner
    Action.endContainer shape)
  written : ∀ {value : Scalar}, value.Fixed → P (Action.write .direct value)

theorem fixed_integerScalar (v : TypedInteger) : (integerScalar v).Fixed := by
  obtain ⟨type, value, -, -⟩ := v
  intro options
  cases type with
  | nat64 =>
    dsimp only [integerScalar]
    split <;> rfl
  | int8 | int16 | int32 | int64 | int128 | nat8 | nat16 | nat32 | nat128 => rfl

namespace Composed

variable {P : Action Unit → Prop} (h : Composed P)

include h

theorem writesInteger (reading : Reading) (v : TypedInteger) : P (writeInteger reading v) := by
  unfold writeInteger
  split
  · exact h.written fun _ => rfl
  · exact h.written (fixed_integerScalar v)

theorem writesText (reading : Reading) (s : String) : P (writeText reading s) := by
  unfold writeText
  split
  · split
    · exact h.written fun _ => rfl
    · exact h.raised _
  · exact h.written fun _ => rfl

theorem writesKey (d : Datum) : P d.writeKey := by
  unfold writeKey
  split
  · exact h.named _
  · exact h.raised _

/-- A document of one field. -/
theorem alternative {inner : Action Unit} (hi : P inner) (name : String) : P (do
    Action.beginDocument
    Action.fieldName name
    inner
    Action.endDocument) := by
  have hd := h.enclosed .document (h.followed (h.named name) hi)
  rw [bind_assoc] at hd
  exact hd

mutual

theorem datum (reading : Reading) : (d : Datum) → P (d.write reading)
  | boolean _ | single _ | double _ | bytes _ | empty _ | audience => h.written fun _ => rfl
  | integer v => h.writesInteger reading v
  | character c => h.writesText reading _
  | text s => h.writesText reading s
  | choice name => h.writesText reading name
  | refusal _ => h.raised _
  | present d => by
    rw [write]
    exact datum reading d
  | wrapper name d => by
    rw [write]
    exact datum _ d
  | tagged _ name d => by
    rw [write]
    exact h.alternative (datum .plain d) name
  | sequence _ elements => by
    rw [write]
    exact h.enclosed .array (items elements)
  | taggedSequence _ name elements => by
    rw [write]
    have ha := h.alternative (h.enclosed .array (items elements)) name
    simp only [bind_assoc] at ha
    exact ha
  | map entries => by
    rw [write]
    split
    · exact steps entries
    · exact h.enclosed .document (steps entries)
  | record _ members => by
    rw [write]
    split
    · exact fields members
    · exact h.enclosed .document (fields members)
  | taggedRecord _ name members => by
    rw [write]
    have hd := h.alternative (h.enclosed .document (fields members)) name
    simp only [bind_assoc] at hd
    exact hd

theorem items : (elements : List Datum) → P (writeItems elements)
  | [] => h.nothing
  | d :: rest => by
    rw [writeItems]
    exact h.followed (datum .plain d) (items rest)

theorem steps : (entries : List (MapStep × Datum)) → P (writeSteps entries)
  | [] => h.nothing
  | (.key, d) :: rest => by
    rw [writeSteps]
    exact h.followed (h.writesKey d) (steps rest)
  | (.value, d) :: rest => by
    rw [writeSteps]
    exact h.followed (datum .plain d) (steps rest)

theorem fields : (members : List (String × Datum)) → P (writeFields members)
  | [] => h.nothing
  | (name, d) :: rest => by
    rw [writeFields]
    exact h.followed (h.named name) <| h.followed (datum .plain d) (fields rest)

end

end Composed

/-- The calls that data are written by have the property, and so has one after another. -/
structure Inherited (P : Action Unit → Prop) : Prop where
  nothing : P (pure ())
  raised : ∀ cause, P (Action.raise cause)
  followed : ∀ {a b : Action Unit}, P a → P b → P (a >>= fun _ => b)
  named : ∀ name, P (Action.fieldName name)
  began : ∀ shape, P (Action.beginContainer .direct shape)
  ended : ∀ shape, P (Action.endContainer shape)
  written : ∀ value, P (Action.write .direct value)

theorem Inherited.composed {P : Action Unit → Prop} (h : Inherited P) : Composed P where
  nothing := h.nothing
  raised := h.raised
  followed := h.followed
  named := h.named
  enclosed shape hi := h.followed (h.began shape) (h.followed hi (h.ended shape))
  written _ := h.written _

theorem Inherited.datum {P : Action Unit → Prop} (h : Inherited P) (reading : Reading) (d : Datum) :
    P (d.write reading) := h.composed.datum reading d

end Datum

end BsonWriter
