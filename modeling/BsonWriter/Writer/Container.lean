import BsonWriter.Writer.Expectation

/-!
The documents and arrays that have begun and not ended: where the length field
of each lies, and which key the next element of an array gets. The innermost
comes first.
-/

namespace BsonWriter

inductive Shape
  | document
  | array
  deriving DecidableEq, Repr, Inhabited

def Shape.activity : Shape → Activity
  | document => .startObject
  | array => .startArray

def Shape.elementType : Shape → ElementType
  | document => .embeddedDocument
  | array => .array

/-- What a container expects when it begins. -/
def Shape.expectation : Shape → Expectation
  | document => .name
  | array => .element

/-- An open container. Only an array has a next index. -/
structure Container where
  header : Nat
  nextIndex : Option Nat
  deriving DecidableEq, Repr, Inhabited

namespace Container

def start (header : Nat) : Shape → Container
  | .document => ⟨header, none⟩
  | .array => ⟨header, some 0⟩

@[simp] theorem header_start (header : Nat) (shape : Shape) :
    (start header shape).header = header := by
  cases shape <;> rfl

def shape (c : Container) : Shape := if c.nextIndex.isSome then .array else .document

/-- The index of the next element and the containers after it, if the
innermost container is an array. -/
def nextElement : List Container → Option (Nat × List Container)
  | ⟨header, some index⟩ :: rest => some (index, ⟨header, some (index + 1)⟩ :: rest)
  | _ => none

/-- The containers stay where they are. -/
theorem header_nextElement {containers next : List Container} {index : Nat}
    (h : nextElement containers = some (index, next)) :
    next.map header = containers.map header := by
  unfold nextElement at h
  split at h
  · cases h
    rfl
  · cases h

end Container

end BsonWriter
