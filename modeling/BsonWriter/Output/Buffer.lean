import BsonWriter.Error

/-!
The output of a session that has not left yet, and how much has. Offsets count
from the start of the session, so they stay valid when bytes leave. A byte can be
overwritten as long as it is still here. Whether storage is kept when the bytes in it
leave has no influence on any byte.
-/

namespace BsonWriter

/-- `gone` bytes have left, `held` come after them. There is storage from before for
`spare` bytes at least, and `keeps` says whether storage stays when bytes are handed over. -/
structure Buffer where
  gone : Nat := 0
  held : Bytes := []
  keeps : Bool := false
  spare : Nat := 0
  deriving DecidableEq, Repr, Inhabited

namespace Buffer

/-- A buffer on storage from an earlier session, whose content does not matter. -/
def onStorage (storage : Bytes) (keeps : Bool) : Buffer := { keeps, spare := storage.length }

/-- The number of bytes that need no new storage, as far as is known. -/
def room (b : Buffer) : Nat := max b.spare b.held.length

/-- The offset of the next byte. -/
def size (b : Buffer) : Nat := b.gone + b.held.length

def append (b : Buffer) (bs : Bytes) : Buffer := { b with held := b.held ++ bs }

/-- Replaces the bytes from index `start` on by `bs`. -/
def overwrite (held : Bytes) (start : Nat) (bs : Bytes) : Bytes :=
  held.take start ++ bs ++ held.drop (start + bs.length)

/-- Overwrites the bytes from an offset on; all of them must still be here. -/
def patch (b : Buffer) (offset : Nat) (bs : Bytes) : Except Cause Buffer :=
  if offset < b.gone then .error (.alreadyFlushed offset)
  else if b.size < offset + bs.length then
    .error (.outOfOrder (.patchPastEnd bs.length offset b.size))
  else .ok { b with held := overwrite b.held (offset - b.gone) bs }

/-- Gives up the bytes that are here, and all storage but for `spare` bytes. -/
def discard (b : Buffer) (spare : Nat) : Buffer := { b with gone := b.size, held := [], spare }

/-- Gives up the bytes and no storage. -/
abbrev clear (b : Buffer) : Buffer := b.discard b.room

/-- Hands the bytes to a sink. If it does not take them all, all stay here. -/
def drain (b : Buffer) (s : Sink) : Except Sink.Fault Unit × Buffer × Sink :=
  if b.held = [] then (.ok (), b, s)
  else
    match s.handOver b.held with
    | (.ok (), s) => (.ok (), if b.keeps then b.clear else b.discard 0, s)
    | (.error fault, s) => (.error fault, b, s)

@[simp] theorem size_append (b : Buffer) (bs : Bytes) :
    (b.append bs).size = b.size + bs.length := by
  simp [size, append, Nat.add_assoc]

/-- Overwriting moves no byte. -/
theorem size_of_patch {b c : Buffer} {offset : Nat} {bs : Bytes}
    (h : b.patch offset bs = .ok c) : c.size = b.size := by
  unfold patch at h
  split at h
  · cases h
  · split at h
    · cases h
    · cases h
      simp only [size, overwrite, List.length_append, List.length_take, List.length_drop] at *
      omega

@[simp] theorem size_discard (b : Buffer) (spare : Nat) : (b.discard spare).size = b.size := by
  simp [size, discard]

/-- The buffer after its bytes have been handed over. -/
abbrev drained (b : Buffer) : Buffer :=
  b.discard (if b.held = [] ∨ b.keeps = true then b.room else 0)

/-- Nothing changes in a buffer that holds nothing. -/
theorem drained_of_nil {b : Buffer} (h : b.held = []) : b.drained = b := by
  cases b
  cases h
  simp [discard, size, room]

/-- Without bytes nothing is offered either. -/
theorem drain_eq (b : Buffer) (s : Sink) : b.drain s = match s.handOver b.held with
    | (.ok (), s) => (.ok (), b.drained, s)
    | (.error fault, s) => (.error fault, b, s) := by
  unfold drain
  by_cases hnil : b.held = []
  · rw [if_pos hnil, drained_of_nil hnil, hnil, s.handOver_nil]
  · rw [if_neg hnil, drained]
    simp only [hnil, false_or]
    cases b.keeps <;> rfl

end Buffer

end BsonWriter
