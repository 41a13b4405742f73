import BsonWriter.Output.Buffer

/-!
The bytes of a buffer by their offsets in the session. Appending keeps every
slice that is there, and overwriting changes the slice it is given and no slice
beside it. `Holds` says that given bytes are here at an offset.
-/

namespace BsonWriter.Buffer

/-- The `count` bytes from an offset on that has not left. -/
def slice (b : Buffer) (offset count : Nat) : Bytes := (b.held.drop (offset - b.gone)).take count

/-- The bytes from an offset on that has not left. -/
def since (b : Buffer) (offset : Nat) : Bytes := b.held.drop (offset - b.gone)

@[simp] theorem gone_append (b : Buffer) (bs : Bytes) : (b.append bs).gone = b.gone := rfl

@[simp] theorem held_append (b : Buffer) (bs : Bytes) : (b.append bs).held = b.held ++ bs := rfl

@[simp] theorem append_append (b : Buffer) (bs cs : Bytes) :
    (b.append bs).append cs = b.append (bs ++ cs) := by
  simp [append]

@[simp] theorem append_nil (b : Buffer) : b.append [] = b := by simp [append]

theorem gone_le_size (b : Buffer) : b.gone ≤ b.size := Nat.le_add_right ..

/-! ## Appending -/

theorem size_le_append (b : Buffer) (bs : Bytes) : b.size ≤ (b.append bs).size := by
  rw [size_append]
  exact Nat.le_add_right ..

theorem slice_append_of_le {b : Buffer} {offset count : Nat} (hg : b.gone ≤ offset)
    (h : offset + count ≤ b.size) (bs : Bytes) :
    (b.append bs).slice offset count = b.slice offset count := by
  have hl : offset - b.gone + count ≤ b.held.length := by
    unfold size at h
    omega
  simp only [slice, gone_append, held_append]
  rw [List.drop_append_of_le_length (by omega), List.take_append_of_le_length (by simp; omega)]

theorem slice_append_self (b : Buffer) (bs : Bytes) :
    (b.append bs).slice b.size bs.length = bs := by
  simp [slice, size]

theorem since_append_self (b : Buffer) (bs : Bytes) : (b.append bs).since b.size = bs := by
  simp [since, size]

theorem since_eq_slice_append (b : Buffer) {offset : Nat} (hg : b.gone ≤ offset) (count : Nat) :
    b.since offset = b.slice offset count ++ b.since (offset + count) := by
  rw [since, slice, since, show offset + count - b.gone = offset - b.gone + count by omega,
    ← List.drop_drop, List.take_append_drop]

theorem length_since {b : Buffer} {offset : Nat} (hg : b.gone ≤ offset) :
    (b.since offset).length = b.size - offset := by
  simp only [since, List.length_drop, size]
  omega

theorem slice_add (b : Buffer) {offset : Nat} (hg : b.gone ≤ offset) (m n : Nat) :
    b.slice offset (m + n) = b.slice offset m ++ b.slice (offset + m) n := by
  rw [slice, List.take_add, List.drop_drop, slice, slice,
    show offset - b.gone + m = offset + m - b.gone by omega]

theorem length_slice {b : Buffer} {offset count : Nat} (hg : b.gone ≤ offset)
    (h : offset + count ≤ b.size) : (b.slice offset count).length = count := by
  unfold size at h
  simp only [slice, List.length_take, List.length_drop]
  omega

/-! ## Overwriting -/

theorem length_overwrite {held bs : Bytes} {start : Nat} (h : start + bs.length ≤ held.length) :
    (overwrite held start bs).length = held.length := by
  simp only [overwrite, List.length_append, List.length_take, List.length_drop]
  omega

theorem getElem?_overwrite {held bs : Bytes} {start : Nat} (h : start + bs.length ≤ held.length)
    (i : Nat) : (overwrite held start bs)[i]? =
      if start ≤ i ∧ i < start + bs.length then bs[i - start]? else held[i]? := by
  have hs : (held.take start).length = start := by simp; omega
  unfold overwrite
  split
  · rename_i hi
    rw [List.append_assoc, List.getElem?_append_right (by omega), hs,
      List.getElem?_append_left (by omega)]
  · rename_i hi
    by_cases hlt : i < start
    · rw [List.append_assoc, List.getElem?_append_left (by omega), List.getElem?_take_of_lt hlt]
    · rw [List.getElem?_append_right (by simp; omega), List.getElem?_drop]
      congr 1
      simp only [List.length_append, hs]
      omega

theorem patch_eq_ok_iff {b c : Buffer} {offset : Nat} {bs : Bytes} :
    b.patch offset bs = .ok c ↔ b.gone ≤ offset ∧ offset + bs.length ≤ b.size ∧
      c = { b with held := overwrite b.held (offset - b.gone) bs } := by
  unfold patch
  split
  · simp; omega
  · split
    · simp; omega
    · simp only [Except.ok.injEq, eq_comm (a := c)]
      exact ⟨fun h => ⟨by omega, by omega, h⟩, fun h => h.2.2⟩

/-- A patch is refused if it begins in front of the bytes that are here, even if it ends among
them, and if it ends behind them. -/
theorem patch_eq_error_iff {b : Buffer} {offset : Nat} {bs : Bytes} {cause : Cause} :
    b.patch offset bs = .error cause ↔
      (offset < b.gone ∧ cause = .alreadyFlushed offset) ∨
      (b.gone ≤ offset ∧ b.size < offset + bs.length ∧
        cause = .outOfOrder (.patchPastEnd bs.length offset b.size)) := by
  unfold patch
  split
  · simp only [Except.error.injEq, eq_comm (a := cause)]
    exact ⟨fun h => .inl ⟨by assumption, h⟩, fun h => h.elim And.right fun h => by omega⟩
  · split
    · simp only [Except.error.injEq, eq_comm (a := cause)]
      exact ⟨fun h => .inr ⟨by omega, by assumption, h⟩, fun h => h.elim (by omega) (·.2.2)⟩
    · exact iff_of_false nofun (by omega)

theorem patch_of_gone {b : Buffer} {offset : Nat} (h : offset < b.gone) (bs : Bytes) :
    b.patch offset bs = .error (.alreadyFlushed offset) :=
  patch_eq_error_iff.mpr (.inl ⟨h, rfl⟩)

theorem gone_of_patch {b c : Buffer} {offset : Nat} {bs : Bytes} (h : b.patch offset bs = .ok c) :
    c.gone = b.gone := by
  obtain ⟨-, -, rfl⟩ := patch_eq_ok_iff.mp h
  rfl

theorem getElem?_slice (b : Buffer) (offset count i : Nat) :
    (b.slice offset count)[i]? = if i < count then b.held[offset - b.gone + i]? else none := by
  simp only [slice, List.getElem?_take, List.getElem?_drop]

/-- Overwriting leaves the bytes beside it alone. -/
theorem slice_patch_of_disjoint {b c : Buffer} {offset other count : Nat} {bs : Bytes}
    (h : b.patch offset bs = .ok c) (hg : b.gone ≤ other)
    (hd : offset + bs.length ≤ other ∨ other + count ≤ offset) :
    c.slice other count = b.slice other count := by
  obtain ⟨hgo, hle, rfl⟩ := patch_eq_ok_iff.mp h
  unfold size at hle
  apply List.ext_getElem?
  intro i
  rw [getElem?_slice, getElem?_slice]
  split
  · dsimp only
    rw [getElem?_overwrite (by omega), if_neg (by omega)]
  · rfl

/-- Overwriting puts the new bytes at their place. -/
theorem slice_patch_self {b c : Buffer} {offset : Nat} {bs : Bytes}
    (h : b.patch offset bs = .ok c) : c.slice offset bs.length = bs := by
  obtain ⟨hgo, hle, rfl⟩ := patch_eq_ok_iff.mp h
  unfold size at hle
  apply List.ext_getElem?
  intro i
  rw [getElem?_slice]
  split
  · dsimp only
    rw [getElem?_overwrite (by omega), if_pos (by omega)]
    congr 1
    omega
  · rw [List.getElem?_eq_none (by omega)]

theorem patch_of_le {b : Buffer} {offset : Nat} {bs : Bytes} (hg : b.gone ≤ offset)
    (h : offset + bs.length ≤ b.size) : ∃ c, b.patch offset bs = .ok c :=
  ⟨_, patch_eq_ok_iff.mpr ⟨hg, h, rfl⟩⟩

/-- Overwriting behind bytes that were there before. -/
theorem overwrite_append (front held bs : Bytes) (start : Nat) :
    overwrite (front ++ held) (front.length + start) bs = front ++ overwrite held start bs := by
  unfold overwrite
  rw [List.take_length_add_append, Nat.add_assoc, List.drop_length_add_append]
  simp only [List.append_assoc]

/-- A patch within what has been appended. -/
theorem patch_append_eq_ok_iff {b c : Buffer} {held bs : Bytes} {start : Nat} :
    (b.append held).patch (b.size + start) bs = .ok c ↔
      start + bs.length ≤ held.length ∧ c = b.append (overwrite held start bs) := by
  have hoffset : b.size + start - b.gone = b.held.length + start := by
    unfold size
    omega
  have hgone := b.gone_le_size
  rw [patch_eq_ok_iff, gone_append, held_append, hoffset, overwrite_append, size_append]
  constructor
  · rintro ⟨-, hle, rfl⟩
    exact ⟨by omega, rfl⟩
  · rintro ⟨hle, rfl⟩
    exact ⟨by omega, by omega, rfl⟩

/-- A patch of what has just been appended. -/
theorem patch_append (b : Buffer) {old new : Bytes} (h : new.length = old.length) (rest : Bytes) :
    (b.append (old ++ rest)).patch b.size new = .ok (b.append (new ++ rest)) := by
  have hp := @patch_append_eq_ok_iff b (b.append (new ++ rest)) (old ++ rest) new 0
  refine hp.mpr ⟨by rw [List.length_append]; omega, ?_⟩
  simp [overwrite, h]

/-! ## Bytes that leave -/

@[simp] theorem gone_discard (b : Buffer) (spare : Nat) : (b.discard spare).gone = b.size := rfl

@[simp] theorem held_discard (b : Buffer) (spare : Nat) : (b.discard spare).held = [] := rfl

/-! ## Bytes that are here -/

/-- The bytes have not left, and stand at the offset. -/
def Holds (b : Buffer) (offset : Nat) (bs : Bytes) : Prop :=
  b.gone ≤ offset ∧ offset + bs.length ≤ b.size ∧ b.slice offset bs.length = bs

theorem holds_append_self (b : Buffer) (bs : Bytes) : (b.append bs).Holds b.size bs :=
  ⟨b.gone_le_size, Nat.le_of_eq (size_append b bs).symm, slice_append_self b bs⟩

theorem holds_patch_self {b c : Buffer} {offset : Nat} {bs : Bytes}
    (h : b.patch offset bs = .ok c) : c.Holds offset bs := by
  have hp := patch_eq_ok_iff.mp h
  exact ⟨by rw [gone_of_patch h]; exact hp.1, by rw [size_of_patch h]; exact hp.2.1,
    slice_patch_self h⟩

theorem holds_since {b : Buffer} {offset : Nat} (hg : b.gone ≤ offset) (hs : offset ≤ b.size) :
    b.Holds offset (b.since offset) := by
  have hl := length_since hg
  refine ⟨hg, by omega, ?_⟩
  rw [slice, since, List.take_length]

namespace Holds

variable {b c : Buffer} {offset : Nat} {bs cs : Bytes}

theorem append (h : b.Holds offset bs) (cs : Bytes) : (b.append cs).Holds offset bs := by
  obtain ⟨hg, hs, he⟩ := h
  exact ⟨hg, by rw [size_append]; omega, by rw [slice_append_of_le hg hs, he]⟩

theorem unique (h : b.Holds offset bs) (h' : b.Holds offset cs) (hl : bs.length = cs.length) :
    bs = cs := by
  rw [← h.2.2, hl, h'.2.2]

theorem getElem? {x : UInt8} (h : b.Holds offset [x]) : b.held[offset - b.gone]? = some x := by
  have hx := getElem?_slice b offset 1 0
  rw [show b.slice offset 1 = [x] from h.2.2] at hx
  simpa using hx.symm

/-- Overwriting keeps what stands beside it. -/
theorem patch (h : b.Holds offset bs) {other : Nat} {new : Bytes}
    (hp : b.patch other new = .ok c)
    (hd : other + new.length ≤ offset ∨ offset + bs.length ≤ other) : c.Holds offset bs := by
  obtain ⟨hg, hs, he⟩ := h
  exact ⟨by rw [gone_of_patch hp]; exact hg, by rw [size_of_patch hp]; exact hs,
    by rw [slice_patch_of_disjoint hp hg hd, he]⟩

/-- What stands at an offset is the front of what comes from there on. -/
theorem since_eq (h : b.Holds offset bs) :
    b.since offset = bs ++ b.since (offset + bs.length) := by
  obtain ⟨hg, -, he⟩ := h
  rw [since_eq_slice_append b hg bs.length, he]

theorem append_iff : b.Holds offset (bs ++ cs) ↔
    b.Holds offset bs ∧ b.Holds (offset + bs.length) cs := by
  unfold Holds
  rw [List.length_append]
  constructor
  · rintro ⟨hg, hs, he⟩
    rw [slice_add b hg] at he
    obtain ⟨hl, hr⟩ := List.append_inj he (length_slice hg (by omega))
    exact ⟨⟨hg, by omega, hl⟩, by omega, by omega, hr⟩
  · rintro ⟨⟨hg, -, hl⟩, -, hs, hr⟩
    exact ⟨hg, by omega, by rw [slice_add b hg, hl, hr]⟩

/-- The bytes at an offset lie between what came before and what comes after. -/
theorem eq_append (h : b.Holds offset bs) : ∃ front : Buffer,
    front.gone = b.gone ∧ front.size = offset ∧
      b = front.append (bs ++ b.since (offset + bs.length)) := by
  have hsince := h.since_eq
  obtain ⟨hg, hs, -⟩ := h
  unfold size at hs
  refine ⟨{ b with held := b.held.take (offset - b.gone) }, rfl, ?_, ?_⟩
  · simp only [size, List.length_take]
    omega
  · rw [← hsince]
    simp only [Buffer.append, since, List.take_append_drop]

end Holds

end BsonWriter.Buffer
