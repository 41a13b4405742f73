import BsonWriter.Number.Integer

/-!
Decimal texts. The digits of a number are digits, so no null character is among them, and
the text of an integer reads back as the integer (`Integer.parse?_text`).
-/

namespace BsonWriter

theorem isDigit_of_mem_repr {n : Nat} {c : Char} (h : c ∈ n.repr.toList) : c.isDigit = true := by
  rw [Nat.toList_repr] at h
  exact Nat.isDigit_of_mem_toDigits (by decide) (by decide) h

/-- Digits are no null characters. -/
theorem notMem_repr (n : Nat) : '\x00' ∉ n.repr.toList := by
  intro h
  have hdigit := isDigit_of_mem_repr h
  revert hdigit
  decide

theorem repr_eq_cons (n : Nat) : ∃ c cs, n.repr.toList = c :: cs ∧ c.isDigit = true := by
  cases h : n.repr.toList with
  | nil =>
    rw [Nat.toList_repr] at h
    exact absurd h Nat.toDigits_ne_nil
  | cons c cs =>
    refine ⟨c, cs, rfl, isDigit_of_mem_repr (n := n) ?_⟩
    rw [h]
    exact List.mem_cons_self

namespace Integer

theorem foldl_digits {cs : List Char} (h : ∀ c ∈ cs, c.isDigit = true) (n : Nat) :
    cs.foldl (fun n c => n.bind fun n =>
      if c.isDigit then some (10 * n + (c.toNat - 48)) else none) (some n) =
      some (Nat.ofDigitChars 10 cs n) := by
  induction cs generalizing n with
  | nil => rfl
  | cons c cs ih =>
    rw [List.foldl_cons, Option.bind_some, if_pos (h c List.mem_cons_self),
      ih (fun d hd => h d (List.mem_cons_of_mem _ hd)), Nat.ofDigitChars_cons]
    rfl

theorem ofDigits?_repr (n : Nat) : ofDigits? n.repr.toList = some n := by
  have hkept : n.repr.toList.filter (· != '_') = n.repr.toList := by
    refine List.filter_eq_self.mpr fun c hc => ?_
    have hd := isDigit_of_mem_repr hc
    rw [bne_iff_ne]
    rintro rfl
    cases hd
  rw [ofDigits?, hkept, foldl_digits fun c hc => isDigit_of_mem_repr hc, Nat.toList_repr,
    Nat.ofDigitChars_ten_toDigits]

theorem ofChars?_repr (n : Nat) : ofChars? n.repr.toList = some n := by
  obtain ⟨c, cs, hcs, hc⟩ := repr_eq_cons n
  have hsign : splitSign n.repr.toList = (false, n.repr.toList) := by
    rw [hcs, splitSign.eq_def]
    split
    · rename_i h
      obtain ⟨rfl, -⟩ := List.cons.inj h
      cases hc
    · rename_i h
      obtain ⟨rfl, -⟩ := List.cons.inj h
      cases hc
    · rfl
  rw [ofChars?, hsign]
  dsimp only
  rw [ofDigits?_repr, hcs]
  rfl

/-- The text of an integer reads back as the integer. -/
theorem parse?_text (v : Int) : parse? (text v) = some v := by
  unfold parse? text
  by_cases hv : v < 0
  · obtain ⟨c, cs, hcs, -⟩ := repr_eq_cons v.natAbs
    rw [if_pos hv, String.toList_append, show "-".toList = ['-'] from rfl, List.singleton_append,
      ofChars?, splitSign]
    dsimp only
    rw [ofDigits?_repr, hcs]
    refine congrArg some ?_
    show -(v.natAbs : Int) = v
    omega
  · rw [if_neg hv, String.empty_append, ofChars?_repr]
    refine congrArg some ?_
    omega

end Integer

end BsonWriter
