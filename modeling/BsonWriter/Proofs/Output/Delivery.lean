import BsonWriter.Output.Sink

/-!
What a sink receives of a byte string that is handed over. Whatever the sink is
like, it receives a front part (`handOver_held`), and all of it if it reports
success; a sink that takes everything always does (`handOver_of_takesAll`).
-/

namespace BsonWriter.Sink

/-- The sink takes every byte string in full, in as many offers as it likes, and
can be flushed. -/
structure TakesAll (s : Sink) : Prop where
  unlimited : s.limit = none
  hungry : s.chunk ≠ some 0
  flushes : s.flushFails = false

/-! ## One offer -/

theorem appetite_le (s : Sink) (count : Nat) : s.appetite count ≤ count := by
  unfold appetite
  cases s.chunk <;> cases s.limit <;> simp only <;> omega

/-- An offer adds the bytes that it reports as taken. -/
theorem offer_held (s : Sink) (bs : Bytes) :
    (s.offer bs).2.held = match (s.offer bs).1 with
      | .took count => s.held ++ bs.take count
      | _ => s.held := by
  unfold offer
  dsimp only
  split
  · rfl
  · split
    · cases s.whenFull <;> simp
    · rfl

theorem took_le {s : Sink} {bs : Bytes} {count : Nat} (h : (s.offer bs).1 = .took count) :
    count ≤ bs.length := by
  unfold offer at h
  dsimp only at h
  split at h
  · cases h
  · split at h
    · cases hw : s.whenFull <;> simp [hw] at h
      omega
    · cases h
      exact appetite_le ..

theorem offer_takesAll {s : Sink} (hs : s.TakesAll) (bs : Bytes) : (s.offer bs).2.TakesAll := by
  obtain ⟨hl, hc, hf⟩ := hs
  unfold offer
  dsimp only
  split
  · exact ⟨hl, hc, hf⟩
  · split
    · cases s.whenFull <;> exact ⟨hl, hc, hf⟩
    · exact ⟨hl, hc, hf⟩

/-- A sink that takes everything answers an offer by an interrupt, of which it
then has one less, or takes a byte. -/
theorem offer_of_takesAll {s : Sink} (hs : s.TakesAll) (b : UInt8) (bs : Bytes) :
    ((s.offer (b :: bs)).1 = .interrupted ∧ (s.offer (b :: bs)).2.interrupts + 1 = s.interrupts) ∨
      (∃ n, (s.offer (b :: bs)).1 = .took (n + 1)) ∧
        (s.offer (b :: bs)).2.interrupts = s.interrupts := by
  obtain ⟨hl, hc, -⟩ := hs
  unfold offer
  dsimp only
  by_cases hi : 0 < s.interrupts
  · rw [if_pos hi]
    exact Or.inl ⟨rfl, by dsimp only; omega⟩
  · rw [if_neg hi, if_neg (by simp [isFull, hl])]
    have hp : ∃ n, appetite { s with offers := s.offers + 1 } (b :: bs).length = n + 1 := by
      unfold appetite
      cases h : s.chunk with
      | none => exact ⟨bs.length, by simp [hl]⟩
      | some chunk =>
        cases chunk with
        | zero => exact absurd h hc
        | succ chunk => exact ⟨min bs.length chunk, by simp [hl]⟩
    obtain ⟨n, hn⟩ := hp
    exact Or.inr ⟨⟨n, by dsimp only; rw [hn]⟩, rfl⟩

/-! ## Handing over -/

/-- A front part of the bytes arrives, and all of them if it goes well. -/
theorem offerAll_held (rounds : Nat) (s : Sink) (bs : Bytes) :
    ∃ n ≤ bs.length, (offerAll rounds s bs).2.held = s.held ++ bs.take n ∧
      ((offerAll rounds s bs).1 = .ok () → n = bs.length) := by
  fun_induction offerAll rounds s bs with
  | case1 => exact ⟨0, by simp⟩
  | case2 => exact ⟨0, by simp⟩
  | case3 rounds s b bs s' h ih =>
    have hh := offer_held s (b :: bs)
    rw [h] at hh
    obtain ⟨n, hn, hheld, hok⟩ := ih
    exact ⟨n, hn, by rw [hheld, hh], hok⟩
  | case4 rounds s b bs s' h =>
    have hh := offer_held s (b :: bs)
    rw [h] at hh
    exact ⟨0, by simp, by simpa using hh, by simp⟩
  | case5 rounds s b bs s' h =>
    have hh := offer_held s (b :: bs)
    rw [h] at hh
    exact ⟨0, by simp, by simpa using hh, by simp⟩
  | case6 rounds s b bs n s' h ih =>
    have hh := offer_held s (b :: bs)
    have hle : n + 1 ≤ (b :: bs).length := took_le (congrArg Prod.fst h)
    rw [h] at hh
    obtain ⟨m, hm, hheld, hok⟩ := ih
    simp only [List.length_cons, List.length_drop] at hle hm hok
    refine ⟨n + 1 + m, by simp only [List.length_cons]; omega, ?_, fun hr => ?_⟩
    · rw [hheld, hh, List.append_assoc, List.take_add, List.drop_succ_cons]
    · have := hok hr
      simp only [List.length_cons]
      omega

theorem offerAll_of_takesAll (rounds : Nat) (s : Sink) (bs : Bytes) (hs : s.TakesAll)
    (hr : s.interrupts + bs.length ≤ rounds) :
    (offerAll rounds s bs).1 = .ok () ∧ (offerAll rounds s bs).2.TakesAll := by
  fun_induction offerAll rounds s bs with
  | case1 => exact ⟨rfl, hs⟩
  | case2 _ bs hne =>
    cases bs with
    | nil => exact absurd rfl hne
    | cons => simp only [List.length_cons] at hr; omega
  | case3 rounds s b bs s' h ih =>
    have ht := offer_takesAll hs (b :: bs)
    have ha := offer_of_takesAll hs b bs
    rw [h] at ht ha
    obtain ⟨-, hi⟩ | ⟨⟨n, hn⟩, -⟩ := ha
    · exact ih ht (by dsimp only at hi; omega)
    · cases hn
  | case4 rounds s b bs s' h =>
    have ha := offer_of_takesAll hs b bs
    rw [h] at ha
    obtain ⟨hn, -⟩ | ⟨⟨n, hn⟩, -⟩ := ha <;> cases hn
  | case5 rounds s b bs s' h =>
    have ha := offer_of_takesAll hs b bs
    rw [h] at ha
    obtain ⟨hn, -⟩ | ⟨⟨n, hn⟩, -⟩ := ha <;> cases hn
  | case6 rounds s b bs n s' h ih =>
    have ht := offer_takesAll hs (b :: bs)
    have ha := offer_of_takesAll hs b bs
    rw [h] at ht ha
    obtain ⟨hn, -⟩ | ⟨-, hi⟩ := ha
    · cases hn
    · refine ih ht ?_
      simp only [List.length_cons, List.length_drop] at hr hi ⊢
      omega

/-- Handing over gives a sink a front part of the bytes, and all of them if it
goes well. -/
theorem handOver_held (s : Sink) (bs : Bytes) :
    ∃ n ≤ bs.length, (s.handOver bs).2.held = s.held ++ bs.take n ∧
      ((s.handOver bs).1 = .ok () → n = bs.length) :=
  offerAll_held _ s bs

theorem handOver_of_ok {s s' : Sink} {bs : Bytes} (h : s.handOver bs = (.ok (), s')) :
    s'.held = s.held ++ bs := by
  obtain ⟨n, -, hheld, hok⟩ := handOver_held s bs
  rw [h] at hheld hok
  rw [hheld, hok rfl, List.take_length]

theorem handOver_of_takesAll {s : Sink} (hs : s.TakesAll) (bs : Bytes) :
    ∃ s' : Sink, s'.TakesAll ∧ s.handOver bs = (.ok (), s') ∧ s'.held = s.held ++ bs := by
  obtain ⟨hok, ht⟩ := offerAll_of_takesAll _ s bs hs (Nat.le_refl _)
  exact ⟨(s.handOver bs).2, ht, Prod.ext hok rfl, handOver_of_ok (Prod.ext hok rfl)⟩

theorem takesAll_flush {s : Sink} (hs : s.TakesAll) : s.flush.2.TakesAll :=
  ⟨hs.unlimited, hs.hungry, hs.flushes⟩

theorem takesAll_handOver {s : Sink} (hs : s.TakesAll) (bs : Bytes) :
    (s.handOver bs).2.TakesAll :=
  (offerAll_of_takesAll _ s bs hs (Nat.le_refl _)).2

end BsonWriter.Sink
