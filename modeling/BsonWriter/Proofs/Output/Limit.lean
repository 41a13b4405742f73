import BsonWriter.Proofs.Output.Delivery

/-!
What a sink with a limit takes. However many bytes it takes at once and however often it is
interrupted, it receives what is handed over up to its limit and nothing beyond
(`handOver_limited`). Handing over fails only where it is full, and once full it stays as it
is, so what was handed over before is never followed by anything else.
-/

namespace BsonWriter.Sink

/-- What of a byte string has a place in the sink: its first `limit` bytes, if it has one. -/
def kept (s : Sink) (bs : Bytes) : Bytes :=
  match s.limit with
  | none => bs
  | some limit => bs.take limit

theorem kept_prefix (s : Sink) (bs : Bytes) : s.kept bs <+: bs := by
  unfold kept
  cases s.limit with
  | none => exact List.prefix_rfl
  | some limit => exact List.take_prefix limit bs

/-- What a sink can become by offers and flushes. It takes something of every offer unless
it is full, and it never holds more than it has place for. -/
structure StateOf (s₀ s : Sink) : Prop where
  limit : s.limit = s₀.limit
  chunk : s.chunk = s₀.chunk
  flushFails : s.flushFails = s₀.flushFails
  hungry : s₀.chunk ≠ some 0
  fits : s₀.kept s.held = s.held

namespace StateOf

variable {s₀ s : Sink}

theorem length_le (h : s₀.StateOf s) {limit : Nat} (hl : s.limit = some limit) :
    s.held.length ≤ limit := by
  rw [← h.fits, kept, ← h.limit, hl, List.length_take]
  exact Nat.min_le_left ..

/-- A full sink has place for no more than it holds. -/
theorem kept_of_full (h : s₀.StateOf s) (hf : s.isFull = true) (bs : Bytes) :
    s₀.kept (s.held ++ bs) = s.held := by
  unfold isFull at hf
  cases hl : s.limit with
  | none => rw [hl] at hf; cases hf
  | some limit =>
    rw [hl, Option.any_some, decide_eq_true_eq] at hf
    rw [kept, ← h.limit, hl, ← Nat.le_antisymm (h.length_le hl) hf]
    exact List.take_left

theorem counted (h : s₀.StateOf s) (interrupts offers flushes : Nat) :
    s₀.StateOf { s with interrupts, offers, flushes } :=
  ⟨h.limit, h.chunk, h.flushFails, h.hungry, h.fits⟩

theorem flush (h : s₀.StateOf s) : s₀.StateOf s.flush.2 :=
  h.counted s.interrupts s.offers (s.flushes + 1)

/-- A sink that is not full takes a byte of what it is offered, and all it takes has place. -/
theorem appetite_pos (h : s₀.StateOf s) (hf : s.isFull = false) (count : Nat) :
    ∃ n, s.appetite (count + 1) = n + 1 ∧ n ≤ count ∧
      ∀ limit, s.limit = some limit → s.held.length + (n + 1) ≤ limit := by
  have hchunk := h.hungry
  rw [← h.chunk] at hchunk
  have hle := appetite_le s (count + 1)
  have hpos : 0 < s.appetite (count + 1) ∧
      ∀ limit, s.limit = some limit → s.appetite (count + 1) ≤ limit - s.held.length := by
    unfold isFull at hf
    unfold appetite
    cases hl : s.limit with
    | none =>
      refine ⟨?_, nofun⟩
      cases hc : s.chunk with
      | none => exact Nat.succ_pos count
      | some chunk =>
        rw [hc] at hchunk
        have hne : chunk ≠ 0 := fun hz => hchunk (congrArg some hz)
        dsimp only
        omega
    | some limit =>
      rw [hl, Option.any_some, decide_eq_false_iff_not] at hf
      refine ⟨?_, fun limit' he => ?_⟩
      · cases hc : s.chunk with
        | none => dsimp only; omega
        | some chunk =>
          rw [hc] at hchunk
          have hne : chunk ≠ 0 := fun hz => hchunk (congrArg some hz)
          dsimp only
          omega
      · rw [← Option.some.inj he]
        exact Nat.min_le_right ..
  refine ⟨s.appetite (count + 1) - 1, by omega, by omega, fun limit hl => ?_⟩
  have hlim := hpos.2 limit hl
  omega

/-- The answers to an offer: an interrupt, of which there is then one less; none of a full
sink; and the first bytes of what is offered. -/
theorem offer_cases (h : s₀.StateOf s) (b : UInt8) (bs : Bytes) :
    s₀.StateOf (s.offer (b :: bs)).2 ∧
      (((s.offer (b :: bs)).1 = .interrupted ∧ (s.offer (b :: bs)).2.held = s.held ∧
          (s.offer (b :: bs)).2.interrupts + 1 = s.interrupts) ∨
        (((s.offer (b :: bs)).1 = .broken ∨ (s.offer (b :: bs)).1 = .took 0) ∧
          (s.offer (b :: bs)).2.held = s.held ∧ (s.offer (b :: bs)).2.isFull = true) ∨
        ∃ n ≤ bs.length, (s.offer (b :: bs)).1 = .took (n + 1) ∧
          (s.offer (b :: bs)).2.held = s.held ++ (b :: bs).take (n + 1) ∧
          (s.offer (b :: bs)).2.interrupts = s.interrupts) := by
  have hcount := h.counted s.interrupts (s.offers + 1) s.flushes
  unfold offer
  dsimp only
  split
  · exact ⟨h.counted (s.interrupts - 1) (s.offers + 1) s.flushes, .inl ⟨rfl, rfl, by
      dsimp only
      omega⟩⟩
  · split
    · rename_i hf
      split
      · exact ⟨hcount, .inr (.inl ⟨.inr rfl, rfl, hf⟩)⟩
      · exact ⟨hcount, .inr (.inl ⟨.inl rfl, rfl, hf⟩)⟩
    · rename_i hf
      obtain ⟨n, hn, hle, hlimit⟩ := hcount.appetite_pos (Bool.not_eq_true _ ▸ hf) bs.length
      rw [List.length_cons, hn]
      refine ⟨⟨h.limit, h.chunk, h.flushFails, h.hungry, ?_⟩, .inr (.inr ⟨n, hle, rfl, rfl, rfl⟩)⟩
      unfold kept
      cases hl : s₀.limit with
      | none => rfl
      | some limit =>
        refine List.take_of_length_le ?_
        have hle' := hlimit limit (h.limit.trans hl)
        rw [List.length_append, List.length_take]
        dsimp only at hle' ⊢
        omega

end StateOf

theorem offerAll_limited {s₀ : Sink} (rounds : Nat) (s : Sink) (bs : Bytes) (h : s₀.StateOf s)
    (hr : s.interrupts + bs.length ≤ rounds) :
    s₀.StateOf (offerAll rounds s bs).2 ∧
      (offerAll rounds s bs).2.held = s₀.kept (s.held ++ bs) ∧
      ((∃ fault, (offerAll rounds s bs).1 = .error fault) →
        (offerAll rounds s bs).2.isFull = true) := by
  fun_induction offerAll rounds s bs with
  | case1 s =>
    refine ⟨h, ?_, ?_⟩
    · rw [List.append_nil, h.fits]
    · rintro ⟨fault, hf⟩
      cases hf
  | case2 s bs hne =>
    cases bs with
    | nil => exact absurd rfl hne
    | cons => simp only [List.length_cons] at hr; omega
  | case3 rounds s b bs s' ho ih =>
    obtain ⟨hs, ⟨-, hheld, hi⟩ | ⟨hreply | hreply, -⟩ | ⟨n, -, hreply, -⟩⟩ := h.offer_cases b bs
    · rw [ho] at hs hheld hi
      obtain ⟨hst, hk, hf⟩ := ih hs (by dsimp only at hi; omega)
      exact ⟨hst, by rw [hk, hheld], hf⟩
    · rw [ho] at hreply; cases hreply
    · rw [ho] at hreply; cases hreply
    · rw [ho] at hreply; cases hreply
  | case4 rounds s b bs s' ho | case5 rounds s b bs s' ho =>
    obtain ⟨hs, ⟨hreply, -⟩ | ⟨-, hheld, hf⟩ | ⟨n, -, hreply, -⟩⟩ := h.offer_cases b bs
    · rw [ho] at hreply; cases hreply
    · rw [ho] at hs hheld hf
      exact ⟨hs, by rw [← hheld, hs.kept_of_full hf], fun _ => hf⟩
    · rw [ho] at hreply; cases hreply
  | case6 rounds s b bs n s' ho ih =>
    obtain ⟨hs, ⟨hreply, -⟩ | ⟨hreply | hreply, -⟩ | ⟨m, hle, hreply, hheld, hi⟩⟩ :=
      h.offer_cases b bs
    · rw [ho] at hreply; cases hreply
    · rw [ho] at hreply; cases hreply
    · rw [ho] at hreply; cases hreply
    · rw [ho] at hs hreply hheld hi
      obtain rfl : n = m := Nat.succ.inj (Reply.took.inj hreply)
      have hrounds : s'.interrupts + (bs.drop n).length ≤ rounds := by
        dsimp only at hi
        rw [List.length_drop]
        simp only [List.length_cons] at hr
        omega
      obtain ⟨hst, hk, hf⟩ := ih hs hrounds
      refine ⟨hst, ?_, hf⟩
      dsimp only at hheld
      rw [hk, hheld, List.append_assoc, List.take_succ_cons, List.cons_append,
        List.take_append_drop]

/-- Of what is handed over, the sink receives what it has place for, and it fails only where
it is full. -/
theorem handOver_limited {s₀ s : Sink} (h : s₀.StateOf s) (bs : Bytes) :
    s₀.StateOf (s.handOver bs).2 ∧ (s.handOver bs).2.held = s₀.kept (s.held ++ bs) ∧
      ((∃ fault, (s.handOver bs).1 = .error fault) → (s.handOver bs).2.isFull = true) :=
  offerAll_limited _ s bs h (Nat.le_refl _)

/-- A sink without a limit takes every byte string. -/
theorem handOver_of_unlimited {s₀ s : Sink} (h : s₀.StateOf s) (hl : s₀.limit = none)
    (bs : Bytes) :
    ∃ s', s₀.StateOf s' ∧ s.handOver bs = (.ok (), s') ∧ s'.held = s.held ++ bs := by
  obtain ⟨hstate, -, hfull⟩ := handOver_limited h bs
  have hroom : (s.handOver bs).2.isFull = false := by
    rw [isFull, hstate.limit, hl]
    rfl
  cases hr : (s.handOver bs).1 with
  | error fault => exact absurd (hfull ⟨fault, hr⟩) (by rw [hroom]; exact Bool.false_ne_true)
  | ok u => exact ⟨_, hstate, Prod.ext hr rfl, handOver_of_ok (Prod.ext hr rfl)⟩

end BsonWriter.Sink
