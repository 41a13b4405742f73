import BsonWriter.Proofs.Identifier.Words

/-!
Callers that share one source of fresh ids. A caller reads the clock first and draws from the
source later, and other callers may read and draw in between, so the readings reach the source
in any order. The ids are still those of a single caller with the same readings
(`Turn.serves_run`), and the counter alone tells them apart: the k-th id carries the first
counter value plus k, which comes back after 2^32 ids and not before
(`ObjectId.drawn_distinct`).
-/

namespace BsonWriter

/-- What a caller does for a fresh id, one after the other. -/
inductive Turn
  | look (caller : Nat) (seconds : Int)
  | draw (caller : Nat)
  deriving DecidableEq, Repr

/-- A source with the clock readings of the callers that have still to draw, and the ids that
have been drawn, in order. -/
structure SharedSource where
  source : ObjectId.Source
  readings : Nat → Option Int := fun _ => none
  drawn : List ObjectId := []

namespace Turn

/-- Makes a turn. A caller that has no reading does not draw. -/
def apply (p : SharedSource) : Turn → SharedSource
  | look caller seconds => { p with readings := Function.update p.readings caller seconds }
  | draw caller =>
    match p.readings caller with
    | none => p
    | some seconds =>
      { source := (p.source.draw seconds).2
        readings := Function.update p.readings caller none
        drawn := p.drawn ++ [(p.source.draw seconds).1] }

def run (p : SharedSource) (turns : List Turn) : SharedSource := turns.foldl apply p

end Turn

namespace ObjectId

namespace Source

/-- The source after so many ids. -/
def after (source : Source) (count : Nat) : Source :=
  { source with next := source.next + Int32.ofNat count }

variable {source : Source}

@[simp] theorem after_zero (source : Source) : source.after 0 = source := by
  simp [after]

theorem draw_after (source : Source) (count : Nat) (seconds : Int) :
    ((source.after count).draw seconds).2 = source.after (count + 1) := by
  simp only [draw, after, Int32.ofNat_add, Int32.add_assoc]
  rfl

theorem after_succ (source : Source) (count : Nat) (seconds : Int) :
    (source.draw seconds).2.after count = source.after (count + 1) := by
  simp only [draw, after, Int32.ofNat_add, Int32.add_assoc, Int32.add_comm 1]
  rfl

/-- One more reading gives one more id. -/
theorem drawAll_concat (source : Source) (clocks : List Int) (seconds : Int) :
    source.drawAll (clocks ++ [seconds]) =
      source.drawAll clocks ++ [((source.after clocks.length).draw seconds).1] := by
  induction clocks generalizing source with
  | nil => rw [List.length_nil, after_zero]; rfl
  | cons first clocks ih =>
    rw [List.cons_append, drawAll, drawAll, ih, after_succ, List.length_cons, List.cons_append]

theorem getElem?_drawAll (source : Source) (clocks : List Int) (i : Nat) :
    (source.drawAll clocks)[i]? =
      clocks[i]?.map fun seconds => ((source.after i).draw seconds).1 := by
  induction clocks generalizing source i with
  | nil => rfl
  | cons first clocks ih =>
    cases i with
    | zero => simp [drawAll]
    | succ i => rw [drawAll, List.getElem?_cons_succ, ih, after_succ, List.getElem?_cons_succ]

/-- The machine word and the counter of the k-th id do not depend on the clock. -/
theorem words_of_drawAll {clocks : List Int} {i : Nat} {id : ObjectId}
    (h : (source.drawAll clocks)[i]? = some id) :
    id.machine = source.machine ∧ id.increment = source.next + Int32.ofNat i := by
  rw [getElem?_drawAll] at h
  obtain ⟨seconds, -, rfl⟩ := Option.map_eq_some_iff.mp h
  exact (words_ofParts _ _ _).2

end Source

/-- An id is known by its words. -/
theorem eq_iff_words {a b : ObjectId} :
    a = b ↔ a.time = b.time ∧ a.machine = b.machine ∧ a.increment = b.increment := by
  constructor
  · rintro rfl
    exact ⟨rfl, rfl, rfl⟩
  · rintro ⟨htime, hmachine, hincrement⟩
    rw [← ofParts_words a, ← ofParts_words b, htime, hmachine, hincrement]

/-! ## The counter -/

theorem counter_eq_iff (next : Int32) (i j : Nat) :
    next + Int32.ofNat i = next + Int32.ofNat j ↔ i % 2 ^ 32 = j % 2 ^ 32 := by
  rw [Int32.add_right_inj, ← Int32.toBitVec_inj, Int32.toBitVec_ofNat', Int32.toBitVec_ofNat',
    ← BitVec.toNat_inj, BitVec.toNat_ofNat, BitVec.toNat_ofNat]

/-- A counter that wraps counts modulo 2^32. -/
theorem toInt_counter (next : Int32) (i : Nat) :
    (next + Int32.ofNat i).toInt % 2 ^ 32 = (next.toInt + i) % 2 ^ 32 := by
  have hbalanced : (next + Int32.ofNat i).toInt = (next.toInt + i).bmod (2 ^ 32) := by
    rw [Int32.toInt_add, Int32.toInt_ofNat']
    exact Int.add_bmod_bmod
  rw [hbalanced]
  exact Int.bmod_emod

theorem toInt_counter_succ (next : Int32) (i : Nat) :
    ((next + Int32.ofNat (i + 1)).toInt - (next + Int32.ofNat i).toInt) % 2 ^ 32 = 1 := by
  have hsucc := toInt_counter next (i + 1)
  have hself := toInt_counter next i
  push_cast at hsucc
  omega

/-! ## Turns -/

/-- The ids that have been drawn are those of one caller with some readings, and so is what is
left of the source. -/
def Source.Serves (source : Source) (p : SharedSource) : Prop :=
  ∃ clocks : List Int, p.drawn = source.drawAll clocks ∧ p.source = source.after clocks.length

end ObjectId

namespace Turn

open ObjectId

variable {source : Source} {p : SharedSource}

theorem serves_apply (h : source.Serves p) (turn : Turn) : source.Serves (apply p turn) := by
  obtain ⟨clocks, hdrawn, hsource⟩ := h
  cases turn with
  | look caller seconds => exact ⟨clocks, hdrawn, hsource⟩
  | draw caller =>
    cases hreading : p.readings caller with
    | none =>
      simp only [apply, hreading]
      exact ⟨clocks, hdrawn, hsource⟩
    | some seconds =>
      simp only [apply, hreading]
      refine ⟨clocks ++ [seconds], ?_, ?_⟩
      · rw [hdrawn, hsource, Source.drawAll_concat]
      · rw [hsource, Source.draw_after, List.length_append, List.length_singleton]

/-- Whatever the order of the turns is, the ids are those of one caller. -/
theorem serves_run (h : source.Serves p) (turns : List Turn) : source.Serves (run p turns) := by
  induction turns generalizing p with
  | nil => exact h
  | cons turn turns ih => exact ih (serves_apply h turn)

/-- The k-th id has the machine word of the source and its first counter value plus k. -/
theorem words_of_drawn {turns : List Turn} {i : Nat} {id : ObjectId}
    (h : (run { source } turns).drawn[i]? = some id) :
    id.machine = source.machine ∧ id.increment = source.next + Int32.ofNat i := by
  obtain ⟨clocks, hdrawn, -⟩ :=
    serves_run (p := { source }) ⟨[], rfl, (Source.after_zero source).symm⟩ turns
  rw [hdrawn] at h
  exact Source.words_of_drawAll h

end Turn

namespace ObjectId

/-- Ids drawn from a shared source, in the order in which they were drawn, whatever the callers
read from the clock and whenever they draw. At most 2^32 of them in a row are distinct, all have
the machine word of the source, and the counter of each is one more than that of the one before
it, modulo 2^32. Two of them are the same only with the same time, and a multiple of 2^32
apart. -/
theorem drawn_distinct (source : Source) (turns : List Turn) :
    let ids := (Turn.run { source } turns).drawn
    (∀ window, window <:+: ids → window.length ≤ 2 ^ 32 → window.Nodup) ∧
    (∀ id ∈ ids, id.machine = source.machine) ∧
    ids.IsChain (fun a b => (b.increment.toInt - a.increment.toInt) % 2 ^ 32 = 1) ∧
    ∀ i j a b, ids[i]? = some a → ids[j]? = some b →
      (a = b ↔ a.time = b.time ∧ i % 2 ^ 32 = j % 2 ^ 32) := by
  intro ids
  have hsame : ∀ i j a b, ids[i]? = some a → ids[j]? = some b →
      (a = b ↔ a.time = b.time ∧ i % 2 ^ 32 = j % 2 ^ 32) := by
    intro i j a b ha hb
    obtain ⟨hma, hia⟩ := Turn.words_of_drawn ha
    obtain ⟨hmb, hib⟩ := Turn.words_of_drawn hb
    rw [eq_iff_words, hma, hmb, hia, hib, counter_eq_iff]
    simp only [true_and]
  refine ⟨fun window hinfix hlength => ?_, fun id hid => ?_, ?_, hsame⟩
  · obtain ⟨start, -, hget⟩ := List.infix_iff_getElem?.mp hinfix
    refine List.pairwise_iff_getElem.mpr fun i j hi hj hlt heq => ?_
    have hmod := ((hsame _ _ _ _ (hget i hi) (hget j hj)).mp heq).2
    omega
  · obtain ⟨i, hi⟩ := List.mem_iff_getElem?.mp hid
    exact (Turn.words_of_drawn hi).1
  · refine List.isChain_iff_getElem.mpr fun i hi => ?_
    have hself := Turn.words_of_drawn (List.getElem?_eq_getElem (Nat.lt_of_succ_lt hi))
    have hnext := Turn.words_of_drawn (List.getElem?_eq_getElem hi)
    rw [hself.2, hnext.2]
    exact toInt_counter_succ source.next i

/-- Three callers, one of whom reads a clock before the epoch and draws first, around the
greatest counter value. -/
theorem drawn_distinct_wrapping :
    let ids := (Turn.run { source := ⟨-7, Int32.maxValue⟩ }
      [.look 0 5, .look 1 (-3), .draw 1, .look 2 5, .draw 2, .draw 0]).drawn
    ids = [ofParts 0 (-7) 2147483647, ofParts 5 (-7) (-2147483648), ofParts 5 (-7) (-2147483647)] ∧
      ids.Nodup ∧ ∀ id ∈ ids, id.machine = -7 := by
  intro ids
  obtain ⟨hdistinct, hmachine, -⟩ := drawn_distinct ⟨-7, Int32.maxValue⟩
    [.look 0 5, .look 1 (-3), .draw 1, .look 2 5, .draw 2, .draw 0]
  have hids : ids = [ofParts 0 (-7) 2147483647, ofParts 5 (-7) (-2147483648),
    ofParts 5 (-7) (-2147483647)] := by decide +kernel
  exact ⟨hids, hdistinct ids (List.infix_refl ids) (by rw [hids]; decide), hmachine⟩

end ObjectId

end BsonWriter
