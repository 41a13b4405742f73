import BsonWriter.Proofs.Action.Blind
import BsonWriter.Proofs.Slot.Interchange
import BsonWriter.Proofs.Tree.Encoding

/-!
Where a scalar may come. In such a state the words for it make no difference
(`Writer.AcceptsScalar.run_takePosition`), and writing it is filling its type byte and then
completing the value with its payload (`Writer.AcceptsScalar.run_write`). What is completed
can be told from the state afterwards (`Action.complete_inj`).
-/

namespace BsonWriter

open BsonWriter.Action

/-! ## Positions -/

namespace Action

/-- Scalars that come down to the same value, under words that make no difference here, are
written alike. -/
theorem run_write_congr {place : Place} {w : Writer} {a b : Scalar}
    (htake : (take place .scalar a.activity).run w = (take place .scalar b.activity).run w)
    (hprimitive : ∀ options, a.primitive options = b.primitive options) :
    (write place a).run w = (write place b).run w := by
  simp only [write, hprimitive]
  rw [run_andThen, run_andThen, htake]

/-- Only a session that runs gives out positions. -/
theorem running_of_takePosition {activity : Activity} {w v : Writer} {slot : Option Nat}
    (h : (takePosition .scalar activity).run w = .ok slot v) : w.phase = .running := by
  rw [run_eq_ok_iff] at h
  simp only [takePosition, yields_tracked, yields_andThen, yields_checkRunning] at h
  cases hphase : w.phase with
  | running => rfl
  | failed | closed => simp [hphase] at h

/-- Where a scalar may come, the words for it make no difference. -/
theorem run_takePosition_of_ok {activity : Activity} {w v : Writer} {slot : Option Nat}
    (h : (takePosition .scalar activity).run w = .ok slot v) (other another : Activity) :
    (takePosition .scalar other).run w = (takePosition .scalar another).run w := by
  obtain ⟨expectations, ha, -⟩ := takePosition_eq_ok (running_of_takePosition h) h
  apply run_takePosition_congr
  -- a value or an element is expected, and then the words are not looked at
  cases he : w.expectations with
  | nil => simp [he, Expectation.admitValue] at ha
  | cons e rest =>
    cases e with
    | name => simp [he, Expectation.admitValue] at ha
    | value | element => rfl

end Action

/-- A scalar may come next, and its type byte has not left yet. -/
def Writer.AcceptsScalar (w : Writer) : Prop :=
  ∃ start v, (takePosition .scalar .value).run w = .ok (some start) v ∧
    v.buffer.gone ≤ start ∧ start < v.buffer.size

namespace Writer.AcceptsScalar

variable {w : Writer}

theorem running (h : w.AcceptsScalar) : w.phase = .running := by
  obtain ⟨start, v, ht, -⟩ := h
  exact running_of_takePosition ht

/-- Under whatever words a scalar comes, it takes the same position. -/
theorem run_takePosition (h : w.AcceptsScalar) (activity activity' : Activity) :
    (takePosition .scalar activity).run w = (takePosition .scalar activity').run w := by
  obtain ⟨start, v, ht, -⟩ := h
  exact run_takePosition_of_ok ht activity activity'

/-- A scalar of every type may come. -/
theorem admits (h : w.AcceptsScalar) (type : ElementType) : ∃ u, Admits .scalar type w u := by
  have hsame := h.run_takePosition
  obtain ⟨start, v, ht, hgone, hsize⟩ := h
  obtain ⟨b, hp⟩ := @Buffer.patch_of_le v.buffer start [type.tag] hgone hsize
  have hf : (fill (some start) type).run v = .ok () { v with buffer := b } := by
    rw [run_eq_ok_iff, fill, yields_patch, hp]
    exact ⟨rfl, rfl⟩
  exact ⟨_, fun activity => ⟨some start, v, (hsame activity .value).trans ht, fun _ => rfl, hf⟩⟩

/-- This is so in every state in which some scalar can be written. -/
theorem of_write {value : Scalar} {w' : Writer} (h : (write .direct value).run w = .ok () w') :
    w.AcceptsScalar := by
  obtain ⟨slot, v, ht, hwrite⟩ := run_andThen_eq_ok h
  rw [run_eq_ok_iff] at hwrite
  cases slot with
  | none => simp [fillScalar] at hwrite
  | some start =>
    simp only [yields_tracked, yields_andThen, yields_get, fillScalar, Option.isNone_some,
      Bool.false_eq_true, if_false, fill, yields_patch] at hwrite
    cases hp : v.buffer.patch start [(value.primitive v.options).type.tag] with
    | error cause => simp [hp] at hwrite
    | ok b =>
      obtain ⟨hgone, hsize, -⟩ := Buffer.patch_eq_ok_iff.mp hp
      exact ⟨start, v, (run_takePosition_of_ok ht .value value.activity).trans ht, hgone, hsize⟩

end Writer.AcceptsScalar

/-- Taking a position keeps options and escape table. -/
theorem Admits.kept {type : ElementType} {w u : Writer} (hr : w.phase = .running)
    (h : Admits .scalar type w u) : u.options = w.options ∧ u.escapes = w.escapes := by
  obtain ⟨slot, v, ht, -, hf⟩ := h .value
  obtain ⟨buffer, rfl⟩ := eq_of_run_fill hf
  obtain ⟨expectations, -, ⟨-, -, rfl⟩ | ⟨index, containers, key, -, -, -, rfl⟩⟩ :=
    takePosition_eq_ok hr ht
  · exact ⟨rfl, rfl⟩
  · exact ⟨rfl, rfl⟩

/-- And it leaves the sink alone. -/
theorem Admits.sink {type : ElementType} {w u : Writer} (h : Admits .scalar type w u) :
    u.sink = w.sink := by
  obtain ⟨slot, v, ht, -, hf⟩ := h .value
  obtain ⟨buffer, rfl⟩ := eq_of_run_fill hf
  have hv := (blind_takePosition .scalar .value).sink_after w
  rwa [after_of_ok ht] at hv

/-! ## Completing a value -/

namespace Action

/-- What follows the type byte and the name of a scalar: its payload, and then the sink is
offered what there is if the session streams. -/
def complete (p : Payload) : Action Unit := tracked do
  emit p
  drainIfStreaming

theorem run_complete (bs : Bytes) (w : Writer) :
    (complete ⟨bs, none⟩).run w = (tracked drainIfStreaming).run (w.put bs) := by
  apply run_eq_of_yields
  intro Q E
  simp only [complete, yields_tracked, yields_andThen, yields_emit]
  rfl

/-- A fault leaves no byte behind, but the session has failed. -/
theorem run_complete_fault (cause : Cause) (w : Writer) :
    (complete (.fault cause)).run w = .error ⟨cause, none⟩ w.fail := by
  rw [run_eq_error_iff]
  simp [complete, Payload.fault, Buffer.append]

/-- When the payload is written only the sink can be at fault. -/
theorem result_complete (bs : Bytes) (w : Writer) : (complete ⟨bs, none⟩).result w = .ok () ∨
    ∃ fault, (complete ⟨bs, none⟩).result w = .error ⟨.sink fault, none⟩ := by
  have h : (complete ⟨bs, none⟩).Yields w (fun _ _ => True)
      (fun e _ => ∃ fault, e = ⟨.sink fault, none⟩) := by
    simp only [complete, yields_tracked, yields_andThen, yields_emit, yields_drainIfStreaming,
      yields_drain]
    split
    · split
      · trivial
      · exact ⟨_, rfl⟩
    · trivial
  cases hr : (complete ⟨bs, none⟩).run w with
  | ok x v => exact .inl (result_of_ok hr)
  | error e v =>
    obtain ⟨fault, rfl⟩ := h.of_error hr
    exact .inr ⟨fault, result_of_error hr⟩

/-- A payload that can be written is, unless a sink that is offered it may refuse it. -/
theorem result_complete_of_takesAll {w : Writer}
    (h : w.options.streaming = true → w.sink.TakesAll) (bs : Bytes) :
    (complete ⟨bs, none⟩).result w = .ok () := by
  have hy : (complete ⟨bs, none⟩).Yields w (fun _ _ => True) (fun _ _ => False) := by
    simp only [complete, yields_tracked, yields_andThen, yields_emit, yields_drainIfStreaming,
      yields_drain]
    split
    · rename_i hs
      obtain ⟨sink, -, hover, -⟩ := Sink.handOver_of_takesAll (h hs) (w.buffer.append bs).held
      rw [hover]
      trivial
    · trivial
  obtain ⟨_, v, hr, -⟩ := hy.exists_ok
  exact result_of_ok hr

/-- The bytes that have arrived and those that wait, in order, are what they were and then
the new ones, or no byte has left the buffer. -/
theorem output_drained (w : Writer) : (tracked drainIfStreaming).Yields w
    (fun _ v => v.sink.held ++ v.buffer.held = w.sink.held ++ w.buffer.held)
    (fun _ v => v.buffer = w.buffer) := by
  simp only [yields_tracked, yields_drainIfStreaming, yields_drain]
  split
  · split
    · rename_i sink h
      simp [Buffer.discard, Sink.handOver_of_ok h]
    · rw [Writer.buffer_fail]
  · trivial

/-- The state afterwards shows what was completed. -/
theorem complete_inj {a b : Bytes} {w : Writer}
    (h : (complete ⟨a, none⟩).run w = (complete ⟨b, none⟩).run w) : a = b := by
  rw [run_complete, run_complete] at h
  have ha := output_drained (w.put a)
  have hb := output_drained (w.put b)
  rw [Yields] at ha hb
  rw [h] at ha
  cases hr : (tracked drainIfStreaming).run (w.put b) with
  | ok x v =>
    rw [hr] at ha hb
    have hsame := ha.symm.trans hb
    simpa [Writer.put, Buffer.append] using hsame
  | error e v =>
    rw [hr] at ha hb
    have hsame := congrArg Buffer.held (ha.symm.trans hb)
    simpa [Writer.put, Buffer.append] using hsame

/-- A payload that can be written does not fail with what is not the sink's. -/
theorem result_complete_ne_error {cause : Cause} (hc : ∀ fault, cause ≠ .sink fault) (bs : Bytes)
    (w : Writer) : (complete ⟨bs, none⟩).result w ≠ .error ⟨cause, none⟩ := by
  intro h
  rcases result_complete bs w with hok | ⟨fault, herror⟩
  · rw [h] at hok
    cases hok
  · rw [h] at herror
    cases herror
    exact hc fault rfl

theorem run_complete_ne_fault {cause : Cause} (hc : ∀ fault, cause ≠ .sink fault) (bs : Bytes)
    (w : Writer) : (complete ⟨bs, none⟩).run w ≠ (complete (.fault cause)).run w := by
  intro h
  rw [run_complete_fault] at h
  exact result_complete_ne_error hc bs w (result_of_error h)

end Action

/-- Writing a scalar is filling its type byte and completing it. -/
theorem Admits.run_write {w u : Writer} {value : Scalar} (hr : w.phase = .running)
    (hu : Admits .scalar (value.primitive w.options).type w u) :
    (write .direct value).run w =
      (complete ((value.primitive w.options).payload w.escapes)).run u := by
  obtain ⟨hoptions, hescapes⟩ := hu.kept hr
  obtain ⟨slot, v, ht, hslot, hf⟩ := hu value.activity
  obtain ⟨buffer, rfl⟩ := eq_of_run_fill hf
  have hsome : slot.isNone = false := by simpa using hslot rfl
  apply run_eq_of_yields
  intro Q E
  rw [← hoptions] at hf
  rw [write, take, yields_andThen, yields_iff_of_ok ht, complete, ← hescapes, ← hoptions]
  simp only [yields_tracked, yields_andThen, yields_get, fillScalar, hsome, Bool.false_eq_true,
    if_false]
  rw [yields_iff_of_ok hf]

/-- So it is where a scalar may come, whatever is written. -/
theorem Writer.AcceptsScalar.run_write {w : Writer} (h : w.AcceptsScalar) (type : ElementType) :
    ∃ u, Admits .scalar type w u ∧ ∀ value : Scalar, (value.primitive w.options).type = type →
      (write .direct value).run w =
        (complete ((value.primitive w.options).payload w.escapes)).run u := by
  obtain ⟨u, hu⟩ := h.admits type
  exact ⟨u, hu, fun value htype => Admits.run_write h.running (htype.symm ▸ hu)⟩

end BsonWriter
