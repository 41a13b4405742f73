import BsonWriter.Proofs.Output.Limit
import BsonWriter.Proofs.Run.Step
import BsonWriter.Proofs.Streaming.Output

/-!
The output as one growing byte string. A transcript holds all bytes that were ever appended and
says how many of them have left. Appending adds to it, overwriting changes the bytes it names,
and handing over only moves the mark, so it knows nothing of a buffer that is cut and of offsets
into what is left of it. The buffer and the sink show the transcript after every run of edits
(`Edit.describes_run`), and accept the same patches (`output_is_transcript`). Nor does it know
of storage: what is kept of it is a matter of the buffer alone (`Edit.room_run`).
-/

namespace BsonWriter

open BsonWriter.Action

/-- All bytes that were ever appended, as they are by now, and how many have left. -/
structure Transcript where
  bytes : Bytes := []
  left : Nat := 0
  deriving DecidableEq, Repr

/-- What is done to the output. -/
inductive Edit
  | append (bs : Bytes)
  | patch (offset : Nat) (bs : Bytes)
  | drain
  deriving DecidableEq, Repr

namespace Transcript

/-- So many bytes from an offset on have been appended and have not left. -/
def Keeps (t : Transcript) (offset width : Nat) : Prop :=
  t.left ≤ offset ∧ offset + width ≤ t.bytes.length

instance (t : Transcript) (offset width : Nat) : Decidable (t.Keeps offset width) :=
  inferInstanceAs (Decidable (_ ∧ _))

/-- The bytes from an offset on become `bs`, one by one. -/
def write (t : Transcript) (offset : Nat) (bs : Bytes) : Transcript :=
  { t with bytes := t.bytes.mapIdx fun i x => if offset ≤ i then bs.getD (i - offset) x else x }

/-- The transcript after an edit. A patch of bytes that it does not keep is refused. -/
def after (t : Transcript) : Edit → Transcript
  | .append bs => { t with bytes := t.bytes ++ bs }
  | .patch offset bs => if t.Keeps offset bs.length then t.write offset bs else t
  | .drain => { t with left := t.bytes.length }

def run (t : Transcript) (edits : List Edit) : Transcript := edits.foldl after t

/-- The buffer and the sink show the transcript, and the sink goes on as it began. -/
structure Describes (t : Transcript) (s₀ : Sink) (w : Writer) : Prop where
  shows : Shows s₀.held w.sink w.buffer t.bytes
  left : w.buffer.gone = t.left
  state : s₀.StateOf w.sink

/-- Bytes that are overwritten in one go are overwritten one by one. -/
theorem overwrite_eq_write {t : Transcript} {offset : Nat} {bs : Bytes}
    (h : offset + bs.length ≤ t.bytes.length) :
    Buffer.overwrite t.bytes offset bs = (t.write offset bs).bytes := by
  apply List.ext_getElem?
  intro i
  rw [Buffer.getElem?_overwrite h, write, List.getElem?_mapIdx]
  by_cases hi : offset ≤ i ∧ i < offset + bs.length
  · have hbs : i - offset < bs.length := by omega
    rw [if_pos hi, List.getElem?_eq_getElem (show i < t.bytes.length by omega), Option.map_some,
      if_pos hi.1, List.getD_eq_getElem?_getD, List.getElem?_eq_getElem hbs, Option.getD_some]
  · rw [if_neg hi]
    cases t.bytes[i]? with
    | none => rfl
    | some x =>
      rw [Option.map_some]
      split
      · rw [List.getD_eq_getElem?_getD, List.getElem?_eq_none (by omega), Option.getD_none]
      · rfl

end Transcript

namespace Edit

def action : Edit → Action Unit
  | append bs => Action.append bs
  | patch offset bs => Action.patch offset bs
  | drain => Action.drain

/-- Makes the edits one after another. An edit that fails has no further consequence. -/
def run (w : Writer) (edits : List Edit) : Writer :=
  edits.foldl (fun w edit => edit.action.after w) w

end Edit

/-! ## One edit -/

section

variable {s₀ : Sink} {t : Transcript} {w : Writer}

theorem run_drain_of_unlimited (h : s₀.StateOf w.sink) (hl : s₀.limit = none) :
    ∃ s', s₀.StateOf s' ∧ s'.held = w.sink.held ++ w.buffer.held ∧
      drain.run w = .ok () { w with buffer := w.buffer.drained, sink := s' } := by
  obtain ⟨s', hstate, hok, hheld⟩ := Sink.handOver_of_unlimited h hl w.buffer.held
  refine ⟨s', hstate, hheld, ?_⟩
  rw [run_drain, hok]

namespace Transcript.Describes

theorem size_eq (h : t.Describes s₀ w) : w.buffer.size = t.bytes.length := h.shows.length.symm

theorem left_le (h : t.Describes s₀ w) : t.left ≤ t.bytes.length := by
  rw [← h.left, ← h.size_eq]
  exact w.buffer.gone_le_size

/-- What has left is in the sink, and the rest is here. -/
theorem parts (h : t.Describes s₀ w) : w.sink.held = s₀.held ++ t.bytes.take t.left ∧
    w.buffered = t.bytes.drop t.left := by
  obtain ⟨received, hheld, hgone, hbytes⟩ := h.shows
  have hlength : received.length = t.left := hgone.trans h.left
  rw [hheld, hbytes, List.take_left' hlength, List.drop_left' hlength]
  exact ⟨rfl, rfl⟩

/-- A patch is made if the transcript keeps the bytes. It is refused for bytes that have left,
even if not all of them have, and behind the last byte. -/
theorem patch_cases (h : t.Describes s₀ w) (offset : Nat) (bs : Bytes) :
    (t.Keeps offset bs.length ∧ ∃ b, w.buffer.patch offset bs = .ok b ∧
      (patch offset bs).run w = .ok () { w with buffer := b }) ∨
    (offset < t.left ∧ (patch offset bs).run w = .error ⟨.alreadyFlushed offset, none⟩ w) ∨
    (t.left ≤ offset ∧ t.bytes.length < offset + bs.length ∧ (patch offset bs).run w =
      .error ⟨.outOfOrder (.patchPastEnd bs.length offset t.bytes.length), none⟩ w) := by
  rw [run_patch, Keeps, ← h.left, ← h.size_eq]
  cases hp : w.buffer.patch offset bs with
  | ok b =>
    obtain ⟨hle, hend, -⟩ := Buffer.patch_eq_ok_iff.mp hp
    exact .inl ⟨⟨hle, hend⟩, b, rfl, rfl⟩
  | error cause =>
    obtain ⟨hgone, rfl⟩ | ⟨hle, hend, rfl⟩ := Buffer.patch_eq_error_iff.mp hp
    · exact .inr (.inl ⟨hgone, rfl⟩)
    · exact .inr (.inr ⟨hle, hend, rfl⟩)

end Transcript.Describes

/-- An edit does to the output what it does to the transcript. -/
theorem Edit.describes_after (h : t.Describes s₀ w) (hl : s₀.limit = none) (edit : Edit) :
    (t.after edit).Describes s₀ (edit.action.after w) := by
  cases edit with
  | append bs => exact ⟨h.shows.append bs, h.left, h.state⟩
  | patch offset bs =>
    obtain ⟨hkeeps, b, hb, hrun⟩ | ⟨hgone, hrun⟩ | ⟨-, hend, hrun⟩ := h.patch_cases offset bs
    · rw [action, after_of_ok hrun, Transcript.after, if_pos hkeeps]
      have hshows := h.shows.patch hb
      rw [Transcript.overwrite_eq_write hkeeps.2] at hshows
      exact ⟨hshows, (Buffer.gone_of_patch hb).trans h.left, h.state⟩
    · rw [action, after_of_error hrun, Transcript.after,
        if_neg fun hkeeps => Nat.not_le_of_lt hgone hkeeps.1]
      exact h
    · rw [action, after_of_error hrun, Transcript.after,
        if_neg fun hkeeps => Nat.not_le_of_lt hend hkeeps.2]
      exact h
  | drain =>
    obtain ⟨s', hstate, hheld, hrun⟩ := run_drain_of_unlimited h.state hl
    rw [action, after_of_ok hrun]
    exact ⟨h.shows.discard hheld, h.size_eq, hstate⟩

theorem Edit.describes_run (h : t.Describes s₀ w) (hl : s₀.limit = none) (edits : List Edit) :
    (t.run edits).Describes s₀ (Edit.run w edits) := by
  induction edits generalizing t w with
  | nil => exact h
  | cons edit edits ih => exact ih (describes_after h hl edit)

/-- A session begins with nothing written, whatever its options and its storage are. -/
theorem Transcript.describes_onStorage (hl : s₀.limit = none) (hc : s₀.chunk ≠ some 0)
    (options : Options) (storage : Bytes) :
    Transcript.Describes {} s₀ (Writer.onStorage s₀ options storage) := by
  refine ⟨⟨[], (List.append_nil _).symm, rfl, rfl⟩, rfl, rfl, rfl, rfl, hc, ?_⟩
  rw [Sink.kept, hl]

end

/-- Over a sink that takes everything, and whether or not storage is kept, any edits leave the
output as they leave the transcript. The offset of the next byte is the length of the
transcript, the sink has received the bytes below the mark, and those from the mark on are here.
Appending and handing over never fail. A patch is made exactly if it begins at the mark or
behind it and does not go beyond the last byte; what it does is `Transcript.write`. It fails as
flushed exactly if it begins before the mark, and a patch that fails changes nothing. -/
theorem output_is_transcript {sink : Sink} (hl : sink.limit = none) (hc : sink.chunk ≠ some 0)
    (options : Options) (storage : Bytes) (edits : List Edit) :
    let w := Edit.run (Writer.onStorage sink options storage) edits
    let t := Transcript.run {} edits
    w.buffer.size = t.bytes.length ∧ t.left ≤ t.bytes.length ∧
      w.sink.held = sink.held ++ t.bytes.take t.left ∧ w.buffered = t.bytes.drop t.left ∧
      (∀ bs, (append bs).result w = .ok ()) ∧ drain.result w = .ok () ∧
      ∀ offset bs,
        ((patch offset bs).result w = .ok () ↔
          t.left ≤ offset ∧ offset + bs.length ≤ t.bytes.length) ∧
        (∀ gone, (patch offset bs).result w = .error ⟨.alreadyFlushed gone, none⟩ ↔
          gone = offset ∧ offset < t.left) ∧
        ((patch offset bs).result w ≠ .ok () → (patch offset bs).after w = w) := by
  intro w t
  have h : t.Describes sink w :=
    Edit.describes_run (Transcript.describes_onStorage hl hc options storage) hl edits
  obtain ⟨s', -, -, hdrain⟩ := run_drain_of_unlimited h.state hl
  refine ⟨h.size_eq, h.left_le, h.parts.1, h.parts.2, fun _ => rfl, result_of_ok hdrain,
    fun offset bs => ?_⟩
  obtain ⟨hkeeps, b, -, hrun⟩ | ⟨hgone, hrun⟩ | ⟨hle, hend, hrun⟩ := h.patch_cases offset bs
  · rw [result_of_ok hrun]
    exact ⟨iff_of_true rfl hkeeps,
      fun gone => iff_of_false nofun fun hgone => Nat.not_le_of_lt hgone.2 hkeeps.1,
      fun hne => absurd rfl hne⟩
  · rw [result_of_error hrun, after_of_error hrun]
    refine ⟨iff_of_false nofun (by omega), fun gone => ?_, fun _ => rfl⟩
    simp [hgone, eq_comm]
  · rw [result_of_error hrun, after_of_error hrun]
    exact ⟨iff_of_false nofun (by omega), fun gone => iff_of_false nofun (by omega), fun _ => rfl⟩

/-- A sink that takes three bytes at once, is interrupted and cannot be flushed, with patches
beside the mark, across it and across the end. -/
theorem output_is_transcript_cut :
    let sink : Sink := { chunk := some 3, interrupts := 2, flushFails := true, held := [42] }
    let edits : List Edit := [.append (int32Bytes 1), .append [0, 7], .drain,
      .append (int32Bytes 0), .patch 6 (int32Bytes (-2)), .patch 5 (int32Bytes 9), .patch 9 [3],
      .patch 9 [5, 5]]
    let w := Edit.run (Writer.onStorage sink { reuseBuffers := some true } [8, 8]) edits
    w.buffer.size = 10 ∧ w.sink.held = [42, 1, 0, 0, 0, 0, 7] ∧ w.buffered = [254, 255, 255, 3] ∧
      (patch 5 (int32Bytes 9)).result w = .error ⟨.alreadyFlushed 5, none⟩ ∧
      (patch 9 [5, 5]).result w ≠ .ok () ∧ (patch 9 [5, 5]).after w = w := by
  intro sink edits
  obtain ⟨hsize, -, hsink, hheld, -, -, hpatch⟩ := @output_is_transcript sink rfl
    (by decide) { reuseBuffers := some true } [8, 8] edits
  have ht : Transcript.run {} edits = ⟨[1, 0, 0, 0, 0, 7, 254, 255, 255, 3], 6⟩ := by
    decide +kernel
  rw [ht] at hsize hsink hheld hpatch
  have hrefused := mt (hpatch 9 [5, 5]).1.mp (by decide)
  exact ⟨hsize, hsink.trans (by decide), hheld.trans (by decide),
    ((hpatch 5 (int32Bytes 9)).2.1 5).mpr (by decide), hrefused,
    (hpatch 9 [5, 5]).2.2 hrefused⟩

/-! ## Storage -/

namespace Buffer

theorem room_le_append (b : Buffer) (bs : Bytes) : b.room ≤ (b.append bs).room := by
  simp only [room, append, List.length_append]
  omega

theorem room_of_patch {b c : Buffer} {offset : Nat} {bs : Bytes} (h : b.patch offset bs = .ok c) :
    c.keeps = b.keeps ∧ c.room = b.room := by
  obtain ⟨hle, hend, rfl⟩ := patch_eq_ok_iff.mp h
  refine ⟨rfl, ?_⟩
  unfold size at hend
  simp only [room]
  rw [length_overwrite (by omega)]

theorem room_drained (b : Buffer) :
    b.drained.room = if b.held = [] ∨ b.keeps = true then b.room else 0 := by
  simp only [drained, discard, room, List.length_nil, Nat.max_zero]

end Buffer

/-- No edit changes whether storage is kept, and none gives up storage that is. -/
theorem Edit.room_after (w : Writer) (edit : Edit) :
    (edit.action.after w).buffer.keeps = w.buffer.keeps ∧ (w.buffer.keeps = true →
      w.buffer.room ≤ (edit.action.after w).buffer.room) := by
  cases edit with
  | append bs => exact ⟨rfl, fun _ => w.buffer.room_le_append bs⟩
  | patch offset bs =>
    cases hp : w.buffer.patch offset bs with
    | ok b =>
      obtain ⟨hkeeps, hroom⟩ := Buffer.room_of_patch hp
      rw [action, after, run_patch, hp]
      exact ⟨hkeeps, fun _ => Nat.le_of_eq hroom.symm⟩
    | error cause =>
      rw [action, after, run_patch, hp]
      exact ⟨rfl, fun _ => Nat.le_refl _⟩
  | drain =>
    rw [action, after, run_drain]
    rcases w.sink.handOver w.buffer.held with ⟨⟨⟩ | ⟨⟩, sink⟩
    · exact ⟨rfl, fun _ => Nat.le_refl _⟩
    · refine ⟨rfl, fun hk => ?_⟩
      exact Nat.le_of_eq (by rw [Buffer.room_drained, if_pos (.inr hk)])

theorem Edit.room_le_run (w : Writer) (edits : List Edit) :
    (Edit.run w edits).buffer.keeps = w.buffer.keeps ∧ (w.buffer.keeps = true →
      w.buffer.room ≤ (Edit.run w edits).buffer.room) := by
  induction edits generalizing w with
  | nil => exact ⟨rfl, fun _ => Nat.le_refl _⟩
  | cons edit edits ih =>
    obtain ⟨hkeeps, hroom⟩ := room_after w edit
    obtain ⟨hkeeps', hroom'⟩ := ih (edit.action.after w)
    exact ⟨hkeeps'.trans hkeeps, fun hk => Nat.le_trans (hroom hk) (hroom' (hkeeps.trans hk))⟩

/-- A session that keeps its storage has room for as much as the storage it began on held, and
for as much as it has held itself, whatever has been handed over since. A session that does not
keep it has no room left as soon as it has handed something over. -/
theorem Edit.room_run (sink : Sink) (options : Options) (storage : Bytes)
    (edits later : List Edit) :
    let w := Edit.run (Writer.onStorage sink options storage) edits
    (options.keepsStorage = true →
      storage.length ≤ w.buffer.room ∧ w.buffered.length ≤ (Edit.run w later).buffer.room) ∧
    (options.keepsStorage = false → w.buffered ≠ [] → drain.action.result w = .ok () →
      (drain.action.after w).buffer.room = 0) := by
  intro w
  obtain ⟨hkeeps, hroom⟩ := room_le_run (Writer.onStorage sink options storage) edits
  refine ⟨fun hk => ⟨?_, ?_⟩, fun hk hheld hok => ?_⟩
  · exact Nat.le_trans (Nat.le_max_left ..) (hroom hk)
  · exact Nat.le_trans (Nat.le_max_right ..) ((room_le_run w later).2 (hkeeps.trans hk))
  · have hforgets : w.buffer.keeps ≠ true := by
      rw [show w.buffer.keeps = false from hkeeps.trans hk]
      exact Bool.false_ne_true
    rw [action, result, run_drain] at hok
    rw [action, Action.after, run_drain]
    generalize w.sink.handOver w.buffer.held = handed at hok ⊢
    obtain ⟨⟨⟩ | ⟨⟩, sink⟩ := handed
    · cases hok
    · exact (Buffer.room_drained _).trans (if_neg (not_or.mpr ⟨hheld, hforgets⟩))

end BsonWriter
