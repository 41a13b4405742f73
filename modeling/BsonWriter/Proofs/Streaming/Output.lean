import BsonWriter.Proofs.Output.Delivery
import BsonWriter.Proofs.Output.Slice
import BsonWriter.Writer.Payload
import BsonWriter.Writer.State

/-!
All that a session has written, whether it has left or not. `Shows` ties it to the
sink and the buffer: handing over does not change it, and appending and overwriting
do to it what they do to the buffer. Two such outputs `Agree` outside of some length
fields, and a field is `Blank` in an output as long as nobody fills it. A sink keeps
fields `Unfilled` when what it has received of them is zero; of an output that has been
given up in part, no more can be said.
-/

namespace BsonWriter

/-- The sink held `before` when the session began, has received the front part of
`output` since, and the rest of it is here. -/
def Shows (before : Bytes) (sink : Sink) (b : Buffer) (output : Bytes) : Prop :=
  ∃ received, sink.held = before ++ received ∧ received.length = b.gone ∧
    output = received ++ b.held

/-- All that a session has written, over a sink that held `before` when it began. -/
def Writer.written (before : Bytes) (w : Writer) : Bytes :=
  w.sink.held.drop before.length ++ w.buffered

/-- Two outputs of one length that agree outside of the fields. -/
structure Agree (fields : List Nat) (output other : Bytes) : Prop where
  length : other.length = output.length
  beside : ∀ i, (∀ f ∈ fields, i < f ∨ f + 4 ≤ i) → other[i]? = output[i]?

/-- The fields are zero. -/
def Blank (fields : List Nat) (output : Bytes) : Prop :=
  ∀ f ∈ fields, ∀ i, f ≤ i → i < f + 4 → output[i]? = some 0

/-- Where the fields are, the sink has received zeros or nothing. -/
def Unfilled (fields : List Nat) (before : Bytes) (sink : Sink) (b : Buffer) : Prop :=
  ∃ received, sink.held = before ++ received ∧ received.length ≤ b.gone ∧
    ∀ f ∈ fields, ∀ i, f ≤ i → i < f + 4 → ∀ x, received[i]? = some x → x = 0

namespace Shows

variable {before output : Bytes} {sink : Sink} {b : Buffer}

theorem length (h : Shows before sink b output) : output.length = b.size := by
  obtain ⟨received, -, hg, rfl⟩ := h
  rw [List.length_append, hg, Buffer.size]

theorem written_eq {w : Writer} (h : Shows before w.sink w.buffer output) :
    w.written before = output := by
  obtain ⟨received, hheld, -, rfl⟩ := h
  rw [Writer.written, hheld, List.drop_left, Writer.buffered]

theorem append (h : Shows before sink b output) (bs : Bytes) :
    Shows before sink (b.append bs) (output ++ bs) := by
  obtain ⟨received, hs, hg, rfl⟩ := h
  exact ⟨received, hs, hg, List.append_assoc ..⟩

theorem patch (h : Shows before sink b output) {c : Buffer} {offset : Nat} {bs : Bytes}
    (hp : b.patch offset bs = .ok c) :
    Shows before sink c (Buffer.overwrite output offset bs) := by
  obtain ⟨received, hs, hg, rfl⟩ := h
  obtain ⟨hle, hend, rfl⟩ := Buffer.patch_eq_ok_iff.mp hp
  refine ⟨received, hs, hg, ?_⟩
  have htake : (received ++ b.held).take offset = received ++ b.held.take (offset - b.gone) := by
    rw [List.take_append, List.take_of_length_le (by omega), hg]
  have hdrop : (received ++ b.held).drop (offset + bs.length) =
      b.held.drop (offset - b.gone + bs.length) := by
    rw [List.drop_append, List.drop_of_length_le (by omega), List.nil_append, hg]
    congr 1
    omega
  simp only [Buffer.overwrite, htake, hdrop, List.append_assoc]

/-- Handing over moves bytes and changes none. -/
theorem discard (h : Shows before sink b output) {sink' : Sink} {spare : Nat}
    (hs : sink'.held = sink.held ++ b.held) : Shows before sink' (b.discard spare) output := by
  obtain ⟨received, hheld, hg, rfl⟩ := h
  refine ⟨received ++ b.held, by rw [hs, hheld, List.append_assoc], ?_, by simp⟩
  rw [List.length_append, hg, Buffer.gone_discard, Buffer.size]

end Shows

namespace Agree

variable {fields : List Nat} {output other : Bytes}

theorem mono (h : Agree fields output other) {more : List Nat} (hm : ∀ f ∈ fields, f ∈ more) :
    Agree more output other :=
  ⟨h.length, fun i hi => h.beside i fun f hf => hi f (hm f hf)⟩

theorem append (h : Agree fields output other) (bs : Bytes) :
    Agree fields (output ++ bs) (other ++ bs) := by
  refine ⟨by rw [List.length_append, List.length_append, h.length], fun i hi => ?_⟩
  rw [List.getElem?_append, List.getElem?_append, h.length, h.beside i hi]

/-- The same bytes are overwritten in both. -/
theorem overwrite (h : Agree fields output other) {offset : Nat} {bs : Bytes}
    (hle : offset + bs.length ≤ output.length) :
    Agree fields (Buffer.overwrite output offset bs) (Buffer.overwrite other offset bs) := by
  have hlength := Buffer.length_overwrite hle
  have hle' : offset + bs.length ≤ other.length := by rw [h.length]; exact hle
  refine ⟨by rw [hlength, Buffer.length_overwrite hle', h.length], fun i hi => ?_⟩
  rw [Buffer.getElem?_overwrite hle, Buffer.getElem?_overwrite hle', h.beside i hi]

/-- A field is filled in the first. -/
theorem overwrite_field (h : Agree fields output other) {f : Nat} (hf : f ∈ fields) {bs : Bytes}
    (hbs : bs.length = 4) (hle : f + 4 ≤ output.length) :
    Agree fields (Buffer.overwrite output f bs) other := by
  have hle' : f + bs.length ≤ output.length := by rw [hbs]; exact hle
  refine ⟨by rw [h.length, Buffer.length_overwrite hle'], fun i hi => ?_⟩
  have hbeside := hi f hf
  rw [Buffer.getElem?_overwrite hle', if_neg (by omega), h.beside i hi]

end Agree

namespace Blank

variable {fields : List Nat} {output : Bytes}

theorem append (h : Blank fields output) (bs : Bytes) : Blank fields (output ++ bs) := by
  intro f hf i hi hlt
  have hget := h f hf i hi hlt
  rw [List.getElem?_append_left (List.getElem?_eq_some_iff.mp hget).1]
  exact hget

/-- What is overwritten lies beside the fields. -/
theorem overwrite (h : Blank fields output) {offset : Nat} {bs : Bytes}
    (hle : offset + bs.length ≤ output.length)
    (ha : ∀ f ∈ fields, offset + bs.length ≤ f ∨ f + 4 ≤ offset) :
    Blank fields (Buffer.overwrite output offset bs) := by
  intro f hf i hi hlt
  have hapart := ha f hf
  rw [Buffer.getElem?_overwrite hle, if_neg (by omega)]
  exact h f hf i hi hlt

/-- A new field is zero. -/
theorem append_field (h : Blank fields output) :
    Blank (output.length :: fields) (output ++ lengthField 0) := by
  intro f hf i hi hlt
  rcases List.mem_cons.mp hf with rfl | hf
  · rw [List.getElem?_append_right hi]
    have hzero : ∀ j < 4, (lengthField 0)[j]? = some 0 := by decide
    exact hzero _ (by omega)
  · exact h.append _ f hf i hi hlt

theorem unfilled (h : Blank fields output) {before : Bytes} {sink : Sink} {b : Buffer}
    (hs : Shows before sink b output) : Unfilled fields before sink b := by
  obtain ⟨received, hheld, hg, rfl⟩ := hs
  refine ⟨received, hheld, Nat.le_of_eq hg, fun f hf i hi hlt x hx => ?_⟩
  have hzero := h f hf i hi hlt
  rw [List.getElem?_append_left (List.getElem?_eq_some_iff.mp hx).1, hx] at hzero
  exact Option.some.inj hzero

end Blank

namespace Unfilled

variable {fields : List Nat} {before : Bytes} {sink : Sink} {b : Buffer}

theorem mono (h : Unfilled fields before sink b) {others : List Nat}
    (ho : ∀ f ∈ others, f ∈ fields) {c : Buffer} (hg : b.gone ≤ c.gone) :
    Unfilled others before sink c := by
  obtain ⟨received, hheld, hle, hzero⟩ := h
  exact ⟨received, hheld, Nat.le_trans hle hg, fun f hf => hzero f (ho f hf)⟩

/-- A field that is still here has not been received. -/
theorem cons (h : Unfilled fields before sink b) {f : Nat} (hf : b.gone ≤ f) :
    Unfilled (f :: fields) before sink b := by
  obtain ⟨received, hheld, hle, hzero⟩ := h
  refine ⟨received, hheld, hle, fun g hg i hi hlt x hx => ?_⟩
  rcases List.mem_cons.mp hg with rfl | hg
  · have hlength := (List.getElem?_eq_some_iff.mp hx).1
    omega
  · exact hzero g hg i hi hlt x hx

end Unfilled

end BsonWriter
