import BsonWriter.Proofs.Output.Slice
import BsonWriter.Proofs.Wire.Value
import BsonWriter.Writer.State

/-!
Code whose scope is being written. As long as the front of the value is here, the
scope document is still open below the containers that have begun in it, or it has
been ended once and its length field says where (`Opening.Stage`).
-/

namespace BsonWriter

/-- Code whose scope has begun: the offset of its total length, the code as it is
written, and the containers around it. -/
structure Opening where
  start : Nat
  text : String
  outer : List Container
  outside : ∀ c ∈ outer, c.header + 4 ≤ start

namespace Opening

/-- Where the scope document begins. -/
def header (o : Opening) : Nat := o.start + 4 + (prefixed o.text).length

/-- Where the content of the scope document begins. -/
def body (o : Opening) : Nat := o.header + 4

/-- The value up to the content of its scope document, when that document has the
given length and the total is still open. -/
def front (o : Opening) (length : Nat) : Bytes :=
  lengthField 0 ++ prefixed o.text ++ lengthField length

theorem start_add_length_front (o : Opening) (length : Nat) :
    o.start + (o.front length).length = o.body := by
  simp only [front, List.length_append, length_lengthField, body, header]
  omega

theorem start_add_length_code (o : Opening) :
    o.start + (lengthField 0 ++ prefixed o.text).length = o.header := by
  rw [List.length_append, length_lengthField, header]
  omega

/-- What the buffer and the containers say about the scope document. Ended, it lies
between the containers around it and those that have begun since. -/
inductive Stage (o : Opening) (b : Buffer) (containers : List Container) : Prop
  | inside (inner : List Container) (holds : b.Holds o.start (o.front 0))
    (nested : containers = inner ++ ⟨o.header, none⟩ :: o.outer)
    (within : ∀ c ∈ inner, o.body ≤ c.header)
  | ended (length : Nat) (holds : b.Holds o.start (o.front length))
    (bounds : 5 ≤ length ∧ length < lengthBound) (past : o.header + length ≤ b.size)
    (beside : ∀ c ∈ containers, c.header + 4 ≤ o.start ∨ o.header + length ≤ c.header)

/-- The stage, and that neither the type byte that waits nor any of the `held`
offsets lies in the front of the value. -/
structure Present (o : Opening) (held : List Nat) (w : Writer) : Prop where
  stage : o.Stage w.buffer w.containers
  slot : ∀ start, w.slot = some start → o.body ≤ start
  held : ∀ start ∈ held, o.body ≤ start

/-- What holds while the scope is written, in a session that keeps its output. -/
structure Watched (o : Opening) (held : List Nat) (w : Writer) : Prop where
  keeps : w.options.streaming = false
  present : w.phase = .running → w.buffer.gone ≤ o.start → o.Present held w

variable {o : Opening} {w : Writer} {b c : Buffer} {containers : List Container} {held : List Nat}

/-! ## Stages -/

namespace Stage

theorem body_le_size (h : o.Stage b containers) : o.body ≤ b.size := by
  have hf := o.start_add_length_front
  cases h with
  | inside inner holds => exact hf 0 ▸ holds.2.1
  | ended length holds => exact hf length ▸ holds.2.1

theorem append (h : o.Stage b containers) (bs : Bytes) : o.Stage (b.append bs) containers := by
  cases h with
  | inside inner holds nested within => exact .inside inner (holds.append bs) nested within
  | ended length holds bounds past beside =>
    refine .ended length (holds.append bs) bounds ?_ beside
    rw [Buffer.size_append]
    omega

/-- Overwriting does no harm before the value and in its content. -/
theorem patch (h : o.Stage b containers) {offset : Nat} {bs : Bytes}
    (hp : b.patch offset bs = .ok c) (hd : offset + bs.length ≤ o.start ∨ o.body ≤ offset) :
    o.Stage c containers := by
  have hf := o.start_add_length_front
  cases h with
  | inside inner holds nested within =>
    exact .inside inner (holds.patch hp (by rw [hf]; exact hd)) nested within
  | ended length holds bounds past beside =>
    exact .ended length (holds.patch hp (by rw [hf]; exact hd)) bounds
      (by rw [Buffer.size_of_patch hp]; exact past) beside

/-- An array under way gets another element. -/
theorem nextElement (h : o.Stage b containers) {index : Nat} {next : List Container}
    (hn : Container.nextElement containers = some (index, next)) : o.Stage b next := by
  obtain ⟨header, rest, rfl, rfl⟩ : ∃ header rest, containers = ⟨header, some index⟩ :: rest ∧
      next = ⟨header, some (index + 1)⟩ :: rest := by
    unfold Container.nextElement at hn
    split at hn
    · cases hn
      exact ⟨_, _, rfl, rfl⟩
    · cases hn
  cases h with
  | inside inner holds nested within =>
    cases inner with
    | nil => cases nested
    | cons container inner =>
      cases nested
      exact .inside (⟨header, some (index + 1)⟩ :: inner) holds rfl (by simpa using within)
  | ended length holds bounds past beside =>
    exact .ended length holds bounds past (by simpa using beside)

/-- Another container begins where the output ends. -/
theorem openContainer (h : o.Stage b containers) (shape : Shape) :
    o.Stage b (.start b.size shape :: containers) := by
  have hsize := h.body_le_size
  cases h with
  | inside inner holds nested within =>
    refine .inside (.start b.size shape :: inner) holds (by rw [nested]; rfl) ?_
    simpa using ⟨hsize, within⟩
  | ended length holds bounds past beside =>
    refine .ended length holds bounds past ?_
    simpa using ⟨Or.inr past, beside⟩

/-- The innermost container ends. If it is the scope document, this is when it
gets its length. -/
theorem endContainer {container : Container} (h : o.Stage b (container :: containers))
    (hlength : b.size - container.header < lengthBound) (hbody : o.body < b.size)
    (hp : b.patch container.header (lengthField (b.size - container.header)) = .ok c) :
    o.Stage c containers := by
  have hf := o.start_add_length_front
  cases h with
  | inside inner holds nested within =>
    cases inner with
    | cons container' inner =>
      obtain ⟨rfl, rfl⟩ := List.cons.inj nested
      have hle := within container List.mem_cons_self
      refine (Stage.inside inner holds rfl fun d hd => ?_).patch hp (.inr hle)
      exact within d (List.mem_cons_of_mem _ hd)
    | nil =>
      obtain ⟨rfl, rfl⟩ := List.cons.inj nested
      obtain ⟨hfront, -⟩ := Buffer.Holds.append_iff.mp holds
      have hheader := o.start_add_length_code
      refine .ended (b.size - o.header) (Buffer.Holds.append_iff.mpr ⟨?_, ?_⟩) ⟨?_, hlength⟩ ?_ ?_
      · exact hfront.patch hp (.inr (Nat.le_of_eq hheader))
      · rw [hheader]
        exact Buffer.holds_patch_self hp
      · unfold body at hbody
        omega
      · unfold body at hbody
        rw [Buffer.size_of_patch hp]
        omega
      · exact fun d hd => .inl (o.outside d hd)
  | ended length holds bounds past beside =>
    refine (Stage.ended length holds bounds past fun d hd => ?_).patch hp ?_
    · exact beside d (List.mem_cons_of_mem _ hd)
    · rw [length_lengthField]
      have hbeside := beside container List.mem_cons_self
      have hbody : o.body ≤ o.header + length := by
        unfold body
        omega
      omega

end Stage

/-! ## What every action keeps -/

namespace Present

theorem append (h : o.Present held w) (bs : Bytes) :
    o.Present held { w with buffer := w.buffer.append bs } :=
  ⟨h.stage.append bs, h.slot, h.held⟩

theorem patch (h : o.Present held w) {offset : Nat} {bs : Bytes}
    (hp : w.buffer.patch offset bs = .ok b) (hd : o.body ≤ offset) :
    o.Present held { w with buffer := b } :=
  ⟨h.stage.patch hp (.inr hd), h.slot, h.held⟩

end Present

namespace Watched

theorem mono (h : o.Watched held w) {fewer : List Nat} (hf : ∀ start ∈ fewer, start ∈ held) :
    o.Watched fewer w := by
  refine ⟨h.keeps, fun hr hg => ?_⟩
  have hp := h.present hr hg
  exact ⟨hp.stage, hp.slot, fun start hm => hp.held start (hf start hm)⟩

theorem of_cons {start : Nat} (h : o.Watched (start :: held) w) : o.Watched held w :=
  h.mono fun _ hm => List.mem_cons_of_mem _ hm

theorem of_append {starts : List Nat} (h : o.Watched (starts ++ held) w) : o.Watched held w :=
  h.mono fun _ hm => List.mem_append_right _ hm

/-- A session that does not run any more has nothing to keep. -/
theorem stopped (h : o.Watched held w) {w' : Writer} (ho : w'.options = w.options)
    (hp : w'.phase ≠ .running) : o.Watched held w' :=
  ⟨by rw [ho]; exact h.keeps, fun hr => absurd hr hp⟩

theorem failed (h : o.Watched held w) {w' : Writer} (ho : w'.options = w.options) :
    o.Watched held w'.fail :=
  h.stopped (by rw [w'.options_fail, ho]) w'.phase_fail

theorem fail (h : o.Watched held w) : o.Watched held w.fail := h.failed rfl

theorem withSink (h : o.Watched held w) (sink : Sink) : o.Watched held { w with sink } :=
  ⟨h.keeps, fun hr hg =>
    ⟨(h.present hr hg).stage, (h.present hr hg).slot, (h.present hr hg).held⟩⟩

theorem withEscapes (h : o.Watched held w) (escapes : Option EscapeTable) :
    o.Watched held { w with escapes } :=
  ⟨h.keeps, fun hr hg =>
    ⟨(h.present hr hg).stage, (h.present hr hg).slot, (h.present hr hg).held⟩⟩

theorem append (h : o.Watched held w) (bs : Bytes) :
    o.Watched held { w with buffer := w.buffer.append bs } :=
  ⟨h.keeps, fun hr hg => (h.present hr hg).append bs⟩

/-- The end of the output lies in no front. -/
theorem hold_size (h : o.Watched held w) : o.Watched (w.buffer.size :: held) w := by
  refine ⟨h.keeps, fun hr hg => ?_⟩
  have hp := h.present hr hg
  exact ⟨hp.stage, hp.slot, List.forall_mem_cons.mpr ⟨hp.stage.body_le_size, hp.held⟩⟩

theorem patch (h : o.Watched held w) {offset : Nat} {bs : Bytes} (hm : offset ∈ held)
    (hp : w.buffer.patch offset bs = .ok b) : o.Watched held { w with buffer := b } := by
  refine ⟨h.keeps, fun hr hg => ?_⟩
  have hpresent := h.present hr (Buffer.gone_of_patch hp ▸ hg)
  exact hpresent.patch hp (hpresent.held offset hm)

/-- When everything leaves, the value leaves with it. -/
theorem discard (h : o.Watched held w) {spare : Nat} :
    o.Watched held { w with buffer := w.buffer.discard spare } := by
  refine ⟨h.keeps, fun hr hg => ?_⟩
  rw [Buffer.gone_discard] at hg
  have hsize := (h.present hr (Nat.le_trans w.buffer.gone_le_size hg)).stage.body_le_size
  simp only [body, header] at hsize
  omega

end Watched

end Opening

end BsonWriter
