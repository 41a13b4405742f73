import BsonWriter.Proofs.Run.Consistent
import BsonWriter.Proofs.Run.Trail
import BsonWriter.Proofs.Wire.Value

/-!
Which type bytes reach a sink. Until it leaves, a type byte stands where it was
reserved, with the tag of the value that has taken it or with zero (`Tracked`).
-/

namespace BsonWriter

open BsonWriter.Action

/-- The record of the type bytes agrees with the session. No length field lies on one
of them, those that are here show their value, and in a running session those
without a value are the one that waits and the one that has just been `taken`. -/
structure Tracked (reserved : List TypeByte) (marks : List Nat) (taken : Option Nat)
    (w : Writer) : Prop where
  lt_size : ∀ b ∈ reserved, b.offset < w.buffer.size
  apart : ∀ b ∈ reserved, ∀ start ∈ marks ++ w.containers.map Container.header,
    b.offset + 1 ≤ start ∨ start + 4 ≤ b.offset
  fits : ∀ start ∈ marks ++ w.containers.map Container.header, start + 4 ≤ w.buffer.size
  shown : ∀ b ∈ reserved, w.buffer.gone ≤ b.offset → w.buffer.Holds b.offset [b.shown]
  waits : w.phase = .running → ∀ b ∈ reserved, w.buffer.gone ≤ b.offset → b.type = none →
    w.slot = some b.offset ∨ taken = some b.offset
  untyped : w.phase = .running → ∀ b ∈ reserved,
    w.slot = some b.offset ∨ taken = some b.offset → b.type = none

namespace Tracked

variable {reserved : List TypeByte} {marks : List Nat} {taken : Option Nat} {w : Writer}

/-- Only the output, the containers and the type byte that waits matter. -/
theorem congr (h : Tracked reserved marks taken w) {w' : Writer} (hb : w'.buffer = w.buffer)
    (hc : ∀ start ∈ w'.containers.map Container.header,
      start ∈ w.containers.map Container.header)
    (hs : w'.phase = .running → w.phase = .running ∧ w'.slot = w.slot) :
    Tracked reserved marks taken w' := by
  have hsub : ∀ start ∈ marks ++ w'.containers.map Container.header,
      start ∈ marks ++ w.containers.map Container.header := by
    intro start hm
    rcases List.mem_append.mp hm with hm | hm
    · exact List.mem_append_left _ hm
    · exact List.mem_append_right _ (hc start hm)
  refine ⟨?_, fun b hm start hst => h.apart b hm start (hsub start hst), ?_, ?_, ?_, ?_⟩
  · rw [hb]
    exact h.lt_size
  · rw [hb]
    exact fun start hst => h.fits start (hsub start hst)
  · rw [hb]
    exact h.shown
  · intro hr
    rw [hb, (hs hr).2]
    exact h.waits (hs hr).1
  · intro hr
    rw [(hs hr).2]
    exact h.untyped (hs hr).1

theorem withSink (h : Tracked reserved marks taken w) (sink : Sink) :
    Tracked reserved marks taken { w with sink } :=
  h.congr rfl (fun _ hm => hm) fun hr => ⟨hr, rfl⟩

/-- A session that does not run any more waits for nothing. -/
theorem stopped (h : Tracked reserved marks taken w) {w' : Writer} (hb : w'.buffer = w.buffer)
    (hc : w'.containers = w.containers) (hp : w'.phase ≠ .running) (other : Option Nat) :
    Tracked reserved marks other w' := by
  have hw : Tracked reserved marks taken w' :=
    h.congr hb (by rw [hc]; exact fun _ hm => hm) fun hr => absurd hr hp
  exact ⟨hw.lt_size, hw.apart, hw.fits, hw.shown, fun hr => absurd hr hp, fun hr => absurd hr hp⟩

theorem fail (h : Tracked reserved marks taken w) (other : Option Nat) :
    Tracked reserved marks other w.fail :=
  h.stopped w.buffer_fail w.containers_fail w.phase_fail other

theorem closed (h : Tracked reserved marks taken w) :
    Tracked reserved marks none { w with phase := .closed } :=
  @stopped _ _ _ _ h { w with phase := .closed } rfl rfl Phase.noConfusion none

/-- A length field may be given up. -/
theorem mono (h : Tracked reserved marks taken w) {fewer : List Nat}
    (hf : ∀ start ∈ fewer, start ∈ marks) : Tracked reserved fewer taken w := by
  have hsub : ∀ start ∈ fewer ++ w.containers.map Container.header,
      start ∈ marks ++ w.containers.map Container.header := by
    intro start hm
    rcases List.mem_append.mp hm with hm | hm
    · exact List.mem_append_left _ (hf start hm)
    · exact List.mem_append_right _ hm
  exact ⟨h.lt_size, fun b hm start hst => h.apart b hm start (hsub start hst),
    fun start hst => h.fits start (hsub start hst), h.shown, h.waits, h.untyped⟩

/-! ## Output -/

theorem append (h : Tracked reserved marks taken w) (bs : Bytes) :
    Tracked reserved marks taken { w with buffer := w.buffer.append bs } := by
  refine ⟨fun b hm => ?_, h.apart, fun start hm => ?_, fun b hm hg => ?_, h.waits, h.untyped⟩
  · have hlt := h.lt_size b hm
    rw [Buffer.size_append]
    omega
  · have hfits := h.fits start hm
    rw [Buffer.size_append]
    omega
  · exact (h.shown b hm hg).append bs

/-- A length field is filled. -/
theorem patch (h : Tracked reserved marks taken w) {start : Nat} {bs : Bytes} {c : Buffer}
    (hp : w.buffer.patch start bs = .ok c) (hl : bs.length = 4)
    (ha : ∀ b ∈ reserved, b.offset + 1 ≤ start ∨ start + 4 ≤ b.offset) :
    Tracked reserved marks taken { w with buffer := c } := by
  have hsize := Buffer.size_of_patch hp
  have hgone := Buffer.gone_of_patch hp
  refine ⟨?_, h.apart, ?_, fun b hm hg => ?_, ?_, h.untyped⟩
  · simpa only [hsize] using h.lt_size
  · simpa only [hsize] using h.fits
  · rw [hgone] at hg
    exact (h.shown b hm hg).patch hp (by rw [hl]; exact (ha b hm).symm)
  · simpa only [hgone] using h.waits

theorem discard (h : Tracked reserved marks taken w) {spare : Nat} :
    Tracked reserved marks taken { w with buffer := w.buffer.discard spare } := by
  have hnone : ∀ b ∈ reserved, ¬w.buffer.size ≤ b.offset :=
    fun b hm => Nat.not_le_of_lt (h.lt_size b hm)
  refine ⟨?_, h.apart, ?_, fun b hm hg => ?_, fun _ b hm hg => ?_, h.untyped⟩
  · simpa only [Buffer.size_discard] using h.lt_size
  · simpa only [Buffer.size_discard] using h.fits
  · exact absurd hg (hnone b hm)
  · exact absurd hg (hnone b hm)

/-- A new length field at the end of the output. -/
theorem mark_size (h : Tracked reserved marks taken w) {bs : Bytes} (hl : bs.length = 4) :
    Tracked reserved (w.buffer.size :: marks) taken { w with buffer := w.buffer.append bs } := by
  have hw := h.append bs
  refine ⟨hw.lt_size, fun b hm => ?_, ?_, hw.shown, hw.waits, hw.untyped⟩
  · exact List.forall_mem_cons.mpr ⟨.inl (h.lt_size b hm), h.apart b hm⟩
  · refine List.forall_mem_cons.mpr ⟨?_, hw.fits⟩
    rw [Buffer.size_append]
    omega

theorem openContainer (h : Tracked reserved marks taken w) (shape : Shape) :
    Tracked reserved marks taken { w with
      buffer := w.buffer.append (lengthField 0)
      containers := .start w.buffer.size shape :: w.containers
      expectations := shape.expectation :: w.expectations } := by
  have hw := h.mark_size (length_lengthField 0)
  have hsub : ∀ start ∈ marks ++ w.buffer.size :: w.containers.map Container.header,
      start ∈ w.buffer.size :: marks ++ w.containers.map Container.header := by
    intro start hm
    simpa [or_left_comm] using hm
  refine ⟨hw.lt_size, fun b hm start hst => hw.apart b hm start (hsub start ?_),
    fun start hst => hw.fits start (hsub start ?_), hw.shown, hw.waits, hw.untyped⟩
  · simpa using hst
  · simpa using hst

/-- In a running session where no type byte waits, all have their values. -/
theorem complete (h : Tracked reserved marks none w) (hr : w.phase = .running)
    (hs : w.slot = none) : ∀ b ∈ reserved, w.buffer.gone ≤ b.offset → b.type ≠ none := by
  intro b hm hg ht
  rcases h.waits hr b hm hg ht with hw | hw
  · rw [hs] at hw
    cases hw
  · cases hw

end Tracked

/-! ## Taking type bytes -/

/-- Nothing has been handed over since `w₀`. -/
structure Still (w₀ w : Writer) : Prop where
  sink : w.sink = w₀.sink
  gone : w.buffer.gone = w₀.buffer.gone
  options : w.options = w₀.options
  grown : w₀.buffer.size ≤ w.buffer.size

namespace TypeByte

variable {reserved : List TypeByte} {w w' : Writer} {slot : Option Nat} {type : ElementType}

theorem reserve_of_buffer (h : w'.buffer = w.buffer) : reserve reserved w w' = reserved := by
  rw [reserve, h, if_neg (Nat.lt_irrefl _)]

theorem reserve_append {bs : Bytes} (h : w'.buffer = w.buffer.append (0 :: bs)) :
    reserve reserved w w' = reserved ++ [⟨w.buffer.size, none⟩] := by
  rw [reserve, h, if_pos (by rw [Buffer.size_append, List.length_cons]; omega)]

/-- A type byte afterwards is one from before, with a type if it has been taken. -/
theorem exists_of_assign {b : TypeByte} (h : b ∈ assign reserved slot type) :
    ∃ c ∈ reserved, b.offset = c.offset ∧
      (slot = some c.offset ∧ b.type = some type ∨ slot ≠ some c.offset ∧ b = c) := by
  obtain ⟨c, hc, rfl⟩ := List.mem_map.mp h
  by_cases hs : slot = some c.offset
  · exact ⟨c, hc, by rw [if_pos hs], .inl ⟨hs, by rw [if_pos hs]⟩⟩
  · exact ⟨c, hc, by rw [if_neg hs], .inr ⟨hs, by rw [if_neg hs]⟩⟩

end TypeByte

section Taking

variable {reserved : List TypeByte} {marks : List Nat} {w₀ w : Writer}

theorem Still.refl (w : Writer) : Still w w := ⟨rfl, rfl, rfl, Nat.le_refl _⟩

theorem Still.trans {v : Writer} (h : Still w₀ w) (h' : Still w v) : Still w₀ v :=
  ⟨h'.sink.trans h.sink, h'.gone.trans h.gone, h'.options.trans h.options,
    Nat.le_trans h.grown h'.grown⟩

theorem Still.fail (h : Still w₀ w) : Still w₀ w.fail :=
  ⟨by rw [w.sink_fail, h.sink], by rw [w.buffer_fail, h.gone], by rw [w.options_fail, h.options],
    by rw [w.buffer_fail]; exact h.grown⟩

/-- A new type byte, with the name after it. -/
theorem Tracked.reserve (h : Tracked reserved marks none w) (bs : Bytes) :
    Tracked (reserved ++ [⟨w.buffer.size, none⟩]) marks (some w.buffer.size)
      { w with buffer := w.buffer.append (0 :: bs) } := by
  have hw := h.append (0 :: bs)
  have hzero := (Buffer.Holds.append_iff.mp (Buffer.holds_append_self w.buffer ([0] ++ bs))).1
  refine ⟨?_, ?_, hw.fits, ?_, fun hr => ?_, fun hr => ?_⟩ <;>
    rw [List.forall_mem_append, List.forall_mem_singleton]
  · refine ⟨hw.lt_size, ?_⟩
    show w.buffer.size < (w.buffer.append (0 :: bs)).size
    rw [Buffer.size_append, List.length_cons]
    omega
  · exact ⟨h.apart, fun start hst => .inr (h.fits start hst)⟩
  · exact ⟨hw.shown, fun _ => hzero⟩
  · refine ⟨fun b hm hg ht => ?_, fun _ _ => .inr rfl⟩
    rcases hw.waits hr b hm hg ht with hs | hs
    · exact .inl hs
    · cases hs
  · refine ⟨fun b hm hs => ?_, fun _ => rfl⟩
    rcases hs with hs | hs
    · exact h.untyped hr b hm (.inl hs)
    · exact absurd (Option.some.inj hs).symm (Nat.ne_of_lt (h.lt_size b hm))

theorem tracked_takePosition (h : Tracked reserved marks none w) (kind : ValueKind)
    (activity : Activity) : (takePosition kind activity).Yields w
      (fun slot w' => Tracked (TypeByte.reserve reserved w w') marks slot w' ∧ Still w w')
      (fun _ w' => Tracked (TypeByte.reserve reserved w w') marks none w' ∧ Still w w') := by
  refine yields_takePosition (fun _ => ?_) ?_ ?_
  · rw [TypeByte.reserve_of_buffer w.buffer_fail]
    exact ⟨h.fail none, (Still.refl w).fail⟩
  · intro expectations hr ha hn
    let u : Writer := { w with expectations, slot := none }
    rw [show TypeByte.reserve reserved w u = reserved from TypeByte.reserve_of_buffer rfl]
    refine ⟨⟨h.lt_size, h.apart, h.fits, h.shown, fun _ b hm hg ht => ?_, fun _ b hm hs => ?_⟩,
      rfl, rfl, rfl, Nat.le_refl _⟩
    · exact (h.waits hr b hm hg ht).symm.imp (fun hs => by cases hs) id
    · exact h.untyped hr b hm (hs.symm.imp id fun hs => by cases hs)
  · intro expectations index containers bs hr ha hn
    let u : Writer := { w with
      expectations, containers, buffer := w.buffer.append (0 :: bs) }
    have hu : Tracked (reserved ++ [⟨w.buffer.size, none⟩]) marks (some w.buffer.size) u :=
      (h.reserve bs).congr rfl (by rw [Container.header_nextElement hn]; exact fun _ hm => hm)
        fun hr => ⟨hr, rfl⟩
    have hstill : Still w u := ⟨rfl, rfl, rfl, w.buffer.size_le_append _⟩
    refine ⟨?_, fun _ => ?_⟩
    · rw [TypeByte.reserve_append rfl]
      exact ⟨hu, hstill⟩
    · rw [TypeByte.reserve_append u.buffer_fail]
      exact ⟨hu.fail none, hstill.fail⟩

theorem tracked_fieldName (h : Tracked reserved marks none w) (hc : w.Consistent)
    (name : String) : (fieldName name).Yields w
      (fun _ w' => Tracked (TypeByte.reserve reserved w w') marks none w' ∧ Still w w')
      (fun _ w' => Tracked (TypeByte.reserve reserved w w') marks none w' ∧ Still w w') := by
  refine yields_fieldName (fun _ => ?_) fun expectations bs hr ha => ?_
  · rw [TypeByte.reserve_of_buffer w.buffer_fail]
    exact ⟨h.fail none, (Still.refl w).fail⟩
  · let u : Writer := { w with expectations, buffer := w.buffer.append (0 :: bs) }
    have hu : Tracked (reserved ++ [⟨w.buffer.size, none⟩]) marks (some w.buffer.size) u :=
      (h.reserve bs).congr rfl (fun _ hm => hm) fun hr => ⟨hr, rfl⟩
    have hstill : Still w u := ⟨rfl, rfl, rfl, w.buffer.size_le_append _⟩
    have hslot : u.slot = none := hc.slot_eq_none hr fun rest he => by rw [he] at ha; cases ha
    refine ⟨?_, fun _ => ?_⟩
    · rw [TypeByte.reserve_append rfl]
      refine ⟨⟨hu.lt_size, hu.apart, hu.fits, hu.shown, fun _ b hm hg ht => ?_,
        fun _ b hm hs => ?_⟩, rfl, rfl, rfl, w.buffer.size_le_append _⟩
      · rcases hu.waits hr b hm hg ht with hs | hs
        · rw [hslot] at hs
          cases hs
        · exact .inl hs
      · rcases hs with hs | hs
        · exact hu.untyped hr b hm (.inr hs)
        · cases hs
    · rw [TypeByte.reserve_append u.buffer_fail]
      exact ⟨hu.fail none, hstill.fail⟩

/-- The value that has taken a type byte fills it, unless it has already left. -/
theorem Tracked.assign {slot : Option Nat} (h : Tracked reserved marks slot w)
    (hs : w.slot = none) (type : ElementType) {b : Buffer} (hsize : b.size = w.buffer.size)
    (hgone : b.gone = w.buffer.gone)
    (hshown : ∀ c ∈ reserved, w.buffer.gone ≤ c.offset →
      if slot = some c.offset then b.Holds c.offset [type.tag] else b.Holds c.offset [c.shown]) :
    Tracked (TypeByte.assign reserved slot type) marks none { w with buffer := b } := by
  refine ⟨fun c hm => ?_, fun c hm => ?_, ?_, fun c hm hg => ?_, fun hr c hm hg ht => ?_,
    fun _ c hm hw => ?_⟩
  · obtain ⟨d, hd, ho, -⟩ := TypeByte.exists_of_assign hm
    rw [ho, hsize]
    exact h.lt_size d hd
  · obtain ⟨d, hd, ho, -⟩ := TypeByte.exists_of_assign hm
    rw [ho]
    exact h.apart d hd
  · rw [hsize]
    exact h.fits
  · obtain ⟨d, hd, ho, ⟨hslot, ht⟩ | ⟨hslot, rfl⟩⟩ := TypeByte.exists_of_assign hm
    · rw [ho, hgone] at hg
      have hholds := hshown d hd hg
      rw [if_pos hslot] at hholds
      rw [ho, TypeByte.shown, ht]
      exact hholds
    · rw [hgone] at hg
      have hholds := hshown c hd hg
      rwa [if_neg hslot] at hholds
  · obtain ⟨d, hd, ho, ⟨hslot, htype⟩ | ⟨hslot, rfl⟩⟩ := TypeByte.exists_of_assign hm
    · rw [htype] at ht
      cases ht
    · rw [hgone] at hg
      rcases h.waits hr c hd hg ht with hw | hw
      · exact .inl hw
      · exact absurd hw hslot
  · rcases hw with hw | hw
    · rw [hs] at hw
      cases hw
    · cases hw

theorem tracked_fill {slot : Option Nat} (h : Tracked reserved marks slot w)
    (hs : w.slot = none) (type : ElementType) : (fill slot type).Yields w
      (fun _ w' => Tracked (TypeByte.assign reserved slot type) marks none w' ∧ Still w w')
      (fun _ w' => Tracked (TypeByte.assign reserved slot type) marks none w' ∧ Still w w') := by
  have hsame : (∀ c ∈ reserved, w.buffer.gone ≤ c.offset → slot ≠ some c.offset) →
      Tracked (TypeByte.assign reserved slot type) marks none w ∧ Still w w := by
    intro hne
    refine ⟨h.assign hs type rfl rfl fun c hm hg => ?_, Still.refl w⟩
    rw [if_neg (hne c hm hg)]
    exact h.shown c hm hg
  cases slot with
  | none => exact hsame fun _ _ _ hn => by cases hn
  | some start =>
    rw [fill, yields_patch]
    cases hp : w.buffer.patch start [type.tag] with
    | error cause =>
      refine hsame fun c hm hg hn => ?_
      obtain ⟨b, hb⟩ := @Buffer.patch_of_le w.buffer c.offset [type.tag] hg (h.lt_size c hm)
      rw [← Option.some.inj hn, hp] at hb
      cases hb
    | ok b =>
      refine ⟨h.assign hs type (Buffer.size_of_patch hp) (Buffer.gone_of_patch hp)
        fun c hm hg => ?_, rfl, Buffer.gone_of_patch hp, rfl,
          Nat.le_of_eq (Buffer.size_of_patch hp).symm⟩
      split
      · rename_i hn
        rw [← Option.some.inj hn]
        exact Buffer.holds_patch_self hp
      · rename_i hn
        have hne : start ≠ c.offset := fun he => hn (by rw [he])
        refine (h.shown c hm hg).patch hp ?_
        simp only [List.length_singleton]
        omega

theorem tracked_fillScalar {slot : Option Nat} (h : Tracked reserved marks slot w)
    (hs : w.slot = none) (type : ElementType) : (fillScalar slot type).Yields w
      (fun _ w' => Tracked (TypeByte.assign reserved slot type) marks none w' ∧ Still w w')
      (fun _ w' => Tracked (TypeByte.assign reserved slot type) marks none w' ∧ Still w w') := by
  cases slot with
  | none => exact tracked_fill h hs type
  | some start => exact tracked_fill h hs type

end Taking

end BsonWriter
