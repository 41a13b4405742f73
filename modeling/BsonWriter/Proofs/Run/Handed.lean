import BsonWriter.Proofs.Output.Delivery
import BsonWriter.Proofs.Run.TypeBytes

/-!
What a step hands over to the sink. The bytes come in the order of their offsets,
beginning with the first that is still here, and the type bytes among them show
their values at that moment (`Handed`). Streaming only hands over when no type byte
waits, so there the type bytes have their values.
-/

namespace BsonWriter

open BsonWriter.Action

/-- Since `w₀` the sink has received `bs`, and the type bytes among them show their
values. In a `strict` step all of these have one. -/
structure Handed (strict : Prop) (reserved : List TypeByte) (w₀ : Writer) (bs : Bytes)
    (sink : Sink) : Prop where
  held : sink.held = w₀.sink.held ++ bs
  takes : w₀.sink.TakesAll → sink.TakesAll
  shown : ∀ d ∈ bs.zipIdx w₀.buffer.gone, ∀ b ∈ reserved, b.offset = d.2 →
    d.1 = b.shown ∧ (strict → b.type ≠ none)

/-- In the middle of a step that began in `w₀`. -/
structure Flowing (strict : Prop) (reserved : List TypeByte) (marks : List Nat) (w₀ : Writer)
    (w : Writer) : Prop where
  tracked : Tracked reserved marks none w
  handed : ∃ bs, Handed strict reserved w₀ bs w.sink ∧
    w.buffer.gone = w₀.buffer.gone + bs.length
  grown : w₀.buffer.size ≤ w.buffer.size

/-- At the end of a step that began in `w₀`. The sink may have broken in the middle. -/
structure Flowed (strict : Prop) (reserved : List TypeByte) (marks : List Nat) (w₀ : Writer)
    (w : Writer) : Prop where
  tracked : Tracked reserved marks none w
  handed : ∃ bs, Handed strict reserved w₀ bs w.sink ∧
    w₀.buffer.gone + bs.length ≤ w.buffer.size
  grown : w₀.buffer.size ≤ w.buffer.size

section Flow

variable {strict : Prop} {reserved : List TypeByte} {marks : List Nat} {w₀ w : Writer}

theorem Flowing.flowed (h : Flowing strict reserved marks w₀ w) :
    Flowed strict reserved marks w₀ w :=
  ⟨h.tracked, h.handed.imp fun _ hb => ⟨hb.1, by rw [← hb.2]; exact w.buffer.gone_le_size⟩,
    h.grown⟩

theorem Still.flowing (h : Still w₀ w) (ht : Tracked reserved marks none w) :
    Flowing strict reserved marks w₀ w := by
  refine ⟨ht, ⟨[], ⟨?_, fun hs => by rwa [h.sink], fun d hd => by cases hd⟩, h.gone⟩, h.grown⟩
  rw [h.sink, List.append_nil]

theorem Flowed.congr (h : Flowed strict reserved marks w₀ w) {w' : Writer} {others : List Nat}
    (ht : Tracked reserved others none w') (hs : w'.sink = w.sink)
    (hsize : w.buffer.size ≤ w'.buffer.size) : Flowed strict reserved others w₀ w' := by
  obtain ⟨bs, hb, hle⟩ := h.handed
  exact ⟨ht, ⟨bs, by rwa [hs], Nat.le_trans hle hsize⟩, Nat.le_trans h.grown hsize⟩

/-- A length field may be given up. -/
theorem Flowed.mono (h : Flowed strict reserved marks w₀ w) {fewer : List Nat}
    (hf : ∀ start ∈ fewer, start ∈ marks) : Flowed strict reserved fewer w₀ w :=
  h.congr (h.tracked.mono hf) rfl (Nat.le_refl _)

theorem Flowed.of_cons {start : Nat} (h : Flowed strict reserved (start :: marks) w₀ w) :
    Flowed strict reserved marks w₀ w :=
  h.mono fun _ hm => List.mem_cons_of_mem _ hm

theorem Flowed.fail (h : Flowed strict reserved marks w₀ w) :
    Flowed strict reserved marks w₀ w.fail :=
  h.congr (h.tracked.fail none) w.sink_fail (Nat.le_of_eq (by rw [w.buffer_fail]))

theorem Flowing.congr (h : Flowing strict reserved marks w₀ w) {w' : Writer} {others : List Nat}
    (ht : Tracked reserved others none w') (hs : w'.sink = w.sink)
    (hg : w'.buffer.gone = w.buffer.gone) (hsize : w.buffer.size ≤ w'.buffer.size) :
    Flowing strict reserved others w₀ w' :=
  ⟨ht, by rw [hs, hg]; exact h.handed, Nat.le_trans h.grown hsize⟩

theorem Flowing.append (h : Flowing strict reserved marks w₀ w) (bs : Bytes) :
    Flowing strict reserved marks w₀ { w with buffer := w.buffer.append bs } :=
  h.congr (h.tracked.append bs) rfl rfl (w.buffer.size_le_append bs)

/-- The sink receives a front part of what is here. -/
theorem Flowing.handed_append (h : Flowing strict reserved marks w₀ w)
    (hc : strict → ∀ b ∈ reserved, w.buffer.gone ≤ b.offset → b.type ≠ none) {bs front : Bytes}
    {sink : Sink} (hb : Handed strict reserved w₀ bs w.sink)
    (hgone : w.buffer.gone = w₀.buffer.gone + bs.length) (hf : front <+: w.buffer.held)
    (hs : sink.held = w.sink.held ++ front) (ht : w.sink.TakesAll → sink.TakesAll) :
    Handed strict reserved w₀ (bs ++ front) sink := by
  refine ⟨by rw [hs, hb.held, List.append_assoc], fun hw => ht (hb.takes hw),
    fun d hd b hm ho => ?_⟩
  rw [List.zipIdx_append, ← hgone] at hd
  rcases List.mem_append.mp hd with hd | hd
  · exact hb.shown d hd b hm ho
  · obtain ⟨hle, hget⟩ := List.mem_zipIdx_iff_le_and_getElem?_sub.mp hd
    rw [← ho] at hle hget
    obtain ⟨rest, hrest⟩ := hf
    have hlt := (List.getElem?_eq_some_iff.mp hget).1
    have hheld := (h.tracked.shown b hm hle).getElem?
    rw [← hrest, List.getElem?_append_left hlt, hget] at hheld
    exact ⟨Option.some.inj hheld, fun hstrict => hc hstrict b hm hle⟩

/-! ## Output -/

theorem flowing_drain (h : Flowing strict reserved marks w₀ w)
    (hc : strict → ∀ b ∈ reserved, w.buffer.gone ≤ b.offset → b.type ≠ none) :
    drain.Yields w (fun _ => Flowing strict reserved marks w₀)
      (fun _ => Flowed strict reserved marks w₀) := by
  obtain ⟨bs, hb, hgone⟩ := h.handed
  have ht := fun hw : w.sink.TakesAll => Sink.takesAll_handOver hw w.buffer.held
  obtain ⟨n, -, hheld, -⟩ := w.sink.handOver_held w.buffer.held
  rw [yields_drain]
  cases hr : w.sink.handOver w.buffer.held with
  | mk result sink =>
    rw [hr] at ht hheld
    cases result with
    | error fault =>
      have hf := h.handed_append hc hb hgone (List.take_prefix ..) hheld ht
      refine ⟨h.tracked.withSink sink, ⟨_, hf, ?_⟩, h.grown⟩
      rw [List.length_append, ← Nat.add_assoc, ← hgone]
      exact Nat.add_le_add_left (List.length_take_le' ..) _
    | ok x =>
      have hf := h.handed_append hc hb hgone (List.prefix_refl _) (Sink.handOver_of_ok hr) ht
      refine ⟨h.tracked.discard.withSink sink, ⟨_, hf, ?_⟩, ?_⟩
      · rw [Buffer.gone_discard, Buffer.size, hgone, List.length_append, Nat.add_assoc]
      · rw [Buffer.size_discard]
        exact h.grown

theorem flowing_patchLength (h : Flowing strict reserved marks w₀ w) {start : Nat}
    (ha : ∀ b ∈ reserved, b.offset + 1 ≤ start ∨ start + 4 ≤ b.offset) :
    (patchLength start).Yields w (fun _ => Flowing strict reserved marks w₀)
      (fun _ => Flowed strict reserved marks w₀) := by
  rw [yields_patchLength]
  split
  · cases hp : w.buffer.patch start (lengthField (w.buffer.size - start)) with
    | error cause => exact h.flowed
    | ok b =>
      exact h.congr (h.tracked.patch hp (by simp) ha) rfl (Buffer.gone_of_patch hp)
        (Nat.le_of_eq (Buffer.size_of_patch hp).symm)
  · exact h.flowed

theorem flowing_emit (h : Flowing strict reserved marks w₀ w) (p : Payload) :
    (emit p).Yields w (fun _ => Flowing strict reserved marks w₀)
      (fun _ => Flowed strict reserved marks w₀) := by
  have hw := h.append p.written
  rw [yields_emit]
  cases p.failure with
  | none => exact hw
  | some cause => exact hw.flowed

theorem flowing_openContainer (h : Flowing strict reserved marks w₀ w) (shape : Shape) :
    (openContainer shape).Yields w (fun _ => Flowing strict reserved marks w₀)
      (fun _ => Flowed strict reserved marks w₀) := by
  rw [yields_openContainer]
  exact h.congr (h.tracked.openContainer shape) rfl rfl (w.buffer.size_le_append _)

theorem flowing_flushSink (h : Flowing strict reserved marks w₀ w)
    (hc : strict → ∀ b ∈ reserved, w.buffer.gone ≤ b.offset → b.type ≠ none) :
    flushSink.Yields w (fun _ => Flowed strict reserved marks w₀)
      (fun _ => Flowed strict reserved marks w₀) := by
  rw [yields_flushSink]
  refine (flowing_drain h hc).mono (fun _ w' hw => ?_) fun _ _ hw => hw
  obtain ⟨bs, hb, hle⟩ := hw.flowed.handed
  have ht : w₀.sink.TakesAll → w'.sink.flush.2.TakesAll :=
    fun hw => Sink.takesAll_flush (hb.takes hw)
  have hf : Flowed strict reserved marks w₀ { w' with sink := w'.sink.flush.2 } :=
    ⟨hw.tracked.withSink _, ⟨bs, ⟨hb.held, ht, hb.shown⟩, hle⟩, hw.grown⟩
  split
  · exact hf
  · exact hf

/-! ## Ends -/

/-- In a running session where no type byte waits, everything may leave. -/
theorem flowing_drain_of_slot (h : Flowing strict reserved marks w₀ w) (hr : w.phase = .running)
    (hs : w.slot = none) : drain.Yields w (fun _ => Flowing strict reserved marks w₀)
      (fun _ => Flowed strict reserved marks w₀) :=
  flowing_drain h fun _ => h.tracked.complete hr hs

/-- What ends a container that no type byte waits in. -/
theorem flowing_drainOrPatchLength (h : Flowing strict reserved marks w₀ w)
    (hr : w.phase = .running) (hs : w.slot = none) {start : Nat}
    (ha : ∀ b ∈ reserved, b.offset + 1 ≤ start ∨ start + 4 ≤ b.offset)
    (streaming : Bool) : (if streaming then drain else patchLength start).Yields w
      (fun _ => Flowing strict reserved marks w₀) (fun _ => Flowed strict reserved marks w₀) := by
  split
  · exact flowing_drain_of_slot h hr hs
  · exact flowing_patchLength h ha

theorem flowing_endContainer (h : Flowing strict reserved marks w₀ w) (hc : w.Consistent)
    (shape : Shape) : (endContainer shape).Yields w (fun _ => Flowing strict reserved marks w₀)
      (fun _ => Flowed strict reserved marks w₀) := by
  refine yields_endContainer (fun _ => h.flowed.fail) ?_ ?_
  · intro expectations e hl hcs
    have hw : Flowed strict reserved marks w₀ { w with expectations } :=
      h.flowed.congr (h.tracked.congr rfl (fun _ hm => hm) fun hr => ⟨hr, rfl⟩) rfl (Nat.le_refl _)
    exact hw.fail
  · intro expectations container containers hr hl hcs
    have hmem : container.header ∈ marks ++ w.containers.map Container.header := by
      rw [hcs]
      exact List.mem_append_right _ List.mem_cons_self
    let u : Writer := { w with
      expectations, containers, buffer := w.buffer.append [endOfDocument] }
    have hu : Flowing strict reserved marks w₀ u := by
      refine h.congr ((h.tracked.append _).congr rfl (fun start hm => ?_) fun hr => ⟨hr, rfl⟩)
        rfl rfl (w.buffer.size_le_append _)
      rw [hcs]
      exact List.mem_cons_of_mem _ hm
    have hslot : w.slot = none := slot_of_leave hc hr hl
    have ha : ∀ b ∈ reserved, b.offset + 1 ≤ container.header ∨ container.header + 4 ≤ b.offset :=
      fun b hm => h.tracked.apart b hm _ hmem
    exact (flowing_drainOrPatchLength hu hr hslot ha _).mono (fun _ _ hw => hw)
      fun _ _ hw => hw.fail

theorem flowed_endScope {mark : ScopeMark}
    (h : Flowing strict reserved (mark.start :: marks) w₀ w) (hc : w.Consistent) :
    (endScope mark).Yields w (fun _ => Flowed strict reserved marks w₀)
      (fun _ => Flowed strict reserved marks w₀) := by
  refine yields_endScope (fun _ => h.flowed.of_cons.fail) fun _ => ?_
  refine ((flowing_endContainer h hc .document).and (settled_endContainer hc .document)).mono
    (fun _ w' hw => ?_) fun _ _ hw => hw.1.of_cons.fail
  have ha : ∀ b ∈ reserved, b.offset + 1 ≤ mark.start ∨ mark.start + 4 ≤ b.offset :=
    fun b hm => hw.1.tracked.apart b hm _ (List.mem_append_left _ List.mem_cons_self)
  exact (flowing_drainOrPatchLength hw.1 hw.2.running hw.2.slotless ha _).mono
    (fun _ _ hw => hw.flowed.of_cons) fun _ _ hw => hw.of_cons.fail

theorem flowing_ends (containers : List Container) (h : Flowing strict reserved marks w₀ w)
    (hs : Settled w) : (containers.forM fun c => endContainer c.shape).Yields w
      (fun _ w' => Flowing strict reserved marks w₀ w' ∧ Settled w')
      (fun _ => Flowed strict reserved marks w₀) := by
  induction containers generalizing w with
  | nil => exact ⟨h, hs⟩
  | cons c containers ih =>
    rw [yields_forM_cons]
    refine ((flowing_endContainer h hs.consistent c.shape).and
      (settled_endContainer hs.consistent c.shape)).mono (fun _ w' hw => ?_) fun _ _ hw => hw.1
    exact ih hw.1 hw.2

/-- Ending all containers goes wrong at the first one if a type byte waits. -/
theorem flowing_endAll (h : Flowing strict reserved marks w₀ w) (hc : w.Consistent)
    (hr : w.phase = .running) (hcomplete : strict → w.options.autoClose = false →
      ∀ b ∈ reserved, w.buffer.gone ≤ b.offset → b.type ≠ none) :
    (endAll w).Yields w (fun _ w' => Flowing strict reserved marks w₀ w' ∧
        (strict → ∀ b ∈ reserved, w'.buffer.gone ≤ b.offset → b.type ≠ none))
      (fun _ => Flowed strict reserved marks w₀) := by
  unfold endAll
  cases ha : w.options.autoClose with
  | false => exact ⟨h, fun hstrict => hcomplete hstrict ha⟩
  | true =>
    cases hcs : w.containers with
    | nil =>
      have he : w.expectations = [] := by
        have haligned := hc.aligned
        rw [hcs] at haligned
        exact List.forall₂_nil_right_iff.mp haligned
      have hs : w.slot = none := hc.slot_eq_none hr (by simp [he])
      exact ⟨h, fun _ => h.tracked.complete hr hs⟩
    | cons c containers =>
      rw [if_pos rfl, yields_forM_cons]
      refine ((flowing_endContainer h hc c.shape).and (settled_endContainer hc c.shape)).mono
        (fun _ w' hw => ?_) fun _ _ hw => hw.1
      refine (flowing_ends containers hw.1 hw.2).mono (fun _ v hv => ?_) fun _ _ hv => hv
      exact ⟨hv.1, fun _ => hv.1.tracked.complete hv.2.running hv.2.slotless⟩

theorem flowed_flush (h : Flowing strict reserved marks w₀ w)
    (hcomplete : strict → w.phase ≠ .closed →
      ∀ b ∈ reserved, w.buffer.gone ≤ b.offset → b.type ≠ none) :
    flush.Yields w (fun _ => Flowed strict reserved marks w₀)
      (fun _ => Flowed strict reserved marks w₀) := by
  refine yields_flush (fun _ => h.flowed.fail) fun hp => ?_
  exact (flowing_flushSink h fun hstrict => hcomplete hstrict hp).mono (fun _ _ hw => hw)
    fun _ _ hw => hw.fail

theorem flowed_close (h : Flowing strict reserved marks w₀ w) (hc : w.Consistent)
    (hcomplete : strict → w.phase = .running → w.options.autoClose = false →
      ∀ b ∈ reserved, w.buffer.gone ≤ b.offset → b.type ≠ none) :
    close.Yields w (fun _ => Flowed strict reserved marks w₀)
      (fun _ => Flowed strict reserved marks w₀) := by
  refine yields_close (fun _ => h.flowed) (fun _ => ?_) fun hr => ?_
  · exact h.flowed.congr h.tracked.discard.closed rfl (Nat.le_of_eq (Buffer.size_discard ..).symm)
  · refine (flowing_endAll h hc hr fun hstrict => hcomplete hstrict hr).mono (fun _ w' hw => ?_)
      fun _ _ hw => hw
    refine (flowing_flushSink hw.1 hw.2).mono (fun _ v hv => ?_) fun _ _ hv => hv.fail
    exact hv.congr hv.tracked.closed rfl (Nat.le_refl _)

end Flow

/-! ## Steps -/

section Steps

variable {strict : Prop} {reserved : List TypeByte} {marks : List Nat} {slot : Option Nat}
  {w₀ w : Writer}

/-- A step that begins with a value's type byte goes on with the value. -/
theorem flowed_take {α : Type} {f : Option Nat → Action α} {R : List TypeByte → α → Writer → Prop}
    (h : Tracked reserved marks none w) (hc : w.Consistent) (kind : ValueKind)
    (activity : Activity) (type : ElementType)
    (hf : ∀ rs slot v, Tracked rs marks slot v → Settled v → Still w v →
      (f slot).Yields v (R (TypeByte.assign rs slot type))
        (fun _ => Flowed strict (TypeByte.assign rs slot type) marks w)) :
    (takePosition kind activity >>= f).Yields w
      (R (TypeByte.take reserved w kind activity type))
      (fun _ => Flowed strict (TypeByte.take reserved w kind activity type) marks w) := by
  have ht := (tracked_takePosition h kind activity).and (settled_takePosition hc)
  rw [yields_andThen, TypeByte.take]
  unfold Yields at ht ⊢
  cases hr : (takePosition kind activity).run w with
  | error e v =>
    rw [hr] at ht
    exact (ht.1.2.flowing ht.1.1).flowed
  | ok slot v =>
    rw [hr] at ht
    exact hf _ slot v ht.1.1 ht.2 ht.1.2

theorem flowed_drop (h : Tracked reserved marks none w) (activity : Activity) :
    (drop activity).Yields w
      (fun _ => Flowed strict (TypeByte.reserve reserved w
        ((takePosition .scalar activity).after w)) marks w)
      (fun _ => Flowed strict (TypeByte.reserve reserved w
        ((takePosition .scalar activity).after w)) marks w) := by
  have ht := tracked_takePosition h .scalar activity
  simp only [drop, yields_andThen, yields_modify]
  unfold Yields at ht ⊢
  cases hr : (takePosition .scalar activity).run w with
  | error e v =>
    rw [hr] at ht
    rw [after_of_error hr]
    exact (ht.2.flowing ht.1).flowed
  | ok slot v =>
    rw [hr] at ht
    rw [after_of_ok hr]
    exact (ht.2.fail.flowing (ht.1.fail none)).flowed

theorem flowed_writeTo (value : Scalar) (h : Tracked reserved marks slot w) (hs : Settled w)
    (hstill : Still w₀ w) : (writeTo value slot).Yields w
      (fun _ => Flowed strict
        (TypeByte.assign reserved slot (value.primitive w₀.options).type) marks w₀)
      (fun _ => Flowed strict
        (TypeByte.assign reserved slot (value.primitive w₀.options).type) marks w₀) := by
  rw [← hstill.options]
  simp only [writeTo, yields_tracked, yields_andThen, yields_get]
  refine ((tracked_fillScalar h hs.slotless _).and (settled_fillScalar slot _ w hs)).mono
    (fun _ v hv => ?_) fun _ v hv => ((hstill.trans hv.1.2).flowing hv.1.1).flowed.fail
  have hflow := @Still.flowing strict _ _ _ _ (hstill.trans hv.1.2) hv.1.1
  refine ((flowing_emit hflow _).and (settled_emit _ v hv.2)).mono (fun _ u hu => ?_)
    fun _ _ hu => hu.1.fail
  rw [yields_drainIfStreaming]
  split
  · exact (flowing_drain_of_slot hu.1 hu.2.running hu.2.slotless).mono (fun _ _ hw => hw.flowed)
      fun _ _ hw => hw.fail
  · exact hu.1.flowed

theorem flowed_openAt (shape : Shape) (h : Tracked reserved marks slot w) (hs : Settled w)
    (hstill : Still w₀ w) : (openAt shape slot).Yields w
      (fun _ => Flowed strict (TypeByte.assign reserved slot shape.elementType) marks w₀)
      (fun _ => Flowed strict (TypeByte.assign reserved slot shape.elementType) marks w₀) := by
  simp only [openAt, yields_tracked, yields_andThen]
  refine (tracked_fill h hs.slotless _).mono (fun _ v hv => ?_)
    fun _ v hv => ((hstill.trans hv.2).flowing hv.1).flowed.fail
  exact (flowing_openContainer ((hstill.trans hv.2).flowing hv.1) shape).mono
    (fun _ _ hw => hw.flowed) fun _ _ hw => hw.fail

/-- The total length of a scope is one more length field. -/
theorem flowed_openScopeAt (code : String) (h : Tracked reserved marks slot w) (hs : Settled w)
    (hstill : Still w₀ w) : (openScopeAt code slot).Yields w
      (fun mark => Flowed strict (TypeByte.assign reserved slot .javaScriptCodeWithScope)
        (mark.start :: marks) w₀)
      (fun _ => Flowed strict (TypeByte.assign reserved slot .javaScriptCodeWithScope)
        marks w₀) := by
  simp only [openScopeAt, yields_tracked, yields_andThen, yields_get, yields_offset,
    yields_append, yields_pure]
  refine (tracked_fillScalar h hs.slotless _).mono (fun _ v hv => ?_)
    fun _ v hv => ((hstill.trans hv.2).flowing hv.1).flowed.fail
  have hflow := @Still.flowing strict _ _ _ _ (hstill.trans hv.2) hv.1
  have hmark := hv.1.mark_size (length_lengthField 0)
  refine (flowing_emit (hflow.congr hmark rfl rfl (v.buffer.size_le_append _)) _).mono
    (fun _ u hu => ?_) fun _ _ hu => hu.of_cons.fail
  exact (flowing_openContainer hu .document).mono (fun _ _ hw => hw.flowed)
    fun _ _ hw => hw.of_cons.fail

end Steps

end BsonWriter
