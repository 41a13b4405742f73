import BsonWriter.Proofs.Run.Growth
import BsonWriter.Proofs.Run.Paired
import BsonWriter.Proofs.Streaming.Twin

/-!
Every step but a flush does the same in two twins and leaves them twins, as long as the one that
keeps its output has written no more than a length field can hold (`Writer.Outgrown`).
-/

namespace BsonWriter

/-- A length field cannot hold how much has been written. -/
def Writer.Outgrown (w : Writer) : Prop := w.Reaches lengthBound

theorem Writer.robust_outgrown : Robust Outgrown := robust_reaches lengthBound

theorem Writer.not_outgrown {w : Writer} (h : w.buffer.size < lengthBound) : ¬w.Outgrown :=
  Nat.not_le_of_lt h

namespace Action

open Writer (Consistent Outgrown robust_outgrown)

section Pieces

variable {lost : Prop} {before before' : Bytes} {fields : List Nat} {w v : Writer}

/-- Twins between two values. -/
def Side (lost : Prop) (before before' : Bytes) (fields : List Nat) (w v : Writer) : Prop :=
  Twin lost before before' fields w v ∧ Settled w

theorem twin_takePosition (h : Twin lost before before' fields w v) (hc : w.Consistent)
    (kind : ValueKind) (activity : Activity) :
    Paired Outgrown (takePosition kind activity) w v
      (fun slot w' v' => Side lost before before' fields w' v' ∧
        ∀ start, slot = some start → Free fields v'.buffer start)
      (Twin lost before before' fields) := by
  have hpaired : Paired Outgrown (takePosition kind activity) w v
      (fun slot w' v' => Twin lost before before' fields w' v' ∧
        ∀ start, slot = some start → Free fields v'.buffer start)
      (Twin lost before before' fields) := by
    refine paired_takePosition h.alike h.fail (fun expectations hr _ _ => ?_)
      fun expectations index containers bs hr _ hn => ?_
    · have hv := h.proceed expectations w.containers none h.listed nofun
      have hfree := h.waiting hr
      obtain ⟨sink, buffer, rfl⟩ := h.exists_streamed
      exact ⟨hv, hfree⟩
    · have hlisted : ∀ c ∈ containers, c.header ∈ fields := by
        intro c hm
        have hmem := List.mem_map_of_mem (f := Container.header) hm
        rw [Container.header_nextElement hn] at hmem
        obtain ⟨d, hd, he⟩ := List.mem_map.mp hmem
        rw [← he]
        exact h.listed d hd
      have happend := h.append (0 :: bs)
      have hv := happend.proceed expectations containers w.slot hlisted happend.waiting
      have hfree := h.free_append 0 bs
      obtain ⟨sink, buffer, rfl⟩ := h.exists_streamed
      refine ⟨⟨hv, fun start hs => ?_⟩, hv.fail⟩
      cases hs
      exact hfree
  refine (hpaired.and (settled_takePosition hc)).mono (fun slot w' v' hv => ?_) fun _ _ hv => hv
  exact ⟨⟨hv.1.1, hv.2⟩, hv.1.2⟩

theorem twin_fieldName (h : Twin lost before before' fields w v) (name : String) :
    Paired Outgrown (fieldName name) w v (fun _ => Twin lost before before' fields)
      (Twin lost before before' fields) := by
  refine paired_fieldName h.alike h.fail fun expectations bs hr _ => ?_
  have happend := h.append (0 :: bs)
  have hwaits := happend.proceed expectations w.containers (some w.buffer.size) h.listed
    fun _ start hs => by
      cases hs
      exact h.free_append 0 bs
  have hrefused := happend.proceed expectations w.containers w.slot h.listed
    happend.waiting
  obtain ⟨sink, buffer, rfl⟩ := h.exists_streamed
  exact ⟨hwaits, hrefused.fail⟩

theorem twin_checkArray (h : Twin lost before before' fields w v) :
    Paired Outgrown checkArray w v (fun _ => Twin lost before before' fields)
      (Twin lost before before' fields) :=
  paired_checkArray h.alike h.fail h

/-! ## What a value is made of -/

theorem twin_fill (h : Side lost before before' fields w v) {slot : Option Nat}
    (hf : ∀ start, slot = some start → Free fields v.buffer start) (type : ElementType) :
    Paired Outgrown (fill slot type) w v (fun _ => Side lost before before' fields)
      (Side lost before before' fields) := by
  cases slot with
  | none => exact paired_pure h
  | some start =>
    obtain ⟨b, c, hb, hc, hv, -⟩ := h.1.patch h.2.running (hf start rfl) type.tag
    have hw := h.2.withBuffer (Nat.le_of_eq (Buffer.size_of_patch hb).symm)
    unfold Paired
    simp only [fill, yields_patch, hb, hc]
    exact fun _ => ⟨trivial, hv, hw⟩

theorem twin_fillScalar (h : Side lost before before' fields w v) {slot : Option Nat}
    (hf : ∀ start, slot = some start → Free fields v.buffer start) (type : ElementType) :
    Paired Outgrown (fillScalar slot type) w v (fun _ => Side lost before before' fields)
      (Side lost before before' fields) := by
  cases slot with
  | none => exact paired_raise h
  | some start => exact twin_fill h hf type

theorem twin_emit (h : Side lost before before' fields w v) (p : Payload) :
    Paired Outgrown (emit p) w v (fun _ => Side lost before before' fields)
      (Side lost before before' fields) := by
  have hv : Side lost before before' fields { w with buffer := w.buffer.append p.written }
      { v with buffer := v.buffer.append p.written } :=
    ⟨h.1.append p.written, h.2.withBuffer (w.buffer.size_le_append _)⟩
  unfold Paired
  simp only [yields_emit]
  cases p.failure with
  | none => exact fun _ => ⟨trivial, hv⟩
  | some cause => exact fun _ => ⟨rfl, hv⟩

/-- Only one of them streams. -/
theorem twin_drainIfStreaming (h : Side lost before before' fields w v) :
    Paired Outgrown drainIfStreaming w v
      (fun _ w' v' => Side lost before before' fields w' v' ∧ v'.buffered = [])
      (Side lost before before' fields) := by
  obtain ⟨sink, hok, hv⟩ := h.1.drain h.2.running h.2.slotless
  unfold Paired
  simp only [yields_drainIfStreaming, h.1.keeps, h.1.streams, if_true, Bool.false_eq_true,
    if_false, yields_drain, hok]
  exact fun _ => ⟨trivial, ⟨hv, h.2⟩, rfl⟩

/-- What is written of a scalar does not depend on streaming. -/
theorem primitive_streaming (value : Scalar) (options : Options) (streaming : Bool) :
    value.primitive { options with streaming } = value.primitive options := by
  cases value <;> rfl

theorem twin_writeTo (h : Side lost before before' fields w v) {slot : Option Nat}
    (hf : ∀ start, slot = some start → Free fields v.buffer start) (value : Scalar) :
    Paired Outgrown (writeTo value slot) w v
      (fun _ w' v' => Twin lost before before' fields w' v' ∧ v'.buffered = [])
      (Twin lost before before' fields) := by
  refine paired_tracked robust_outgrown.failed (paired_get ?_ ?_)
  · obtain ⟨sink, buffer, rfl⟩ := h.1.exists_streamed
    simp only [Writer.options_streamed, Writer.escapes_streamed, primitive_streaming]
  · refine paired_andThen ((twin_fillScalar h hf _).mono (fun _ w₁ v₁ h₁ => ?_)
      fun _ _ h₁ => h₁.1.fail) fun _ => ?_
    · refine paired_andThen ((twin_emit h₁ _).mono (fun _ w₂ v₂ h₂ => ?_)
        fun _ _ h₂ => h₂.1.fail) fun _ => robust_outgrown.drainIfStreaming
      exact (twin_drainIfStreaming h₂).mono (fun _ _ _ h₃ => ⟨h₃.1.1, h₃.2⟩) fun _ _ h₃ =>
        h₃.1.fail
    · exact Keeps.andThen (robust_outgrown.emit _) fun _ =>
        robust_outgrown.drainIfStreaming

/-- A container begins, and its length field is one more. -/
theorem twin_openContainer (h : Side lost before before' fields w v) (shape : Shape)
    {E : Writer → Writer → Prop} : Paired Outgrown (openContainer shape) w v
      (fun _ w' => Twin lost before before' (w'.containers.map Container.header ++ fields) w')
      E := by
  unfold Paired
  simp only [yields_openContainer]
  exact fun _ => ⟨trivial, (h.1.begun shape).current_of_open (by simp)⟩

theorem twin_openAt (h : Side lost before before' fields w v) {slot : Option Nat}
    (hf : ∀ start, slot = some start → Free fields v.buffer start) (shape : Shape) :
    Paired Outgrown (openAt shape slot) w v
      (fun _ w' => Twin lost before before' (w'.containers.map Container.header ++ fields) w')
      (fun w' => Twin lost before before' (w'.containers.map Container.header ++ fields) w') :=
  paired_tracked robust_outgrown.failed (paired_andThen ((twin_fill h hf _).mono
    (fun _ _ _ h₁ => twin_openContainer h₁ shape) fun _ _ h₁ => h₁.1.fail.current) fun _ =>
      robust_outgrown.openContainer shape)

/-- The beginning of a scope writes two length fields. -/
theorem twin_openScopeAt (h : Side lost before before' fields w v) {slot : Option Nat}
    (hf : ∀ start, slot = some start → Free fields v.buffer start) (code : String) :
    Paired Outgrown (openScopeAt code slot) w v
      (fun mark w' => Twin lost before before'
        (w'.containers.map Container.header ++ mark.start :: fields) w')
      (Twin lost before before' fields) := by
  cases slot with
  | none => exact paired_tracked robust_outgrown.failed (paired_raise h.1.fail)
  | some start =>
    obtain ⟨b, c, hb, hc, hfilled, -⟩ := h.1.patch h.2.running (hf start rfl)
      ElementType.javaScriptCodeWithScope.tag
    have hsize : c.size = b.size := hfilled.size
    obtain ⟨sink, buffer, rfl⟩ := h.1.exists_streamed
    rw [Writer.buffer_streamed] at hc
    unfold openScopeAt Paired
    simp only [yields_tracked, yields_andThen, fillScalar, fill, Option.isNone_some,
      Bool.false_eq_true, if_false, yields_pure, yields_patch, hb, hc, yields_offset,
      yields_append, yields_get, yields_emit, yields_openContainer, Writer.buffer_streamed,
      Writer.escapes_streamed]
    cases Payload.string w.escapes code with
    | mk bs failure =>
      cases failure with
      | none =>
        have hcode := hfilled.append_field.append bs
        refine fun _ => ⟨?_, (hcode.begun .document).current_of_open (by simp)⟩
        rw [hsize, Writer.expectations_streamed]
      | some cause => exact fun _ => ⟨rfl, ((hfilled.append _).append bs).fail⟩

/-! ## Ends -/

theorem keeps_settle {start : Nat} : Keeps Outgrown (settle start) := fun w hw =>
  robust_outgrown.drainOrPatchLength w.options.streaming start w hw

/-- Only one of them fills a length field, and only the other hands over. -/
theorem twin_settle (h : Side lost before before' fields w v) {start : Nat}
    (hf : start ∈ fields) : Paired Outgrown (settle start) w v
      (fun _ w' v' => Side lost before before' fields w' v' ∧ v'.buffered = [])
      fun _ _ => False := by
  obtain ⟨b, hb, hfilled⟩ := h.1.patch_field h.2.running hf
    (lengthField (w.buffer.size - start)) (length_littleEndian 4 _)
  obtain ⟨sink, hok, hv⟩ := hfilled.drain h.2.running h.2.slotless
  have hw := h.2.withBuffer (Nat.le_of_eq (Buffer.size_of_patch hb).symm)
  unfold Paired
  simp only [yields_settle, h.1.keeps, h.1.streams, Bool.false_eq_true, if_true, if_false,
    yields_patchLength, hb, yields_drain, hok]
  split
  · exact fun _ => ⟨trivial, ⟨hv, hw⟩, rfl⟩
  · rename_i hlong
    exact fun hn => absurd (Nat.le_trans (Nat.le_of_not_lt hlong) (Nat.sub_le ..)) hn

theorem twin_endContainer (h : Twin lost before before' fields w v) (hc : w.Consistent)
    (shape : Shape) : Paired Outgrown (endContainer shape) w v
      (fun _ w' v' => Side lost before before' fields w' v' ∧ v'.buffered = [])
      (Twin lost before before' fields) := by
  refine paired_endContainer h.alike robust_outgrown.failed h.fail
    (fun expectations _ hl hnil => ?_) fun expectations container containers hr hl hcons => ?_
  · obtain ⟨container, containers, hcons⟩ := exists_container hc hl
    rw [hcons] at hnil
    cases hnil
  · have hmem : ∀ c ∈ container :: containers, c.header ∈ fields := by
      rw [← hcons]
      exact h.listed
    have hmarked := h.append [endOfDocument]
    have hended := hmarked.proceed expectations containers w.slot
      (fun c hm => hmem c (List.mem_cons_of_mem _ hm)) hmarked.waiting
    have hsettled := settled_leave hc hr hl hcons
    obtain ⟨sink, buffer, rfl⟩ := h.exists_streamed
    exact (twin_settle ⟨hended, hsettled⟩ (hmem container List.mem_cons_self)).mono
      (fun _ _ _ hw => hw) fun _ _ hf => hf.elim

/-- Everything that is open may be ended. -/
theorem twin_endAll (h : Twin lost before before' fields w v) (hc : w.Consistent)
    (hr : w.phase = .running) (cs : List Container) :
    Paired Outgrown (cs.forM fun c => endContainer c.shape) w v
      (fun _ w' v' => Twin lost before before' fields w' v' ∧ w'.phase = .running)
      (Twin lost before before' fields) := by
  have hone : ∀ (c : Container) w v,
      Twin lost before before' fields w v ∧ w.Consistent ∧ w.phase = .running →
      Paired Outgrown (endContainer c.shape) w v
        (fun _ w' v' => Twin lost before before' fields w' v' ∧ w'.Consistent ∧
          w'.phase = .running)
        (Twin lost before before' fields) := fun c w v hw =>
    (twin_endContainer hw.1 hw.2.1 c.shape).mono
      (fun _ _ _ hv => ⟨hv.1.1, hv.1.2.consistent, hv.1.2.running⟩) fun _ _ hv => hv
  have hall := paired_forM hone (fun c => robust_outgrown.endContainer c.shape) ⟨h, hc, hr⟩ cs
  exact hall.mono (fun _ _ _ hw => ⟨hw.1, hw.2.2⟩) fun _ _ hw => hw

theorem twin_endScope (h : Twin lost before before' fields w v) (hc : w.Consistent)
    {mark : ScopeMark} (hm : mark.start ∈ fields) : Paired Outgrown (endScope mark) w v
      (fun _ w' v' => Twin lost before before' fields w' v' ∧ v'.buffered = [])
      (Twin lost before before' fields) := by
  refine paired_endScope h.alike robust_outgrown.failed h.fail keeps_settle
    ((twin_endContainer h hc .document).mono (fun _ _ _ h₁ => ?_) fun _ _ h₁ => h₁.fail)
  exact (twin_settle h₁.1 hm).mono (fun _ _ _ h₂ => ⟨h₂.1.1, h₂.2⟩) fun _ _ hf => hf.elim

/-! ## Steps -/

theorem twin_write (h : Twin lost before before' fields w v) (hc : w.Consistent)
    (activity : Activity) (value : Scalar) :
    Paired Outgrown (takePosition .scalar activity >>= writeTo value) w v
      (fun _ w' v' => Twin lost before before' fields w' v' ∧ v'.buffered = [])
      (Twin lost before before' fields) :=
  paired_andThen ((twin_takePosition h hc _ _).mono
    (fun _ _ _ hw => twin_writeTo hw.1 hw.2 value) fun _ _ hw => hw)
    fun slot => robust_outgrown.writeTo value slot

theorem twin_begin (h : Twin lost before before' fields w v) (hc : w.Consistent)
    (kind : ValueKind) (activity : Activity) (shape : Shape) :
    Paired Outgrown (takePosition kind activity >>= openAt shape) w v
      (fun _ w' => Twin lost before before' (w'.containers.map Container.header ++ fields) w')
      (fun w' => Twin lost before before' (w'.containers.map Container.header ++ fields) w') :=
  paired_andThen ((twin_takePosition h hc _ _).mono
    (fun _ _ _ hw => twin_openAt hw.1 hw.2 shape) fun _ _ hw => hw.current)
    fun slot => robust_outgrown.openAt shape slot

theorem twin_drop (h : Twin lost before before' fields w v) (hc : w.Consistent)
    (activity : Activity) : Paired Outgrown (drop activity) w v
      (fun _ => Twin lost before before' fields) (Twin lost before before' fields) :=
  paired_andThen ((twin_takePosition h hc _ _).mono
    (fun _ _ _ hw => paired_modify hw.1.1.fail) fun _ _ hw => hw) fun _ => robust_outgrown.failed

theorem twin_openScope (h : Twin lost before before' fields w v) (hc : w.Consistent)
    (activity : Activity) (code : String) : Paired Outgrown (Step.openScope activity code) w v
      (fun mark w' => Twin lost before before'
        (w'.containers.map Container.header ++ mark.start :: fields) w')
      (Twin lost before before' fields) :=
  paired_andThen ((twin_takePosition h hc _ _).mono
    (fun _ _ _ hw => twin_openScopeAt hw.1 hw.2 code) fun _ _ hw => hw)
    fun slot => robust_outgrown.openScopeAt code slot

/-- A running session that is closed hands over everything. -/
theorem twin_deliver (h : Twin lost before before' fields w v) (hr : w.phase = .running) :
    Paired Outgrown deliver w v (fun _ => Twin lost before before' fields)
      (Twin lost before before' fields) := by
  obtain ⟨sink, hall, hok, hheld⟩ := Sink.handOver_of_takesAll h.takes w.buffer.held
  obtain ⟨sink', hall', hok', hheld'⟩ := Sink.handOver_of_takesAll h.takes' v.buffer.held
  unfold Paired deliver
  simp only [yields_andThen, yields_tracked, yields_flushSink, yields_drain, yields_modify, hok,
    hok', hall.flushes, hall'.flushes, Bool.false_eq_true, if_false]
  exact fun _ => ⟨trivial, h.closed hr ⟨hall.unlimited, hall.hungry, hall.flushes⟩
    ⟨hall'.unlimited, hall'.hungry, hall'.flushes⟩ hheld hheld'⟩

theorem twin_close (h : Twin lost before before' fields w v) (hc : w.Consistent) {gone : Prop}
    (hg : gone ↔ lost ∨ w.phase = .failed) : Paired Outgrown close w v
      (fun _ => Twin gone before before' fields) (Twin gone before before' fields) := by
  have hkeeps : Keeps Outgrown deliver := Keeps.andThen
    (Keeps.tracked robust_outgrown.flushSink robust_outgrown.failed) fun _ _ hw => hw
  have hstays : w.phase ≠ .failed → Twin gone before before' fields w v := fun hp =>
    h.of_iff gone (by simp [hg, hp])
  refine paired_close h.alike (by rw [h.same]; rfl) hkeeps (fun hp => hstays (by simp [hp]))
    (fun hp => h.givenUp.of_iff gone (by simp [hg, hp])) fun hp => ?_
  have hv := hstays (by simp [hp])
  have hall : Paired Outgrown (endAll w) w v
      (fun _ w' v' => Twin gone before before' fields w' v' ∧ w'.phase = .running)
      (Twin gone before before' fields) := by
    unfold endAll
    split
    · exact twin_endAll hv hc hp w.containers
    · exact paired_pure ⟨hv, hp⟩
  exact hall.mono (fun _ _ _ hw => twin_deliver hw.1 hw.2) fun _ _ hw => hw

end Pieces

end Action

end BsonWriter
