import BsonWriter.Proofs.Run.Paired
import BsonWriter.Proofs.Streaming.Output

/-!
The same session with its output cut elsewhere. Of two sessions, one has handed over more
than the other, and they agree on everything else, as long as whatever may still be filled
lies on the same side of both cuts (`Recut`): the type byte that waits, and without
streaming the length fields. Every action then reports the same in both and leaves them so
(`Coupled`), whichever of its bytes have left.
-/

namespace BsonWriter

/-- The offset lies in front of both cuts or behind both. -/
def Buffer.SameSide (b c : Buffer) (offset : Nat) : Prop := offset < c.gone ↔ offset < b.gone

/-- The same session with another sink and buffer. -/
def Writer.recut (w : Writer) (sink : Sink) (buffer : Buffer) : Writer := { w with sink, buffer }

namespace Writer

variable (w : Writer) (sink : Sink) (buffer : Buffer)

@[simp] theorem buffer_recut : (w.recut sink buffer).buffer = buffer := rfl

@[simp] theorem escapes_recut : (w.recut sink buffer).escapes = w.escapes := rfl

end Writer

/-- Two sessions that differ in what has left. `fields` are the length fields of code with a
scope that are still to be filled; those of containers are known from the containers. The
outputs are compared unless some output has been given up. -/
structure Recut (lost : Prop) (before : Bytes) (fields : List Nat) (w v : Writer) : Prop where
  same : v = w.recut v.sink v.buffer
  takes : w.sink.TakesAll
  takes' : v.sink.TakesAll
  size : v.buffer.size = w.buffer.size
  waiting : w.phase = .running → ∀ start, w.slot = some start →
    Buffer.SameSide w.buffer v.buffer start
  pending : w.phase = .running → w.options.streaming = false →
    ∀ start ∈ fields ++ w.containers.map Container.header, Buffer.SameSide w.buffer v.buffer start
  output : ¬lost → ∃ out, Shows before w.sink w.buffer out ∧ Shows before v.sink v.buffer out

namespace Buffer

/-- What is not written yet has not left. -/
theorem sameSide_of_size {b c : Buffer} (h : c.size = b.size) {offset : Nat}
    (hle : b.size ≤ offset) : SameSide b c offset := by
  have hb := b.gone_le_size
  have hc := c.gone_le_size
  unfold SameSide
  omega

/-- After everything has left, all that has been written lies in front of the cut. -/
theorem sameSide_discard {b c : Buffer} (h : c.size = b.size) {m n : Nat} (offset : Nat) :
    SameSide (b.discard m) (c.discard n) offset := by
  unfold SameSide
  rw [gone_discard, gone_discard, h]

end Buffer

namespace Recut

variable {lost : Prop} {before : Bytes} {fields : List Nat} {w v : Writer}

theorem exists_output (h : Recut lost before fields w v) :
    ∃ sink buffer, v = w.recut sink buffer := ⟨_, _, h.same⟩

/-- Changes that both make and that leave the output alone. -/
theorem restructure (h : Recut lost before fields w v) (expectations : List Expectation)
    (containers : List Container) (slot : Option Nat) (escapes : Option EscapeTable) (phase : Phase)
    (hr : phase = .running → w.phase = .running)
    (hs : phase = .running → ∀ start, slot = some start → Buffer.SameSide w.buffer v.buffer start)
    (hc : containers.map Container.header ⊆ w.containers.map Container.header) :
    Recut lost before fields { w with expectations, containers, slot, escapes, phase }
      { v with expectations, containers, slot, escapes, phase } := by
  obtain ⟨hsame, ht, ht', hsize, -, hp, hout⟩ := h
  constructor
  · rw [hsame]
    rfl
  · exact ht
  · exact ht'
  · exact hsize
  · exact hs
  · intro hrun hstreaming start hm
    apply hp (hr hrun) hstreaming
    rcases List.mem_append.mp hm with hm | hm
    · exact List.mem_append_left _ hm
    · exact List.mem_append_right _ (hc hm)
  · exact hout

theorem phase (h : Recut lost before fields w v) : v.phase = w.phase := by
  rw [h.same]
  rfl

theorem alike (h : Recut lost before fields w v) : w.Alike v := by
  have hsize := h.size
  obtain ⟨sink, buffer, rfl⟩ := h.exists_output
  exact ⟨rfl, rfl, rfl, rfl, rfl, hsize⟩

theorem fail (h : Recut lost before fields w v) : Recut lost before fields w.fail v.fail := by
  unfold Writer.fail
  rw [h.phase]
  split
  · have hv := h.restructure w.expectations w.containers w.slot w.escapes .failed (by simp)
      (by simp) (List.Subset.refl _)
    obtain ⟨sink, buffer, rfl⟩ := h.exists_output
    exact hv
  · exact h

/-- Fewer length fields may be left to be filled. -/
theorem mono (h : Recut lost before fields w v) {fewer : List Nat} (hf : fewer ⊆ fields) :
    Recut lost before fewer w v := by
  refine ⟨h.same, h.takes, h.takes', h.size, h.waiting, fun hr hs start hm => ?_, h.output⟩
  apply h.pending hr hs
  rcases List.mem_append.mp hm with hm | hm
  · exact List.mem_append_left _ (hf hm)
  · exact List.mem_append_right _ hm

theorem of_iff (h : Recut lost before fields w v) {gone : Prop} (hi : gone ↔ lost) :
    Recut gone before fields w v := by
  rw [propext hi]
  exact h

theorem append (h : Recut lost before fields w v) (bs : Bytes) :
    Recut lost before fields { w with buffer := w.buffer.append bs }
      { v with buffer := v.buffer.append bs } := by
  obtain ⟨hsame, ht, ht', hsize, hw, hp, hout⟩ := h
  constructor
  · rw [hsame]
    rfl
  · exact ht
  · exact ht'
  · rw [Buffer.size_append, Buffer.size_append, hsize]
  · exact hw
  · exact hp
  · intro hn
    obtain ⟨out, hshows, hshows'⟩ := hout hn
    exact ⟨_, hshows.append bs, hshows'.append bs⟩

/-- A length field that is written now is still to be filled. -/
theorem append_field (h : Recut lost before fields w v) :
    Recut lost before (w.buffer.size :: fields) { w with buffer := w.buffer.append (lengthField 0) }
      { v with buffer := v.buffer.append (lengthField 0) } := by
  have hv := h.append (lengthField 0)
  refine ⟨hv.same, hv.takes, hv.takes', hv.size, hv.waiting, fun hr hs start hm => ?_, hv.output⟩
  rcases List.mem_cons.mp hm with rfl | hm
  · exact Buffer.sameSide_of_size h.size (Nat.le_refl _)
  · exact h.pending hr hs start hm

/-- A container begins in both. -/
theorem opened (h : Recut lost before fields w v) (shape : Shape) :
    Recut lost before fields
      { w with
        buffer := w.buffer.append (lengthField 0)
        containers := .start w.buffer.size shape :: w.containers
        expectations := shape.expectation :: w.expectations }
      { v with
        buffer := v.buffer.append (lengthField 0)
        containers := .start v.buffer.size shape :: v.containers
        expectations := shape.expectation :: v.expectations } := by
  obtain ⟨-, ht, ht', hsize, hw, hp, hout⟩ := h.append (lengthField 0)
  have hnew := Buffer.sameSide_of_size h.size (Nat.le_refl _)
  constructor
  · rw [h.size]
    rw [h.same]
    rfl
  · exact ht
  · exact ht'
  · exact hsize
  · exact hw
  · intro hr hs start hm
    simp only [List.map_cons, Container.header_start, List.mem_append, List.mem_cons] at hm
    rcases hm with hm | rfl | hm
    · exact h.pending hr hs start (List.mem_append_left _ hm)
    · exact hnew
    · exact h.pending hr hs start (List.mem_append_right _ hm)
  · exact hout

/-- Both fill in the same way what lies on the same side of both cuts. -/
theorem patch (h : Recut lost before fields w v) {start : Nat}
    (hs : Buffer.SameSide w.buffer v.buffer start) (bs : Bytes) :
    match w.buffer.patch start bs with
    | .error cause => v.buffer.patch start bs = .error cause
    | .ok b => ∃ c, v.buffer.patch start bs = .ok c ∧
        Recut lost before fields { w with buffer := b } { v with buffer := c } := by
  obtain ⟨hsame, ht, ht', hsize, hw, hp, hout⟩ := h
  cases hb : w.buffer.patch start bs with
  | error cause =>
    rw [Buffer.patch_eq_error_iff] at hb
    refine Buffer.patch_eq_error_iff.mpr ?_
    rw [hsize]
    obtain ⟨hgone, hcause⟩ | ⟨hle, hend, hcause⟩ := hb
    · exact .inl ⟨hs.mpr hgone, hcause⟩
    · exact .inr ⟨Nat.le_of_not_lt (mt hs.mp (Nat.not_lt_of_le hle)), hend, hcause⟩
  | ok b =>
    obtain ⟨hle, hend, -⟩ := Buffer.patch_eq_ok_iff.mp hb
    obtain ⟨c, hc⟩ := @Buffer.patch_of_le v.buffer start bs
      (Nat.le_of_not_lt (mt hs.mp (Nat.not_lt_of_le hle))) (by rw [hsize]; exact hend)
    have hgone := Buffer.gone_of_patch hb
    have hgone' := Buffer.gone_of_patch hc
    have hside : ∀ {offset}, Buffer.SameSide w.buffer v.buffer offset →
        Buffer.SameSide b c offset := by
      intro offset ho
      rw [Buffer.SameSide, hgone, hgone']
      exact ho
    refine ⟨c, hc, ?_, ht, ht', ?_, fun hr other ho => hside (hw hr other ho),
      fun hr hs other ho => hside (hp hr hs other ho), fun hn => ?_⟩
    · rw [hsame]
      rfl
    · exact (Buffer.size_of_patch hc).trans (hsize.trans (Buffer.size_of_patch hb).symm)
    · obtain ⟨out, hshows, hshows'⟩ := hout hn
      exact ⟨_, hshows.patch hb, hshows'.patch hc⟩

/-- Both hand over everything, and then all lies in front of both cuts. -/
theorem drained (h : Recut lost before fields w v) {sink sink' : Sink} (ht : sink.TakesAll)
    (ht' : sink'.TakesAll) (hs : sink.held = w.sink.held ++ w.buffer.held)
    (hs' : sink'.held = v.sink.held ++ v.buffer.held) :
    Recut lost before fields { w with sink, buffer := w.buffer.drained }
      { v with sink := sink', buffer := v.buffer.drained } := by
  obtain ⟨hsame, -, -, hsize, -, -, hout⟩ := h
  constructor
  · rw [hsame]
    rfl
  · exact ht
  · exact ht'
  · rw [Buffer.size_discard, Buffer.size_discard, hsize]
  · exact fun _ start _ => Buffer.sameSide_discard hsize start
  · exact fun _ _ start _ => Buffer.sameSide_discard hsize start
  · intro hn
    obtain ⟨out, hshows, hshows'⟩ := hout hn
    exact ⟨out, hshows.discard hs, hshows'.discard hs'⟩

/-- Only the second hands over everything, when nothing is left to be filled. -/
theorem flushed (h : Recut lost before fields w v) {sink : Sink} (ht : sink.TakesAll)
    (hs : sink.held = v.sink.held ++ v.buffer.held) (hslot : w.slot = none)
    (hp : w.options.streaming = false → fields = [] ∧ w.containers = []) :
    Recut lost before fields w { v with sink, buffer := v.buffer.drained } := by
  obtain ⟨hsame, htakes, -, hsize, -, -, hout⟩ := h
  constructor
  · rw [hsame]
    rfl
  · exact htakes
  · exact ht
  · rw [Buffer.size_discard, hsize]
  · intro _ start hw
    rw [hslot] at hw
    cases hw
  · intro _ hstreaming start hm
    obtain ⟨hfields, hcontainers⟩ := hp hstreaming
    rw [hfields, hcontainers] at hm
    cases hm
  · intro hn
    obtain ⟨out, hshows, hshows'⟩ := hout hn
    exact ⟨out, hshows, hshows'.discard hs⟩

/-- Both give up what is here. -/
theorem givenUp (h : Recut lost before fields w v) :
    Recut True before fields { w with buffer := w.buffer.clear, phase := .closed }
      { v with buffer := v.buffer.clear, phase := .closed } := by
  obtain ⟨hsame, ht, ht', hsize, -, -, -⟩ := h
  constructor
  · rw [hsame]
    rfl
  · exact ht
  · exact ht'
  · rw [Buffer.size_discard, Buffer.size_discard, hsize]
  · simp
  · simp
  · exact fun hn => absurd trivial hn

/-- What has left and what is here make up the same bytes. -/
theorem held_append (h : Recut lost before fields w v) (hn : ¬lost) :
    v.sink.held ++ v.buffered = w.sink.held ++ w.buffered := by
  obtain ⟨out, ⟨received, hw, -, rfl⟩, received', hv, -, hout⟩ := h.output hn
  unfold Writer.buffered
  rw [hw, hv, List.append_assoc, List.append_assoc, hout]

end Recut

/-! ## One action in both -/

namespace Action

section Pieces

variable {lost : Prop} {before : Bytes} {fields : List Nat} {w v : Writer}

/-- What is still to be filled: the type byte that a value has taken. -/
def SlotAlike (slot : Option Nat) (w v : Writer) : Prop :=
  ∀ start, slot = some start → Buffer.SameSide w.buffer v.buffer start

theorem coupled_takePosition (h : Recut lost before fields w v) (kind : ValueKind)
    (activity : Activity) : Coupled (takePosition kind activity) w v
      (fun slot w' v' => Recut lost before fields w' v' ∧ SlotAlike slot w' v')
      (Recut lost before fields) := by
  refine paired_takePosition h.alike h.fail (fun expectations hr _ _ => ?_)
    fun expectations index containers bs hr _ hn => ?_
  · have hv := h.restructure expectations w.containers none w.escapes w.phase id (by simp)
      (List.Subset.refl _)
    obtain ⟨sink, buffer, rfl⟩ := h.exists_output
    exact ⟨hv, h.waiting hr⟩
  · have hheaders : containers.map Container.header ⊆ w.containers.map Container.header := by
      rw [Container.header_nextElement hn]
      exact List.Subset.refl _
    have hv := (h.append (0 :: bs)).restructure expectations containers w.slot w.escapes w.phase id
      h.waiting hheaders
    have hsize := h.size
    obtain ⟨sink, buffer, rfl⟩ := h.exists_output
    refine ⟨⟨hv, fun start hs => ?_⟩, hv.fail⟩
    cases hs
    exact Buffer.sameSide_of_size hsize (Nat.le_refl _)

theorem coupled_fieldName (h : Recut lost before fields w v) (name : String) :
    Coupled (fieldName name) w v (fun _ => Recut lost before fields)
      (Recut lost before fields) := by
  refine paired_fieldName h.alike h.fail fun expectations bs hr _ => ?_
  have happend := h.append (0 :: bs)
  have hwaits := happend.restructure expectations w.containers (some w.buffer.size) w.escapes
    w.phase id (fun _ start hs => by
      cases hs
      exact Buffer.sameSide_of_size h.size (Nat.le_refl _)) (List.Subset.refl _)
  have hrefused := happend.restructure expectations w.containers w.slot w.escapes w.phase id
    h.waiting (List.Subset.refl _)
  obtain ⟨sink, buffer, rfl⟩ := h.exists_output
  exact ⟨hwaits, hrefused.fail⟩

theorem coupled_checkArray (h : Recut lost before fields w v) : Coupled checkArray w v
    (fun _ => Recut lost before fields) (Recut lost before fields) :=
  paired_checkArray h.alike h.fail h

/-! ## What a value is made of -/

theorem coupled_patch (h : Recut lost before fields w v) {start : Nat}
    (hs : Buffer.SameSide w.buffer v.buffer start) (bs : Bytes) : Coupled (patch start bs) w v
      (fun _ => Recut lost before fields) (Recut lost before fields) := by
  have hpatch := h.patch hs bs
  unfold Coupled Paired
  simp only [yields_patch]
  cases hb : w.buffer.patch start bs with
  | error cause =>
    rw [hb] at hpatch
    simp only [hpatch]
    exact fun _ => ⟨trivial, h⟩
  | ok b =>
    rw [hb] at hpatch
    obtain ⟨c, hc, hv⟩ := hpatch
    simp only [hc]
    exact fun _ => ⟨trivial, hv⟩

theorem coupled_fill (h : Recut lost before fields w v) {slot : Option Nat}
    (hs : SlotAlike slot w v) (type : ElementType) : Coupled (fill slot type) w v
      (fun _ => Recut lost before fields) (Recut lost before fields) := by
  cases slot with
  | none => exact paired_pure h
  | some start => exact coupled_patch h (hs start rfl) _

theorem coupled_fillScalar (h : Recut lost before fields w v) {slot : Option Nat}
    (hs : SlotAlike slot w v) (type : ElementType) : Coupled (fillScalar slot type) w v
      (fun _ => Recut lost before fields) (Recut lost before fields) := by
  cases slot with
  | none => exact paired_raise h
  | some start => exact coupled_fill h hs type

theorem coupled_emit (h : Recut lost before fields w v) (p : Payload) : Coupled (emit p) w v
    (fun _ => Recut lost before fields) (Recut lost before fields) := by
  have hv := h.append p.written
  unfold Coupled Paired
  simp only [yields_emit]
  cases p.failure with
  | none => exact fun _ => ⟨trivial, hv⟩
  | some cause => exact fun _ => ⟨rfl, hv⟩

theorem coupled_drain (h : Recut lost before fields w v) : Coupled drain w v
    (fun _ => Recut lost before fields) (Recut lost before fields) := by
  obtain ⟨sink, hall, hok, hheld⟩ := Sink.handOver_of_takesAll h.takes w.buffer.held
  obtain ⟨sink', hall', hok', hheld'⟩ := Sink.handOver_of_takesAll h.takes' v.buffer.held
  unfold Coupled Paired
  simp only [yields_drain, hok, hok']
  exact fun _ => ⟨trivial, h.drained hall hall' hheld hheld'⟩

theorem coupled_drainIfStreaming (h : Recut lost before fields w v) : Coupled drainIfStreaming w v
    (fun _ => Recut lost before fields) (Recut lost before fields) := by
  refine paired_get (by rw [h.same]; rfl) ?_
  cases w.options.streaming with
  | true => exact coupled_drain h
  | false => exact paired_pure h

theorem coupled_writeTo (h : Recut lost before fields w v) {slot : Option Nat}
    (hs : SlotAlike slot w v) (value : Scalar) : Coupled (writeTo value slot) w v
      (fun _ => Recut lost before fields) (Recut lost before fields) := by
  refine coupled_tracked (paired_get (by rw [h.same]; rfl) ?_)
  refine coupled_andThen ((coupled_fillScalar h hs _).mono (fun _ w₁ v₁ h₁ => ?_)
    fun _ _ h₁ => h₁.fail)
  refine coupled_andThen ((coupled_emit h₁ _).mono (fun _ w₂ v₂ h₂ => ?_) fun _ _ h₂ => h₂.fail)
  exact (coupled_drainIfStreaming h₂).mono (fun _ _ _ h₃ => h₃) fun _ _ h₃ => h₃.fail

theorem coupled_openContainer (h : Recut lost before fields w v) (shape : Shape)
    {E : Writer → Writer → Prop} :
    Coupled (openContainer shape) w v (fun _ => Recut lost before fields) E := by
  unfold Coupled Paired
  simp only [yields_openContainer]
  exact fun _ => ⟨trivial, h.opened shape⟩

theorem coupled_openAt (h : Recut lost before fields w v) {slot : Option Nat}
    (hs : SlotAlike slot w v) (shape : Shape) : Coupled (openAt shape slot) w v
      (fun _ => Recut lost before fields) (Recut lost before fields) :=
  coupled_tracked (coupled_andThen ((coupled_fill h hs _).mono
    (fun _ _ _ h₁ => coupled_openContainer h₁ shape) fun _ _ h₁ => h₁.fail))

/-- The beginning of a scope leaves the length field of its value to be filled. -/
theorem coupled_openScopeAt (h : Recut lost before fields w v) {slot : Option Nat}
    (hs : SlotAlike slot w v) (code : String) : Coupled (openScopeAt code slot) w v
      (fun mark => Recut lost before (mark.start :: fields)) (Recut lost before fields) := by
  refine coupled_tracked (coupled_andThen ((coupled_fillScalar h hs _).mono
    (fun _ w₁ v₁ h₁ => ?_) fun _ _ h₁ => h₁.fail))
  have hfield := h₁.append_field
  have hsize : v₁.buffer.size = w₁.buffer.size := h₁.size
  obtain ⟨sink, buffer, rfl⟩ := h₁.exists_output
  unfold Coupled Paired
  simp only [yields_andThen, yields_offset, yields_append, yields_get, yields_emit,
    yields_openContainer, yields_pure, Writer.escapes_recut, Writer.buffer_recut] at hsize ⊢
  cases Payload.string w₁.escapes code with
  | mk bs failure =>
    cases failure with
    | none =>
      rw [hsize]
      exact fun _ => ⟨rfl, (hfield.append bs).opened .document⟩
    | some cause =>
      exact fun _ => ⟨rfl, ((hfield.append bs).mono (List.subset_cons_self _ _)).fail⟩

/-! ## Ends -/

theorem coupled_patchLength (h : Recut lost before fields w v) {start : Nat}
    (hs : Buffer.SameSide w.buffer v.buffer start) : Coupled (patchLength start) w v
      (fun _ => Recut lost before fields) (Recut lost before fields) := by
  have hlength : Coupled (do
      let length := w.buffer.size - start
      if length < lengthBound then patch start (lengthField length)
      else raise (.lengthOverflow length)) w v
      (fun _ => Recut lost before fields) (Recut lost before fields) := by
    dsimp only
    split
    · exact coupled_patch h hs _
    · exact paired_raise h
  apply hlength.of_run
  · rfl
  · rw [← h.size]
    rfl

/-- Without streaming a length field is filled, and with it everything is handed over. -/
theorem coupled_settle (h : Recut lost before fields w v) {start : Nat}
    (hs : w.options.streaming = false → Buffer.SameSide w.buffer v.buffer start) :
    Coupled (settle start) w v (fun _ => Recut lost before fields)
      (Recut lost before fields) := by
  refine paired_get (by rw [h.same]; rfl) ?_
  cases hstreaming : w.options.streaming with
  | true => exact coupled_drain h
  | false => exact coupled_patchLength h (hs hstreaming)

theorem coupled_endContainer (h : Recut lost before fields w v) (shape : Shape) :
    Coupled (endContainer shape) w v (fun _ => Recut lost before fields)
      (Recut lost before fields) := by
  refine paired_endContainer h.alike (fun _ hb => hb) h.fail (fun expectations hr _ _ => ?_)
    fun expectations container containers hr _ hc => ?_
  · have hv := h.restructure expectations w.containers w.slot w.escapes w.phase id h.waiting
      (List.Subset.refl _)
    obtain ⟨sink, buffer, rfl⟩ := h.exists_output
    exact hv.fail
  · have hpopped : containers.map Container.header ⊆ w.containers.map Container.header := by
      rw [hc]
      exact List.subset_cons_self _ _
    have hheader : w.options.streaming = false →
        Buffer.SameSide w.buffer v.buffer container.header := by
      intro hs
      apply h.pending hr hs
      rw [hc]
      exact List.mem_append_right _ List.mem_cons_self
    have hv := (h.append [endOfDocument]).restructure expectations containers w.slot w.escapes
      w.phase id h.waiting hpopped
    obtain ⟨sink, buffer, rfl⟩ := h.exists_output
    exact (coupled_settle hv hheader).mono (fun _ _ _ hw => hw) fun _ _ hw => hw.fail

theorem coupled_endAll (h : Recut lost before fields w v) (cs : List Container) :
    Coupled (cs.forM fun c => endContainer c.shape) w v (fun _ => Recut lost before fields)
      (Recut lost before fields) :=
  paired_forM (R := Recut lost before fields) (fun c _ _ hw => coupled_endContainer hw c.shape)
    (fun _ _ hb => hb.elim) h cs

/-- Whoever has ended a container goes on running. -/
theorem running_of_endContainer (shape : Shape) :
    (endContainer shape).Yields w (fun _ w' => w'.phase = .running) fun _ _ => True := by
  apply yields_endContainer
  · exact fun _ => trivial
  · exact fun _ _ _ _ => trivial
  · intro expectations container containers hr _ _
    have hkeeps : Keeps (fun u => u.phase = .running)
        (if w.options.streaming then drain else patchLength container.header) := by
      split
      · exact Keeps.drain (fun _ _ hu _ => hu) fun _ _ hu => hu
      · exact Keeps.patchLength (fun _ _ hu _ => hu) _
    apply Yields.mono (hkeeps _ _) (fun _ _ hu => hu) fun _ _ _ => trivial
    exact hr

theorem coupled_endScope {mark : ScopeMark} (h : Recut lost before (mark.start :: fields) w v) :
    Coupled (endScope mark) w v (fun _ => Recut lost before fields)
      (Recut lost before fields) := by
  have hfewer : fields ⊆ mark.start :: fields := List.subset_cons_self _ _
  refine paired_endScope h.alike (fun _ hb => hb) (h.mono hfewer).fail (fun _ hb => hb.elim)
    (((coupled_endContainer h .document).and (running_of_endContainer .document)).mono
      (fun _ w₁ v₁ h₁ => ?_) fun _ _ h₁ => (h₁.mono hfewer).fail)
  obtain ⟨h₁, hr⟩ := h₁
  have hmark := fun hs => h₁.pending hr hs mark.start List.mem_cons_self
  exact (coupled_settle (h₁.mono hfewer) hmark).mono (fun _ _ _ h₂ => h₂) fun _ _ h₂ => h₂.fail

/-! ## Output -/

theorem coupled_flushSink (h : Recut lost before fields w v) : Coupled flushSink w v
    (fun _ => Recut lost before fields) (Recut lost before fields) := by
  obtain ⟨sink, hall, hok, hheld⟩ := Sink.handOver_of_takesAll h.takes w.buffer.held
  obtain ⟨sink', hall', hok', hheld'⟩ := Sink.handOver_of_takesAll h.takes' v.buffer.held
  have hflushed : sink.flush.2.TakesAll := ⟨hall.unlimited, hall.hungry, hall.flushes⟩
  have hflushed' : sink'.flush.2.TakesAll := ⟨hall'.unlimited, hall'.hungry, hall'.flushes⟩
  unfold Coupled Paired
  simp only [yields_flushSink, yields_drain, hok, hok', hall.flushes, hall'.flushes,
    Bool.false_eq_true, if_false]
  exact fun _ => ⟨trivial, h.drained hflushed hflushed' hheld hheld'⟩

theorem coupled_flush (h : Recut lost before fields w v) : Coupled flush w v
    (fun _ => Recut lost before fields) (Recut lost before fields) := by
  refine coupled_tracked (paired_get (by rw [h.phase]) ?_)
  split
  · exact paired_raise h.fail
  · exact (coupled_flushSink h).mono (fun _ _ _ h₁ => h₁) fun _ _ h₁ => h₁.fail

theorem coupled_close (h : Recut lost before fields w v) {gone : Prop}
    (hg : gone ↔ lost ∨ w.phase = .failed) : Coupled close w v
      (fun _ => Recut gone before fields) (Recut gone before fields) := by
  have hstays : w.phase ≠ .failed → Recut gone before fields w v := fun hp =>
    h.of_iff (by simp [hg, hp])
  refine paired_close h.alike (by rw [h.same]; rfl) (fun _ hb => hb.elim)
    (fun hp => hstays (by simp [hp])) (fun hp => h.givenUp.of_iff (by simp [hg, hp])) fun hp => ?_
  have hv := hstays (by simp [hp])
  have hall : Coupled (endAll w) w v (fun _ => Recut gone before fields)
      (Recut gone before fields) := by
    unfold endAll
    split
    · exact coupled_endAll hv w.containers
    · exact paired_pure hv
  have hclosed : ∀ {w₁ v₁}, Recut gone before fields w₁ v₁ → Recut gone before fields
      { w₁ with phase := .closed } { v₁ with phase := .closed } := by
    intro w₁ v₁ h₁
    have hv := h₁.restructure w₁.expectations w₁.containers w₁.slot w₁.escapes .closed (by simp)
      (by simp) (List.Subset.refl _)
    obtain ⟨sink, buffer, rfl⟩ := h₁.exists_output
    exact hv
  refine hall.mono (fun _ w₁ v₁ h₁ => ?_) fun _ _ h₁ => h₁
  exact coupled_andThen (coupled_tracked ((coupled_flushSink h₁).mono
    (fun _ _ _ h₂ => paired_modify (hclosed h₂)) fun _ _ h₂ => h₂.fail))

end Pieces

end Action

end BsonWriter
