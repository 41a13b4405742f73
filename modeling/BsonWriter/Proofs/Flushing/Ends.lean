import BsonWriter.Proofs.Output.Delivery
import BsonWriter.Proofs.Run.Failure
import BsonWriter.Proofs.Run.Inversion

/-!
The end of a container in a session that keeps its output. If the length field is still
here it is filled (`exists_run_endContainer`), and if it has left the session fails with
its offset (`run_endContainer_of_gone`). The same for the end of a scope, whose value has a
second length field. Closing ends several containers one after another, as far as their
length fields are still here (`exists_close`).
-/

namespace BsonWriter

/-- A container has been ended in a buffer: there is one more byte, the length field at the
offset counts everything from there on, and what stands beside it has stayed. -/
structure Buffer.Ended (before : Buffer) (header : Nat) (b : Buffer) : Prop where
  gone : b.gone = before.gone
  size : b.size = before.size + 1
  filled : b.Holds header (lengthField (b.size - header))
  beside : ∀ offset bs, before.Holds offset bs →
    header + 4 ≤ offset ∨ offset + bs.length ≤ header → b.Holds offset bs

/-- Containers have been ended one after another, those with their length fields at
`headers`: there is one more byte for each, and each length field counts everything up to
the byte that has ended its container. -/
structure Buffer.AllEnded (before : Buffer) (headers : List Nat) (b : Buffer) : Prop where
  gone : b.gone = before.gone
  size : b.size = before.size + headers.length
  filled : ∀ i header, headers[i]? = some header →
    b.Holds header (lengthField (before.size + (i + 1) - header))
  beside : ∀ offset bs, before.Holds offset bs →
    (∀ header ∈ headers, header + 4 ≤ offset ∨ offset + bs.length ≤ header) → b.Holds offset bs

namespace Buffer

theorem AllEnded.nil (b : Buffer) : b.AllEnded [] b := ⟨rfl, rfl, nofun, fun _ _ h _ => h⟩

/-- The containers around an ended one have their length fields in front of its own. -/
theorem Ended.cons {before b₁ b : Buffer} {header : Nat} {headers : List Nat}
    (h : before.Ended header b₁) (hs : b₁.AllEnded headers b)
    (ha : ∀ outer ∈ headers, outer + 4 ≤ header) : before.AllEnded (header :: headers) b := by
  have hsize := h.size
  refine ⟨hs.gone.trans h.gone, ?_, fun i outer ho => ?_, fun offset bs hb hd => ?_⟩
  · rw [hs.size, hsize, List.length_cons]
    omega
  · cases i with
    | zero =>
      obtain rfl : header = outer := Option.some.inj ho
      have hkeep := hs.beside header _ h.filled fun outer hm => .inl (ha outer hm)
      rwa [hsize] at hkeep
    | succ i =>
      have hlater := hs.filled i outer ho
      rwa [show b₁.size + (i + 1) = before.size + (i + 1 + 1) by omega] at hlater
  · refine hs.beside offset bs (h.beside offset bs hb (hd header List.mem_cons_self)) ?_
    exact fun outer hm => hd outer (List.mem_cons_of_mem _ hm)

/-- A length field that is still here can be filled. -/
theorem exists_ended {before : Buffer} {header : Nat} (hg : before.gone ≤ header)
    (hw : header + 4 ≤ before.size) : ∃ b, (before.append [endOfDocument]).patch header
      (lengthField (before.size + 1 - header)) = .ok b ∧ before.Ended header b := by
  have hsize : (before.append [endOfDocument]).size = before.size + 1 := by
    rw [size_append, List.length_singleton]
  obtain ⟨b, hb⟩ := @patch_of_le (before.append [endOfDocument]) header
    (lengthField (before.size + 1 - header)) hg (by rw [length_lengthField, hsize]; omega)
  have hbsize : b.size = before.size + 1 := (size_of_patch hb).trans hsize
  refine ⟨b, hb, (gone_of_patch hb).trans rfl, hbsize, ?_, fun offset bs h hd => ?_⟩
  · rw [hbsize]
    exact holds_patch_self hb
  · exact (h.append _).patch hb (by rwa [length_lengthField])

end Buffer

/-- The session keeps its output and its innermost container may end, in the order of the
calls and as far as the greatest length goes. -/
structure Writer.Ending (w : Writer) (shape : Shape) (rest : List Expectation) (c : Container)
    (containers : List Container) : Prop where
  running : w.phase = .running
  keeps : w.options.streaming = false
  expects : w.expectations = shape.expectation :: rest
  opens : w.containers = c :: containers
  written : c.header + 4 ≤ w.buffer.size
  fits : w.buffer.size + 1 < lengthBound

/-- The session keeps its output, ends its containers when it is closed, and all of them may
end, as far as the greatest length goes. The length fields of the containers `kept` are
still here, and those of the others around them have left. -/
structure Writer.Closing (w : Writer) (kept outer : List Container) : Prop where
  running : w.phase = .running
  keeps : w.options.streaming = false
  ends : w.options.autoClose = true
  takes : w.sink.TakesAll
  expects : w.expectations = (kept ++ outer).map fun c => c.shape.expectation
  opens : w.containers = kept ++ outer
  apart : (kept ++ outer).Pairwise fun inner outer => outer.header + 4 ≤ inner.header
  written : ∀ c ∈ kept ++ outer, c.header + 4 ≤ w.buffer.size
  here : ∀ c ∈ kept, w.buffer.gone ≤ c.header
  left : ∀ c ∈ outer, c.header < w.buffer.gone
  fits : w.buffer.size + (kept ++ outer).length < lengthBound

namespace Writer.Closing

variable {w : Writer} {kept outer : List Container}

/-- The innermost container may end. -/
theorem ending (h : w.Closing kept outer) {c : Container} {rest : List Container}
    (hc : kept ++ outer = c :: rest) :
    w.Ending c.shape (rest.map fun c => c.shape.expectation) c rest := by
  obtain ⟨hr, hs, -, -, he, ho, -, hw, -, -, hl⟩ := h
  rw [hc] at he ho hw hl
  rw [List.length_cons] at hl
  exact ⟨hr, hs, he, ho, hw c List.mem_cons_self, by omega⟩

/-- After the end of the innermost container those around it may end. -/
theorem next {c : Container} (h : w.Closing (c :: kept) outer) {b : Buffer}
    (hb : w.buffer.Ended c.header b) : Writer.Closing { w with
      expectations := (kept ++ outer).map fun c => c.shape.expectation
      containers := kept ++ outer
      buffer := b } kept outer := by
  have hsize := hb.size
  have hl := h.fits
  rw [List.cons_append, List.length_cons] at hl
  refine ⟨h.running, h.keeps, h.ends, h.takes, rfl, rfl, h.apart.tail, fun d hd => ?_,
    fun d hd => ?_, fun d hd => ?_, by rw [hsize]; omega⟩
  · rw [hsize]
    exact Nat.le_succ_of_le (h.written d (List.mem_cons_of_mem _ hd))
  · rw [hb.gone]
    exact h.here d (List.mem_cons_of_mem _ hd)
  · rw [hb.gone]
    exact h.left d hd

end Writer.Closing

namespace Action

variable {w : Writer} {shape : Shape} {rest : List Expectation} {c : Container}
  {containers : List Container}

theorem yields_ending (h : w.Ending shape rest c containers) {Q : Unit → Writer → Prop}
    {E : Error → Writer → Prop} : (endContainer shape).Yields w Q E ↔
      match (w.buffer.append [endOfDocument]).patch c.header
        (lengthField (w.buffer.size + 1 - c.header)) with
      | .ok b => Q () { w with expectations := rest, containers, buffer := b }
      | .error cause => E ⟨cause, none⟩ (Writer.fail { w with
          expectations := rest, containers, buffer := w.buffer.append [endOfDocument] }) := by
  have hfits := h.fits
  rw [endContainer_eq]
  simp only [yields_tracked, yields_andThen, yields_checkRunning, h.running, yields_advance,
    h.expects, leave_expectation, yields_closeContainer, h.opens, h.keeps, Bool.false_eq_true,
    if_false, yields_patchLength, Buffer.size_append, List.length_singleton]
  refine (iff_of_eq (if_pos (by omega))).trans ?_
  cases (w.buffer.append [endOfDocument]).patch c.header
    (lengthField (w.buffer.size + 1 - c.header)) <;> rfl

/-- A container whose length field is still here ends. -/
theorem exists_run_endContainer (h : w.Ending shape rest c containers)
    (hg : w.buffer.gone ≤ c.header) : ∃ b, (endContainer shape).run w =
      .ok () { w with expectations := rest, containers, buffer := b } ∧
      w.buffer.Ended c.header b := by
  obtain ⟨b, hb, hended⟩ := Buffer.exists_ended hg h.written
  refine ⟨b, ?_, hended⟩
  rw [run_eq_ok_iff, yields_ending h, hb]
  exact ⟨rfl, rfl⟩

/-- A container whose length field has left does not end. -/
theorem run_endContainer_of_gone (h : w.Ending shape rest c containers)
    (hg : c.header < w.buffer.gone) : (endContainer shape).run w =
      .error ⟨.alreadyFlushed c.header, none⟩ (Writer.fail { w with
        expectations := rest, containers, buffer := w.buffer.append [endOfDocument] }) := by
  have hleft : c.header < (w.buffer.append [endOfDocument]).gone := hg
  rw [run_eq_error_iff, yields_ending h, Buffer.patch_of_gone hleft]
  exact ⟨rfl, rfl⟩

/-! ## Scopes -/

/-- A scope ends whose length fields are still here. The field of its value comes first. -/
theorem exists_run_endScope {mark : ScopeMark} (h : w.Ending .document rest c containers)
    (hd : mark.depth = rest.length + 1) (hg : w.buffer.gone ≤ mark.start)
    (hm : mark.start + 4 ≤ c.header) : ∃ b, (endScope mark).run w =
      .ok () { w with expectations := rest, containers, buffer := b } ∧
      b.size = w.buffer.size + 1 ∧ b.Holds c.header (lengthField (b.size - c.header)) ∧
      b.Holds mark.start (lengthField (b.size - mark.start)) := by
  obtain ⟨b, hend, hended⟩ := exists_run_endContainer h (by omega)
  have hsize := hended.size
  have hwritten := h.written
  have hfits := h.fits
  obtain ⟨b', hb'⟩ := @Buffer.patch_of_le b mark.start (lengthField (b.size - mark.start))
    (by rw [hended.gone]; exact hg) (by rw [length_lengthField]; omega)
  have hsize' := Buffer.size_of_patch hb'
  refine ⟨b', ?_, hsize'.trans hsize, ?_, ?_⟩
  · rw [run_eq_ok_iff, endScope]
    simp only [yields_tracked, yields_andThen, yields_get, h.expects, hd, List.length_cons,
      Shape.expectation, yields_ite, if_true]
    rw [show endDocument = endContainer .document from rfl, yields_iff_of_ok hend]
    simp only [h.keeps, Bool.false_eq_true, if_false, yields_patchLength, yields_drainIfStreaming]
    rw [if_pos (by omega), hb']
    exact ⟨trivial, rfl⟩
  · rw [hsize']
    exact hended.filled.patch hb' (.inl (by rw [length_lengthField]; exact hm))
  · rw [hsize']
    exact Buffer.holds_patch_self hb'

theorem run_endScope_of_gone {mark : ScopeMark} (h : w.Ending .document rest c containers)
    (hd : mark.depth = rest.length + 1) (hg : c.header < w.buffer.gone) :
    (endScope mark).run w = .error ⟨.alreadyFlushed c.header, none⟩ (Writer.fail { w with
      expectations := rest, containers, buffer := w.buffer.append [endOfDocument] }) := by
  have hleft : c.header < (w.buffer.append [endOfDocument]).gone := hg
  rw [run_eq_error_iff, endScope]
  simp only [yields_tracked, yields_andThen, yields_get, h.expects, hd, List.length_cons,
    Shape.expectation, yields_ite, if_true]
  rw [show endDocument = endContainer .document from rfl, yields_ending h,
    Buffer.patch_of_gone hleft]
  exact ⟨rfl, Writer.fail_of_stopped (Writer.phase_fail _)⟩

/-! ## Values -/

theorem fill_of_gone {start : Nat} (hg : start < w.buffer.gone) (type : ElementType) :
    (fill (some start) type).run w = .error ⟨.alreadyFlushed start, none⟩ w := by
  rw [run_eq_error_iff, fill, yields_patch, Buffer.patch_of_gone hg]
  exact ⟨rfl, rfl⟩

theorem run_writeTo_of_gone {start : Nat} (hg : start < w.buffer.gone) (value : Scalar) :
    (writeTo value (some start)).run w = .error ⟨.alreadyFlushed start, none⟩ w.fail := by
  have hfill := fill_of_gone hg (value.primitive w.options).type
  rw [run_eq_error_iff, writeTo]
  simp only [yields_tracked, yields_andThen, yields_get, fillScalar, Option.isNone_some,
    Bool.false_eq_true, if_false]
  rw [Yields, hfill]
  exact ⟨rfl, rfl⟩

theorem run_openAt_of_gone {start : Nat} (hg : start < w.buffer.gone) (shape : Shape) :
    (openAt shape (some start)).run w = .error ⟨.alreadyFlushed start, none⟩ w.fail := by
  have hfill := fill_of_gone hg shape.elementType
  rw [run_eq_error_iff, openAt, yields_tracked, yields_andThen, Yields, hfill]
  exact ⟨rfl, rfl⟩

theorem run_openScopeAt_of_gone {start : Nat} (hg : start < w.buffer.gone) (code : String) :
    (openScopeAt code (some start)).run w = .error ⟨.alreadyFlushed start, none⟩ w.fail := by
  have hfill := fill_of_gone hg .javaScriptCodeWithScope
  rw [run_eq_error_iff, openScopeAt]
  simp only [yields_tracked, yields_andThen, fillScalar, Option.isNone_some, Bool.false_eq_true,
    if_false, yields_pure]
  rw [Yields, hfill]
  exact ⟨rfl, rfl⟩

/-! ## Several ends -/

/-- Containers end one after another as long as their length fields are still here. -/
theorem exists_run_ends {kept outer : List Container} (h : w.Closing kept outer) :
    ∃ b, (kept.forM fun c => endContainer c.shape).run w = .ok () { w with
        expectations := outer.map fun c => c.shape.expectation
        containers := outer
        buffer := b } ∧
      w.buffer.AllEnded (kept.map Container.header) b ∧
      Writer.Closing { w with
        expectations := outer.map fun c => c.shape.expectation
        containers := outer
        buffer := b } [] outer := by
  induction kept generalizing w with
  | nil =>
    have hw : { w with
        expectations := outer.map fun c => c.shape.expectation
        containers := outer } = w := by
      rw [show outer.map _ = w.expectations from h.expects.symm,
        show outer = w.containers from h.opens.symm]
    refine ⟨w.buffer, ?_, .nil _, ?_⟩
    · rw [hw]
      rfl
    · rw [hw]
      exact h
  | cons c kept ih =>
    obtain ⟨b₁, hend, hended⟩ := exists_run_endContainer (h.ending rfl)
      (h.here c List.mem_cons_self)
    obtain ⟨b, hrun, hall, hclosing⟩ := ih (h.next hended)
    refine ⟨b, ?_, hended.cons hall fun header hm => ?_, hclosing⟩
    · show (endContainer c.shape >>= fun _ => kept.forM fun c => endContainer c.shape).run w = _
      rw [run_andThen, hend]
      exact hrun
    · obtain ⟨d, hd, rfl⟩ := List.mem_map.mp hm
      exact (List.pairwise_cons.mp h.apart).1 d (List.mem_append_left _ hd)

/-! ## Closing -/

/-- Closing begins with the ends of all containers. -/
theorem run_close_of_closing {kept outer : List Container} (h : w.Closing kept outer) :
    close.run w = (do
      kept.forM fun c => endContainer c.shape
      outer.forM fun c => endContainer c.shape
      tracked flushSink
      modify fun w => { w with phase := .closed } : Action Unit).run w := by
  have happend : ((kept ++ outer).forM fun c => endContainer c.shape) = (do
      kept.forM fun c => endContainer c.shape
      outer.forM fun c => endContainer c.shape) := List.forM_append
  rw [run_close h.running, endAll, if_pos h.ends, h.opens, happend, bind_assoc]

/-- Closing goes well if all length fields are still here. What has been written then is in
the sink. -/
theorem exists_close_of_here {kept : List Container} (h : w.Closing kept []) :
    ∃ b v, w.buffer.AllEnded (kept.map Container.header) b ∧
      v.sink.held ++ v.buffered = w.sink.held ++ b.held ∧
      close.run w = .ok () v ∧ v.phase = .closed := by
  obtain ⟨b, hrun, hall, -⟩ := exists_run_ends h
  obtain ⟨sink, htakes, hok, hheld⟩ := Sink.handOver_of_takesAll h.takes b.held
  refine ⟨b, { w with
    expectations := [], containers := [], buffer := b.drained, sink := sink.flush.2
    phase := .closed }, hall, ?_, ?_, rfl⟩
  · rw [← hheld]
    exact List.append_nil _
  · rw [run_close_of_closing h, run_andThen, hrun]
    show (do tracked flushSink; modify fun w => { w with phase := .closed } : Action Unit).run _ = _
    rw [run_eq_ok_iff]
    simp only [yields_andThen, yields_tracked, yields_flushSink, yields_drain, hok,
      htakes.flushes, Bool.false_eq_true, if_false, yields_modify]
    exact ⟨trivial, rfl⟩

/-- Closing fails at the innermost length field that has left. What has been written then
is still here. -/
theorem exists_close_of_left {kept outer : List Container} (h : w.Closing kept (c :: outer)) :
    ∃ b v, w.buffer.AllEnded (kept.map Container.header) b ∧
      v.sink.held ++ v.buffered = w.sink.held ++ (b.append [endOfDocument]).held ∧
      close.run w = .error ⟨.alreadyFlushed c.header, none⟩ v ∧ v.phase = .failed := by
  obtain ⟨b, hrun, hall, hclosing⟩ := exists_run_ends h
  have hend := run_endContainer_of_gone (hclosing.ending rfl) (hclosing.left c List.mem_cons_self)
  let v : Writer := Writer.fail { w with
    expectations := outer.map fun c => c.shape.expectation
    containers := outer
    buffer := b.append [endOfDocument] }
  refine ⟨b, v, hall, ?_, ?_, ?_⟩
  · simp only [v, Writer.buffered, Writer.sink_fail, Writer.buffer_fail]
  · have hfirst : ((c :: outer).forM fun c => endContainer c.shape) = (do
        endContainer c.shape
        outer.forM fun c => endContainer c.shape) := rfl
    rw [run_close_of_closing h, run_andThen, hrun, hfirst, bind_assoc]
    dsimp only
    rw [run_andThen, hend]
  · simp only [v, Writer.fail, h.running, if_true]

/-- Closing ends the containers whose length fields are still here, and goes well if those
are all. What has been written then is in the sink, or still here. -/
theorem exists_close {kept outer : List Container} (h : w.Closing kept outer) :
    ∃ b bs, w.buffer.AllEnded (kept.map Container.header) b ∧
      (close.after w).sink.held ++ (close.after w).buffered =
        w.sink.held ++ (b.append bs).held ∧
      match outer.head? with
      | none => close.result w = .ok () ∧ (close.after w).phase = .closed
      | some c => close.result w = .error ⟨.alreadyFlushed c.header, none⟩ ∧
          (close.after w).phase = .failed := by
  cases outer with
  | nil =>
    obtain ⟨b, v, hall, hheld, hrun, hphase⟩ := exists_close_of_here h
    rw [after_of_ok hrun, result_of_ok hrun]
    exact ⟨b, [], hall, by rw [hheld, Buffer.append_nil], rfl, hphase⟩
  | cons c outer =>
    obtain ⟨b, v, hall, hheld, hrun, hphase⟩ := exists_close_of_left h
    rw [after_of_error hrun, result_of_error hrun]
    exact ⟨b, _, hall, hheld, rfl, hphase⟩

end Action

end BsonWriter
