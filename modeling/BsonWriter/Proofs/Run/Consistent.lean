import BsonWriter.Proofs.Action.Rules
import BsonWriter.Proofs.Run.Step
import Mathlib.Data.List.Forall2

/-!
What holds in every state that a session can be in. The expectations describe the
open containers one by one, the length fields of the containers lie apart from
each other and within what has been written, and in a running session a type byte
waits exactly when a value is expected (`Writer.Reachable.consistent`).
-/

namespace BsonWriter

/-- An expectation is one of an array exactly if the container is an array. -/
def Container.Expects (e : Expectation) (c : Container) : Prop :=
  e = .element ↔ c.nextIndex.isSome = true

/-- The bookkeeping of a session agrees with itself. -/
structure Writer.Consistent (w : Writer) : Prop where
  aligned : List.Forall₂ Container.Expects w.expectations w.containers
  apart : w.containers.Pairwise fun inner outer => outer.header + 4 ≤ inner.header
  written : ∀ c ∈ w.containers, c.header + 4 ≤ w.buffer.size
  /-- Only the innermost object can be in the middle of a field. -/
  settled : ∀ e ∈ w.expectations.tail, e ≠ .value
  waits : w.phase = .running → (w.slot.isSome = true ↔ ∃ rest, w.expectations = .value :: rest)
  slot_lt : ∀ start, w.slot = some start → start < w.buffer.size

namespace Writer.Consistent

variable {w : Writer}

/-- Only the size of the output matters, and it may grow. -/
theorem withBuffer (h : w.Consistent) {b : Buffer} (hb : w.buffer.size ≤ b.size) :
    Writer.Consistent { w with buffer := b } :=
  ⟨h.aligned, h.apart, fun c hc => Nat.le_trans (h.written c hc) hb, h.settled, h.waits,
    fun start hs => Nat.lt_of_lt_of_le (h.slot_lt start hs) hb⟩

theorem append (h : w.Consistent) (bs : Bytes) :
    Writer.Consistent { w with buffer := w.buffer.append bs } :=
  h.withBuffer (by rw [Buffer.size_append]; omega)

theorem withSink (h : w.Consistent) (s : Sink) : Writer.Consistent { w with sink := s } :=
  ⟨h.aligned, h.apart, h.written, h.settled, h.waits, h.slot_lt⟩

theorem withEscapes (h : w.Consistent) (table : Option EscapeTable) :
    Writer.Consistent { w with escapes := table } :=
  ⟨h.aligned, h.apart, h.written, h.settled, h.waits, h.slot_lt⟩

/-- A session that does not run any more need not wait for anything. -/
theorem stopped (h : w.Consistent) {phase : Phase} (hp : phase ≠ .running) :
    Writer.Consistent { w with phase } :=
  ⟨h.aligned, h.apart, h.written, h.settled, fun hr => absurd hr hp, h.slot_lt⟩

theorem fail (h : w.Consistent) : w.fail.Consistent := by
  unfold Writer.fail
  split
  · exact h.stopped (by simp)
  · exact h

/-- There is a container for each expectation. -/
theorem exists_cons (h : w.Consistent) {e : Expectation} {rest : List Expectation}
    (he : w.expectations = e :: rest) : ∃ container containers,
      w.containers = container :: containers ∧ Container.Expects e container ∧
        containers.length = rest.length := by
  have haligned := h.aligned
  rw [he] at haligned
  obtain ⟨container, containers, hexpects, hrest, hc⟩ := List.forall₂_cons_left_iff.mp haligned
  exact ⟨container, containers, hc, hexpects, hrest.length_eq.symm⟩

theorem slot_eq_none (h : w.Consistent) (hr : w.phase = .running)
    (he : ∀ rest, w.expectations ≠ .value :: rest) : w.slot = none := by
  cases hs : w.slot with
  | none => rfl
  | some start =>
    obtain ⟨rest, hv⟩ := (h.waits hr).mp (by rw [hs]; rfl)
    exact absurd hv (he rest)

/-- Changes that keep what the expectations and containers say about each other. -/
theorem restructure (h : w.Consistent) {expectations : List Expectation}
    {containers : List Container} {slot : Option Nat}
    (ha : List.Forall₂ Container.Expects expectations containers)
    (hc : containers.map Container.header = w.containers.map Container.header)
    (ht : expectations.tail = w.expectations.tail)
    (hw : w.phase = .running → (slot.isSome = true ↔ ∃ rest, expectations = .value :: rest))
    (hs : ∀ start, slot = some start → start < w.buffer.size) :
    Writer.Consistent { w with expectations, containers, slot } := by
  have hp := h.apart
  have hb := h.written
  have hmap : ∀ cs : List Container,
      (cs.Pairwise fun inner outer => outer.header + 4 ≤ inner.header) ↔
        (cs.map Container.header).Pairwise fun inner outer => outer + 4 ≤ inner := by
    intro cs
    rw [List.pairwise_map]
  rw [hmap] at hp
  refine ⟨ha, (hmap _).mpr (by rw [hc]; exact hp), fun c hm => ?_, ht ▸ h.settled, hw, hs⟩
  have hm' := List.mem_map_of_mem (f := Container.header) hm
  rw [hc] at hm'
  obtain ⟨c', hc', he⟩ := List.mem_map.mp hm'
  rw [← he]
  exact hb c' hc'

end Writer.Consistent

/-! ## Type bytes -/

theorem Container.nextElement_of_expects {e : Expectation} {c : Container}
    {containers : List Container} (h : Container.Expects e c) (he : e ≠ .element) :
    Container.nextElement (c :: containers) = none := by
  obtain ⟨header, nextIndex⟩ := c
  cases nextIndex with
  | none => rfl
  | some index => exact absurd (h.mpr rfl) he

/-- An array under way is one for the expectations too. -/
theorem Container.nextElement_eq_some {expectations : List Expectation}
    {containers next : List Container} {index : Nat}
    (ha : List.Forall₂ Container.Expects expectations containers)
    (hn : Container.nextElement containers = some (index, next)) :
    ∃ rest header outer, expectations = .element :: rest ∧
      containers = ⟨header, some index⟩ :: outer ∧ next = ⟨header, some (index + 1)⟩ :: outer := by
  cases ha with
  | nil => cases hn
  | @cons e c rest outer hm hrest =>
    have he : e = .element := by
      by_contra hne
      rw [nextElement_of_expects hm hne] at hn
      cases hn
    obtain ⟨header, nextIndex⟩ := c
    obtain ⟨i, rfl⟩ := Option.isSome_iff_exists.mp (hm.mp he)
    cases hn
    exact ⟨rest, header, outer, by rw [he], rfl, rfl⟩

/-- Where an element is expected, an array is under way. -/
theorem Container.nextElement_ne_none {rest : List Expectation} {containers : List Container}
    (ha : List.Forall₂ Container.Expects (.element :: rest) containers) :
    Container.nextElement containers ≠ none := by
  obtain ⟨⟨header, nextIndex⟩, outer, hm, -, rfl⟩ := List.forall₂_cons_left_iff.mp ha
  obtain ⟨index, rfl⟩ := Option.isSome_iff_exists.mp (hm.mp rfl)
  exact Option.some_ne_none _

theorem Container.expects_start (header : Nat) (shape : Shape) :
    Container.Expects shape.expectation (start header shape) := by
  cases shape <;> simp [Expects, start, Shape.expectation]

/-- The expectation of an object may change to another one of an object. -/
theorem Container.expects_other {e e' : Expectation} {rest : List Expectation}
    {containers : List Container} (h : List.Forall₂ Container.Expects (e :: rest) containers)
    (he : e ≠ .element) (he' : e' ≠ .element) :
    List.Forall₂ Container.Expects (e' :: rest) containers := by
  obtain ⟨c, cs, hm, hrest, rfl⟩ := List.forall₂_cons_left_iff.mp h
  exact .cons ⟨fun h => absurd h he', fun h => absurd (hm.mpr h) he⟩ hrest

namespace Action

open Writer (Consistent)

variable {w : Writer}

/-- A running session in which no type byte waits. -/
structure Settled (w : Writer) : Prop where
  consistent : w.Consistent
  running : w.phase = .running
  slotless : w.slot = none

theorem Settled.expects (h : Settled w) (rest : List Expectation) :
    w.expectations ≠ .value :: rest := by
  intro he
  have hs := (h.consistent.waits h.running).mpr ⟨rest, he⟩
  rw [h.slotless] at hs
  cases hs

/-- After the type byte of a value is taken, none waits. -/
theorem settled_takePosition (h : w.Consistent) {kind : ValueKind} {activity : Activity} :
    (takePosition kind activity).Yields w (fun _ => Settled) (fun _ => Consistent) := by
  have haligned := h.aligned
  refine yields_takePosition (fun _ => h.fail) ?_ ?_
  · intro expectations hr ha hn
    refine ⟨?_, hr, rfl⟩
    cases he : w.expectations with
    | nil =>
      rw [he] at ha haligned
      obtain rfl : expectations = [] := by cases kind <;> cases ha; rfl
      exact h.restructure haligned rfl (by rw [he]) (by simp) (by simp)
    | cons e rest =>
      rw [he] at ha haligned
      cases e with
      | name => cases ha
      | element => exact absurd hn (Container.nextElement_ne_none haligned)
      | value =>
        cases ha
        have hother := Container.expects_other haligned (by simp)
          (show Expectation.name ≠ .element by simp)
        exact h.restructure hother rfl (by rw [he]; rfl) (by simp) (by simp)
  · intro expectations index containers bs hr ha hn
    obtain ⟨rest, header, outer, he, hc, rfl⟩ := Container.nextElement_eq_some haligned hn
    rw [he, hc] at haligned
    rw [he] at ha
    cases ha
    have hnext : List.Forall₂ Container.Expects (.element :: rest)
        (⟨header, some (index + 1)⟩ :: outer) :=
      .cons ⟨fun _ => rfl, fun _ => rfl⟩ (List.forall₂_cons.mp haligned).2
    have hv := (h.restructure hnext (by rw [hc]; rfl) (by rw [he]) (by rw [← he]; exact h.waits)
      h.slot_lt).append (0 :: bs)
    exact ⟨⟨hv, hr, h.slot_eq_none hr (by simp [he])⟩, fun _ => hv.fail⟩

theorem consistent_fieldName (name : String) : Keeps Consistent (fieldName name) := by
  intro w h
  refine yields_fieldName (fun _ => h.fail) fun expectations bs hr ha => ?_
  have haligned := h.aligned
  have hsettled := h.settled
  have hv := h.append (0 :: bs)
  cases he : w.expectations with
  | nil => rw [he] at ha; cases ha
  | cons e rest =>
    rw [he] at ha haligned hsettled
    cases e with
    | value => cases ha
    | element => cases ha
    | name =>
      cases ha
      have ha := Container.expects_other haligned (by simp)
        (show Expectation.value ≠ .element by simp)
      refine ⟨⟨ha, h.apart, hv.written, hsettled, fun _ => ?_, ?_⟩, fun _ => ?_⟩
      · exact ⟨fun _ => ⟨rest, rfl⟩, fun _ => rfl⟩
      · intro start hstart
        cases hstart
        simp only [Buffer.size_append, List.length_cons]
        omega
      · simp only [Writer.fail, hr, if_true]
        exact ⟨ha, h.apart, hv.written, hsettled, by simp, hv.slot_lt⟩

theorem consistent_checkArray : Keeps Consistent checkArray :=
  fun _ h => yields_checkArray (fun _ => h.fail) h

/-- The same at every place that a value can go to. -/
theorem settled_take (h : w.Consistent) (place : Place) (kind : ValueKind) (activity : Activity) :
    (take place kind activity).Yields w (fun _ => Settled) (fun _ => Consistent) := by
  cases place with
  | direct => exact settled_takePosition h
  | field name =>
    rw [take, yields_andThen]
    exact (consistent_fieldName name w h).mono (fun _ _ hw => settled_takePosition hw)
      fun _ _ hw => hw
  | element =>
    rw [take, yields_andThen]
    exact (consistent_checkArray w h).mono (fun _ _ hw => settled_takePosition hw)
      fun _ _ hw => hw

/-! ## Output -/

namespace Settled

theorem withBuffer (h : Settled w) {b : Buffer} (hb : w.buffer.size ≤ b.size) :
    Settled { w with buffer := b } := ⟨h.consistent.withBuffer hb, h.running, h.slotless⟩

theorem withSink (h : Settled w) (sink : Sink) : Settled { w with sink } :=
  ⟨h.consistent.withSink sink, h.running, h.slotless⟩

end Settled

theorem consistent_emit (p : Payload) : Keeps Consistent (emit p) :=
  Keeps.emit (fun _ _ h hb => h.withBuffer hb) p

theorem settled_emit (p : Payload) : Keeps Settled (emit p) :=
  Keeps.emit (fun _ _ h hb => h.withBuffer hb) p

theorem settled_patchLength (start : Nat) : Keeps Settled (patchLength start) :=
  Keeps.patchLength (fun _ _ h hb => h.withBuffer hb) start

theorem consistent_drain : Keeps Consistent drain :=
  Keeps.drain (fun _ _ h hb => h.withBuffer hb) fun _ sink h => h.withSink sink

theorem settled_drain : Keeps Settled drain :=
  Keeps.drain (fun _ _ h hb => h.withBuffer hb) fun _ sink h => h.withSink sink

/-- What ends a container: everything leaves, or the length field is filled. -/
theorem settled_drainOrPatchLength (streaming : Bool) (start : Nat) :
    Keeps Settled (if streaming then drain else patchLength start) := by
  split
  · exact settled_drain
  · exact settled_patchLength start

theorem consistent_drainIfStreaming : Keeps Consistent drainIfStreaming := by
  intro w h
  rw [yields_drainIfStreaming]
  split
  · exact consistent_drain w h
  · exact h

theorem consistent_flushSink : Keeps Consistent flushSink := by
  intro w h
  rw [yields_flushSink]
  refine (consistent_drain w h).mono (fun _ w' h' => ?_) fun _ _ h' => h'
  split
  · exact h'.withSink _
  · exact h'.withSink _

theorem settled_fill (slot : Option Nat) (type : ElementType) : Keeps Settled (fill slot type) := by
  cases slot with
  | none => exact fun _ h => h
  | some start => exact Keeps.patch (fun _ _ h hb => h.withBuffer hb) start _

theorem settled_fillScalar (slot : Option Nat) (type : ElementType) :
    Keeps Settled (fillScalar slot type) := by
  cases slot with
  | none => exact fun _ h => h
  | some start => exact settled_fill (some start) type

/-! ## Containers -/

theorem settled_openContainer (shape : Shape) : Keeps Settled (openContainer shape) := by
  intro w h
  obtain ⟨hc, hr, hs⟩ := h
  rw [yields_openContainer]
  have hv := hc.append (lengthField 0)
  refine ⟨⟨.cons (Container.expects_start ..) hc.aligned, List.pairwise_cons.mpr ⟨?_, hc.apart⟩,
    ?_, ?_, ?_, by simp [hs]⟩, hr, hs⟩
  · intro c hm
    rw [Container.header_start]
    exact hc.written c hm
  · intro c hm
    obtain rfl | hm := List.mem_cons.mp hm
    · rw [Container.header_start, Buffer.size_append]
      exact Nat.le_refl _
    · exact hv.written c hm
  · intro e hm hv
    subst hv
    have hexpects := Settled.expects ⟨hc, hr, hs⟩
    have hsettled := hc.settled
    cases he : w.expectations with
    | nil => rw [List.tail_cons, he] at hm; cases hm
    | cons e rest =>
      rw [List.tail_cons, he] at hm
      rw [he] at hsettled hexpects
      obtain rfl | hm := List.mem_cons.mp hm
      · exact hexpects rest rfl
      · exact hsettled .value hm rfl
  · intro _
    rw [hs]
    cases shape <;> simp [Shape.expectation]

/-- A container can only end when no type byte waits. -/
theorem slot_of_leave (h : w.Consistent) (hr : w.phase = .running) {shape : Shape}
    {rest : List Expectation} (hl : leave shape w.expectations = .ok rest) : w.slot = none := by
  refine h.slot_eq_none hr fun other => ?_
  rw [leave_eq_ok hl]
  cases shape <;> simp [Shape.expectation]

/-- A container that may end is there. -/
theorem exists_container (h : w.Consistent) {shape : Shape} {rest : List Expectation}
    (hl : leave shape w.expectations = .ok rest) :
    ∃ container containers, w.containers = container :: containers := by
  obtain ⟨container, containers, hc, -⟩ := h.exists_cons (leave_eq_ok hl)
  exact ⟨container, containers, hc⟩

/-- When a container has been left, no type byte waits. -/
theorem settled_leave (h : w.Consistent) (hr : w.phase = .running) {shape : Shape}
    {expectations : List Expectation} {container : Container} {containers : List Container}
    (hl : leave shape w.expectations = .ok expectations)
    (hc : w.containers = container :: containers) : Settled { w with
      expectations, containers, buffer := w.buffer.append [endOfDocument] } := by
  have he := leave_eq_ok hl
  have hs := slot_of_leave h hr hl
  have ha := h.aligned
  have hp := h.apart
  have hsettled := h.settled
  rw [he, hc] at ha
  rw [hc] at hp
  rw [he, List.tail_cons] at hsettled
  refine ⟨⟨(List.forall₂_cons.mp ha).2, (List.pairwise_cons.mp hp).2, ?_, ?_, ?_, by simp [hs]⟩,
    hr, hs⟩
  · intro c hm
    exact (h.append [endOfDocument]).written c (by rw [hc]; exact List.mem_cons_of_mem _ hm)
  · intro e hm
    exact hsettled e (List.mem_of_mem_tail hm)
  · intro _
    refine ⟨fun hsome => ?_, fun ⟨rest, hrest⟩ => ?_⟩
    · rw [hs] at hsome
      cases hsome
    · have hm : Expectation.value ∈ expectations := by
        rw [show expectations = .value :: rest from hrest]
        exact List.mem_cons_self
      exact absurd rfl (hsettled .value hm)

/-- After the end of a container no type byte waits. -/
theorem settled_endContainer (h : w.Consistent) (shape : Shape) :
    (endContainer shape).Yields w (fun _ => Settled) (fun _ => Consistent) := by
  refine yields_endContainer (fun _ => h.fail) ?_ ?_
  · intro expectations e hl hc
    obtain ⟨container, containers, hcons⟩ := exists_container h hl
    rw [hc] at hcons
    cases hcons
  · intro expectations container containers hr hl hc
    exact (settled_drainOrPatchLength _ _ _ (settled_leave h hr hl hc)).mono (fun _ _ hw => hw)
      fun _ _ hw => hw.consistent.fail

theorem consistent_endContainer (shape : Shape) : Keeps Consistent (endContainer shape) :=
  fun _ h => (settled_endContainer h shape).mono (fun _ _ hw => hw.consistent) fun _ _ hw => hw

/-! ## Steps -/

theorem consistent_writeTo (value : Scalar) (slot : Option Nat) (h : Settled w) :
    (writeTo value slot).Yields w (fun _ => Consistent) (fun _ => Consistent) := by
  simp only [writeTo, yields_tracked, yields_andThen, yields_get]
  refine (settled_fillScalar slot _ w h).mono (fun _ w' hw => ?_) fun _ _ hw => hw.consistent.fail
  refine (consistent_emit _ w' hw.consistent).mono (fun _ w' hw => ?_) fun _ _ hw => hw.fail
  exact (consistent_drainIfStreaming w' hw).mono (fun _ _ hw => hw) fun _ _ hw => hw.fail

theorem consistent_openAt (shape : Shape) (slot : Option Nat) (h : Settled w) :
    (openAt shape slot).Yields w (fun _ => Consistent) (fun _ => Consistent) := by
  simp only [openAt, yields_tracked, yields_andThen]
  refine (settled_fill slot _ w h).mono (fun _ w' hw => ?_) fun _ _ hw => hw.consistent.fail
  exact (settled_openContainer shape w' hw).mono (fun _ _ hw => hw.consistent) fun _ _ hw =>
    hw.consistent.fail

theorem consistent_openScopeAt (code : String) (slot : Option Nat) (h : Settled w) :
    (openScopeAt code slot).Yields w (fun _ => Consistent) (fun _ => Consistent) := by
  simp only [openScopeAt, yields_tracked, yields_andThen, yields_get, yields_offset, yields_pure]
  refine (settled_fillScalar slot _ w h).mono (fun _ w' hw => ?_) fun _ _ hw => hw.consistent.fail
  have hv : Settled { w' with buffer := w'.buffer.append (lengthField 0) } :=
    ⟨hw.consistent.append _, hw.running, hw.slotless⟩
  refine (settled_emit _ _ hv).mono (fun _ w' hw => ?_) fun _ _ hw => hw.consistent.fail
  exact (settled_openContainer .document w' hw).mono (fun _ _ hw => hw.consistent) fun _ _ hw =>
    hw.consistent.fail

theorem consistent_drop (activity : Activity) : Keeps Consistent (drop activity) := by
  intro w h
  simp only [drop, yields_andThen, yields_modify]
  exact (settled_takePosition h).mono (fun _ _ hw => hw.consistent.fail) fun _ _ hw => hw

theorem consistent_openScope (h : w.Consistent) (activity : Activity) (code : String) :
    (Step.openScope activity code).Yields w (fun _ => Consistent) (fun _ => Consistent) := by
  rw [Step.openScope, yields_andThen]
  exact (settled_takePosition h).mono (fun slot _ hw => consistent_openScopeAt code slot hw)
    fun _ _ hw => hw

theorem consistent_endScope (mark : ScopeMark) : Keeps Consistent (endScope mark) := by
  intro w h
  refine yields_endScope (fun _ => h.fail) fun _ => ?_
  refine (settled_endContainer h .document).mono (fun _ w' hw => ?_) fun _ _ hw => hw.fail
  exact (settled_drainOrPatchLength _ _ w' hw).mono (fun _ _ hw => hw.consistent)
    fun _ _ hw => hw.consistent.fail

theorem consistent_flush : Keeps Consistent flush := by
  intro w h
  refine yields_flush (fun _ => h.fail) fun _ => ?_
  exact (consistent_flushSink w h).mono (fun _ _ hw => hw) fun _ _ hw => hw.fail

theorem consistent_endAll (w : Writer) : Keeps Consistent (endAll w) := by
  unfold endAll
  split
  · exact Keeps.forM (fun c : Container => consistent_endContainer c.shape) _
  · exact fun _ h => h

theorem consistent_close : Keeps Consistent close := by
  intro w h
  refine yields_close (fun _ => h) (fun _ => ?_) fun _ => ?_
  · exact (h.withBuffer (Nat.le_of_eq (Buffer.size_discard ..).symm)).stopped (by simp)
  · refine (consistent_endAll w w h).mono (fun _ w' hw => ?_) fun _ _ hw => hw
    exact (consistent_flushSink w' hw).mono (fun _ _ hw => hw.stopped (by simp))
      fun _ _ hw => hw.fail

theorem consistent_step (step : Step) : Keeps Consistent step.action := by
  intro w h
  cases step with
  | name text => exact consistent_fieldName text w h
  | checkArray => exact consistent_checkArray w h
  | write activity value =>
    rw [Step.action, yields_andThen]
    exact (settled_takePosition h).mono (fun slot _ hw => consistent_writeTo value slot hw)
      fun _ _ hw => hw
  | begin kind activity shape =>
    rw [Step.action, yields_andThen]
    exact (settled_takePosition h).mono (fun slot _ hw => consistent_openAt shape slot hw)
      fun _ _ hw => hw
  | finish shape => exact consistent_endContainer shape w h
  | drop activity => exact consistent_drop activity w h
  | fail => exact h.fail
  | flush => exact consistent_flush w h
  | close => exact consistent_close w h
  | setEscapes table => exact h.withEscapes table
  | beginScope | endScope | failScope => exact h

end Action

/-! ## Runs -/

theorem Step.consistent_apply {p : Progress} (h : p.writer.Consistent) (step : Step) :
    (step.apply p).writer.Consistent :=
  @apply_cases (fun p => p.writer.Consistent) p step h (Action.consistent_step step p.writer h)
    (fun activity code => Action.consistent_openScope h activity code)
    (fun mark _ _ => Action.consistent_endScope mark p.writer h) h.fail

theorem Step.consistent_run {p : Progress} (h : p.writer.Consistent) (steps : List Step) :
    (run p steps).writer.Consistent :=
  @run_induction (fun p => p.writer.Consistent) (fun _ step h => consistent_apply h step) p h
    steps

theorem Writer.consistent_onStorage (sink : Sink) (options : Options) (storage : Bytes) :
    (onStorage sink options storage).Consistent :=
  ⟨.nil, .nil, by simp [onStorage], by simp [onStorage], by simp [onStorage], by simp [onStorage]⟩

/-- The bookkeeping agrees with itself in every state that a session can be in. -/
theorem Writer.Reachable.consistent {w : Writer} (h : w.Reachable) : w.Consistent := by
  obtain ⟨sink, options, storage, steps, scopes, hrun⟩ := h
  have hc := @Step.consistent_run ⟨onStorage sink options storage, []⟩
    (consistent_onStorage sink options storage) steps
  rw [hrun] at hc
  exact hc

end BsonWriter
