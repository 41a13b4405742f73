import BsonWriter.Proofs.Run.Inversion
import BsonWriter.Proofs.Run.Refusal

/-!
What a step has done if the session runs after it. Such a step has gone well, in a session
that ran before (`Step.moves_of_running`), and `Step.Moves` lists what it can have done to
the expectations, the open containers, the waiting type byte and the scopes. Of the output
it tells where the changes begin: whoever needs more than that has to look at the step
itself.
-/

namespace BsonWriter

/-- The open containers after a value has begun: in an array the next element has the next
index. -/
def Container.taken (containers : List Container) : List Container :=
  match nextElement containers with
  | some (_, next) => next
  | none => containers

@[simp] theorem Container.header_taken (containers : List Container) :
    (taken containers).map header = containers.map header := by
  unfold taken
  split
  · exact header_nextElement (by assumption)
  · rfl

/-- Something has been written or handed over, and nothing else has happened. While the
session keeps its output, nothing leaves this way. -/
structure Writer.Extends (u v : Writer) : Prop where
  same : ∃ buffer sink, v = { u with buffer, sink }
  size_le : u.buffer.size ≤ v.buffer.size
  stays : u.options.streaming = false → v.buffer.gone = u.buffer.gone

namespace Writer.Extends

variable {u v : Writer}

theorem refl (u : Writer) : u.Extends u := ⟨⟨_, _, rfl⟩, Nat.le_refl _, fun _ => rfl⟩

theorem trans {w : Writer} (h : u.Extends v) (h' : v.Extends w) : u.Extends w := by
  obtain ⟨⟨buffer, sink, rfl⟩, hsize, hstays⟩ := h
  obtain ⟨hsame, hsize', hstays'⟩ := h'
  exact ⟨hsame, Nat.le_trans hsize hsize', fun hk => (hstays' hk).trans (hstays hk)⟩

theorem withBuffer (h : u.Extends v) {b : Buffer} (hs : v.buffer.size ≤ b.size)
    (hg : b.gone = v.buffer.gone) : u.Extends { v with buffer := b } := by
  obtain ⟨⟨buffer, sink, rfl⟩, hsize, hstays⟩ := h
  exact ⟨⟨b, sink, rfl⟩, Nat.le_trans hsize hs, fun hk => hg.trans (hstays hk)⟩

theorem append (h : u.Extends v) (bs : Bytes) :
    u.Extends { v with buffer := v.buffer.append bs } :=
  h.withBuffer (v.buffer.size_le_append bs) rfl

theorem expectations (h : u.Extends v) : v.expectations = u.expectations := by
  obtain ⟨⟨buffer, sink, rfl⟩, -⟩ := h
  rfl

theorem containers (h : u.Extends v) : v.containers = u.containers := by
  obtain ⟨⟨buffer, sink, rfl⟩, -⟩ := h
  rfl

theorem slot (h : u.Extends v) : v.slot = u.slot := by
  obtain ⟨⟨buffer, sink, rfl⟩, -⟩ := h
  rfl

theorem options (h : u.Extends v) : v.options = u.options := by
  obtain ⟨⟨buffer, sink, rfl⟩, -⟩ := h
  rfl

theorem phase (h : u.Extends v) : v.phase = u.phase := by
  obtain ⟨⟨buffer, sink, rfl⟩, -⟩ := h
  rfl

end Writer.Extends

namespace Action

open Writer (Extends)

variable {u : Writer}

theorem extends_emit (p : Payload) : Keeps u.Extends (emit p) := by
  intro w h
  rw [yields_emit]
  cases p.failure with
  | none => exact h.append _
  | some cause => exact h.append _

theorem extends_patch (offset : Nat) (bs : Bytes) : Keeps u.Extends (patch offset bs) := by
  intro w h
  rw [yields_patch]
  cases hp : w.buffer.patch offset bs with
  | error cause => exact h
  | ok b =>
    exact h.withBuffer (Nat.le_of_eq (Buffer.size_of_patch hp).symm) (Buffer.gone_of_patch hp)

theorem extends_patchLength (start : Nat) : Keeps u.Extends (patchLength start) := by
  intro w h
  unfold patchLength
  simp only [yields_andThen, yields_offset, yields_ite, yields_raise]
  split
  · exact extends_patch _ _ w h
  · exact h

/-- Only a streaming session hands output over in the middle of a step. -/
theorem extends_drain {w : Writer} (h : u.Extends w) (hs : w.options.streaming = true) :
    drain.Yields w (fun _ => u.Extends) (fun _ => u.Extends) := by
  obtain ⟨⟨buffer, sink, rfl⟩, hsize, -⟩ := h
  have hstays : ∀ {P : Prop}, u.options.streaming = false → P := fun hk => by simp_all
  rw [yields_drain]
  cases sink.handOver buffer.held with
  | mk result sink =>
    cases result with
    | error fault => exact ⟨⟨buffer, sink, rfl⟩, hsize, hstays⟩
    | ok x =>
      refine ⟨⟨buffer.drained, sink, rfl⟩, ?_, hstays⟩
      show u.buffer.size ≤ buffer.drained.size
      rw [Buffer.size_discard]
      exact hsize

theorem extends_drainIfStreaming : Keeps u.Extends drainIfStreaming := by
  intro w h
  rw [yields_drainIfStreaming]
  split
  · exact extends_drain h (by assumption)
  · exact h

theorem extends_drainOrPatchLength {w : Writer} (h : u.Extends w) (start : Nat) :
    (if w.options.streaming then drain else patchLength start).Yields w (fun _ => u.Extends)
      (fun _ => u.Extends) := by
  split
  · exact extends_drain h (by assumption)
  · exact extends_patchLength start w h

theorem extends_fill (slot : Option Nat) (type : ElementType) :
    Keeps u.Extends (fill slot type) := by
  cases slot with
  | none => exact fun _ h => h
  | some start => exact extends_patch start _

theorem extends_fillScalar (slot : Option Nat) (type : ElementType) :
    Keeps u.Extends (fillScalar slot type) := by
  cases slot with
  | none => exact fun _ h => h
  | some start => exact extends_fill (some start) type

variable {w w' : Writer}

/-! ## Names and values -/

theorem extends_of_fieldName {name : String} (hrun : (fieldName name).run w = .ok () w') :
    ∃ rest, w.expectations = .name :: rest ∧ Writer.Extends { w with
      expectations := .value :: rest, slot := some w.buffer.size } w' := by
  have hy : (fieldName name).Yields w (fun _ v => ∃ rest, w.expectations = .name :: rest ∧
      Writer.Extends { w with
        expectations := .value :: rest, slot := some w.buffer.size } v) (fun _ _ => True) := by
    refine yields_fieldName (fun _ => trivial) fun expectations bs _ ha => ⟨?_, fun _ => trivial⟩
    obtain ⟨rest, he, rfl⟩ := Expectation.admitName_eq_ok ha
    exact ⟨rest, he, (Extends.refl _).append _⟩
  exact hy.of_ok hrun

theorem after_checkArray (hrun : checkArray.run w = .ok () w') : w' = w :=
  (@yields_checkArray w (fun _ v => v = w) (fun _ _ => True) (fun _ => trivial) rfl).of_ok hrun

theorem extends_of_writeTo {value : Scalar} {slot : Option Nat}
    (hrun : (writeTo value slot).run w = .ok () w') : w.Extends w' := by
  have hall : Keeps w.Extends (do
      let v ← get
      let primitive := value.primitive v.options
      fillScalar slot primitive.type
      emit (primitive.payload v.escapes)
      drainIfStreaming : Action Unit) :=
    Keeps.andThen (fun _ h => h) fun _ => Keeps.andThen (extends_fillScalar slot _) fun _ =>
      Keeps.andThen (extends_emit _) fun _ => extends_drainIfStreaming
  exact (hall w (.refl w)).of_ok (tracked_eq_ok hrun)

theorem extends_of_openAt {shape : Shape} {slot : Option Nat}
    (hrun : (openAt shape slot).run w = .ok () w') : ∃ v, w.Extends v ∧ w' = v.opened shape := by
  obtain ⟨x, v, hfill, hopen⟩ := run_andThen_eq_ok (tracked_eq_ok hrun)
  refine ⟨v, (extends_fill slot _ w (.refl w)).of_ok hfill, ?_⟩
  have hy := run_eq_ok_iff.mp hopen
  rw [yields_openContainer] at hy
  exact hy.2.symm

theorem extends_of_openScopeAt {code : String} {slot : Option Nat} {mark : ScopeMark}
    (hrun : (openScopeAt code slot).run w = .ok mark w') :
    mark = ⟨w.buffer.size, w.expectations.length + 1⟩ ∧ ∃ v, w.Extends v ∧
      w.buffer.size + 4 ≤ v.buffer.size ∧ w' = v.opened .document := by
  obtain ⟨start, text, b, -, hp, -, rfl, rfl⟩ := openScopeAt_eq_ok hrun
  have hsize := Buffer.size_of_patch hp
  have hb := (Extends.refl w).withBuffer (Nat.le_of_eq hsize.symm) (Buffer.gone_of_patch hp)
  refine ⟨by rw [hsize], _, hb.append _, ?_, rfl⟩
  simp only [Buffer.size_append, List.length_append, length_lengthField, hsize]
  omega

/-- The expectations and containers after the type byte of a value has been taken. -/
theorem extends_of_takePosition (hc : w.Consistent) {kind : ValueKind} {activity : Activity}
    {slot : Option Nat} (hrun : (takePosition kind activity).run w = .ok slot w') :
    ∃ expectations, Expectation.admitValue kind activity w.expectations = .ok expectations ∧
      Writer.Extends { w with
        expectations, containers := Container.taken w.containers, slot := none } w' := by
  have hy : (takePosition kind activity).Yields w (fun _ v => ∃ expectations,
      Expectation.admitValue kind activity w.expectations = .ok expectations ∧
        Writer.Extends { w with
          expectations, containers := Container.taken w.containers, slot := none }
          { v with slot := none }) (fun _ _ => True) := by
    refine yields_takePosition (fun _ => trivial) ?_ ?_
    · intro expectations _ ha hn
      refine ⟨expectations, ha, ?_⟩
      rw [Container.taken, hn]
      exact .refl _
    · intro expectations index containers bs _ ha hn
      refine ⟨⟨expectations, ha, ?_⟩, fun _ => trivial⟩
      rw [Container.taken, hn]
      exact (Extends.refl _).append _
  have hslot : w'.slot = none := ((settled_takePosition hc).of_ok hrun).slotless
  have hw' : { w' with slot := none } = w' := by rw [← hslot]
  have := hy.of_ok hrun
  rwa [hw'] at this

/-! ## Ends -/

theorem extends_of_endContainer {shape : Shape} (hrun : (endContainer shape).run w = .ok () w') :
    ∃ rest container containers, w.expectations = shape.expectation :: rest ∧
      w.containers = container :: containers ∧
      Writer.Extends { w with expectations := rest, containers } w' := by
  have hy : (endContainer shape).Yields w (fun _ v => ∃ rest container containers,
      w.expectations = shape.expectation :: rest ∧ w.containers = container :: containers ∧
        Writer.Extends { w with expectations := rest, containers } v) (fun _ _ => True) := by
    refine yields_endContainer (fun _ => trivial) (fun _ _ _ _ => trivial) ?_
    intro rest container containers _ hl hc
    have hmarked := (Extends.refl { w with expectations := rest, containers }).append
      [endOfDocument]
    exact (extends_drainOrPatchLength hmarked container.header).mono
      (fun _ v hv => ⟨rest, container, containers, leave_eq_ok hl, hc, hv⟩) fun _ _ _ => trivial
  exact hy.of_ok hrun

theorem extends_of_endScope {mark : ScopeMark} (hrun : (endScope mark).run w = .ok () w') :
    ∃ rest container containers, w.expectations = .name :: rest ∧
      mark.depth = rest.length + 1 ∧ w.containers = container :: containers ∧
      Writer.Extends { w with expectations := rest, containers } w' := by
  have hy : (endScope mark).Yields w (fun _ v => ∃ rest container containers,
      w.expectations = .name :: rest ∧ mark.depth = rest.length + 1 ∧
        w.containers = container :: containers ∧
        Writer.Extends { w with expectations := rest, containers } v) (fun _ _ => True) := by
    refine yields_endScope (fun _ => trivial) fun hd => ?_
    cases hend : (endContainer .document).run w with
    | error e v =>
      rw [Yields, hend]
      trivial
    | ok x v =>
      obtain ⟨rest, container, containers, he, hc, hv⟩ := extends_of_endContainer hend
      rw [yields_iff_of_ok hend]
      refine (extends_drainOrPatchLength hv mark.start).mono (fun _ u hu => ?_) fun _ _ _ => trivial
      exact ⟨rest, container, containers, he, by rw [← hd, he, List.length_cons], hc, hu⟩
  exact hy.of_ok hrun

theorem phase_of_close (hrun : close.run w = .ok () w') : w'.phase = .closed := by
  have hy : close.Yields w (fun _ v => v.phase = .closed) (fun _ _ => True) :=
    yields_close id (fun _ => rfl) fun _ => yields_of_forall
      (fun _ _ => yields_of_forall (fun _ _ => rfl) fun _ _ => trivial) fun _ _ => trivial
  exact hy.of_ok hrun

end Action

/-! ## Steps -/

namespace Step

open BsonWriter.Action

/-- What a step can have done to a session that runs after it. -/
inductive Moves (p : Progress) : Step → Progress → Prop
  | name {text : String} {rest : List Expectation} {w : Writer} :
    p.writer.expectations = .name :: rest →
    Writer.Extends { p.writer with
      expectations := .value :: rest, slot := some p.writer.buffer.size } w →
    Moves p (.name text) ⟨w, p.scopes⟩
  | checkArray : Moves p .checkArray p
  | write {activity : Activity} {value : Scalar} {expectations : List Expectation} {w : Writer} :
    Expectation.admitValue .scalar activity p.writer.expectations = .ok expectations →
    Writer.Extends { p.writer with
      expectations, containers := Container.taken p.writer.containers, slot := none } w →
    Moves p (.write activity value) ⟨w, p.scopes⟩
  | begin {kind : ValueKind} {activity : Activity} {shape : Shape}
    {expectations : List Expectation} {w : Writer} :
    Expectation.admitValue kind activity p.writer.expectations = .ok expectations →
    Writer.Extends { p.writer with
      expectations, containers := Container.taken p.writer.containers, slot := none } w →
    Moves p (.begin kind activity shape) ⟨w.opened shape, p.scopes⟩
  | beginScope {activity : Activity} {code : String} {expectations : List Expectation}
    {start : Nat} {w : Writer} :
    Expectation.admitValue .scalar activity p.writer.expectations = .ok expectations →
    Writer.Extends { p.writer with
      expectations, containers := Container.taken p.writer.containers, slot := none } w →
    p.writer.buffer.size ≤ start → start + 4 ≤ w.buffer.size →
    Moves p (.beginScope activity code)
      ⟨w.opened .document, ⟨start, expectations.length + 1⟩ :: p.scopes⟩
  | finish {shape : Shape} {rest : List Expectation} {container : Container}
    {containers : List Container} {w : Writer} :
    p.writer.expectations = shape.expectation :: rest →
    p.writer.containers = container :: containers →
    Writer.Extends { p.writer with expectations := rest, containers } w →
    Moves p (.finish shape) ⟨w, p.scopes⟩
  | endScope {mark : ScopeMark} {scopes : List ScopeMark} {rest : List Expectation}
    {container : Container} {containers : List Container} {w : Writer} :
    p.scopes = mark :: scopes → p.writer.expectations = .name :: rest →
    mark.depth = rest.length + 1 → p.writer.containers = container :: containers →
    Writer.Extends { p.writer with expectations := rest, containers } w →
    Moves p .endScope ⟨w, scopes⟩
  | noScope : p.scopes = [] → Moves p .endScope p
  | flush {sink : Sink} :
    Moves p .flush ⟨{ p.writer with sink, buffer := p.writer.buffer.drained }, p.scopes⟩
  | setEscapes {table : Option EscapeTable} :
    Moves p (.setEscapes table) ⟨{ p.writer with escapes := table }, p.scopes⟩

variable {p : Progress}

/-- A session that runs after a step ran before it, and the step has gone well. -/
theorem running_of_apply {step : Step} (hr : (step.apply p).writer.phase = .running) :
    p.writer.phase = .running ∧ ¬step.Fails p := by
  refine ⟨?_, fun hf => stopped_of_fails hf hr⟩
  by_contra hp
  exact stopped_apply hp step hr

theorem running_of_run {steps : List Step} (hr : (run p steps).writer.phase = .running) :
    p.writer.phase = .running := by
  by_contra hp
  exact stopped_run hp steps hr

/-- The beginning of a scope that has not failed. -/
theorem exists_openScope {activity : Activity} {code : String}
    (hf : ¬(beginScope activity code).Fails p) :
    ∃ mark w, (openScope activity code).run p.writer = .ok mark w := by
  cases hr : (openScope activity code).run p.writer with
  | ok mark w => exact ⟨mark, w, rfl⟩
  | error e w =>
    refine absurd ⟨e, ?_⟩ hf
    rw [result, result_of_error hr]
    rfl

/-- The end of a scope that has not failed. -/
theorem run_endScope_of_not_failed {mark : ScopeMark} {scopes : List ScopeMark}
    (hs : p.scopes = mark :: scopes) (hf : ¬endScope.Fails p) :
    (Action.endScope mark).run p.writer = .ok () ((Action.endScope mark).after p.writer) := by
  refine run_of_not_failed fun ⟨e, he⟩ => hf ⟨e, ?_⟩
  rw [result, hs]
  exact he

/-- What a step has done if the session runs after it. -/
theorem moves_of_running (hc : p.writer.Consistent) {step : Step}
    (hr : (step.apply p).writer.phase = .running) : step.Moves p (step.apply p) := by
  obtain ⟨hp, hf⟩ := running_of_apply hr
  cases step with
  | drop | fail | failScope => exact absurd trivial hf
  | close =>
    have hclosed := phase_of_close (run_of_not_failed hf)
    exact absurd (hclosed.symm.trans hr) Phase.noConfusion
  | name text =>
    obtain ⟨rest, he, hw⟩ := extends_of_fieldName (run_of_not_failed hf)
    exact .name he hw
  | checkArray =>
    have hsame := after_checkArray (run_of_not_failed hf)
    rw [show Step.checkArray.apply p = ⟨_, p.scopes⟩ from
      congrArg (fun w => (⟨w, p.scopes⟩ : Progress)) hsame]
    exact .checkArray
  | write activity value =>
    obtain ⟨slot, u, htake, hwrite⟩ := run_andThen_eq_ok (run_of_not_failed hf)
    obtain ⟨expectations, ha, hu⟩ := extends_of_takePosition hc htake
    exact .write ha (hu.trans (extends_of_writeTo hwrite))
  | begin kind activity shape =>
    obtain ⟨slot, u, htake, hopen⟩ := run_andThen_eq_ok (run_of_not_failed hf)
    obtain ⟨expectations, ha, hu⟩ := extends_of_takePosition hc htake
    obtain ⟨v, hv, hw⟩ := extends_of_openAt hopen
    rw [show (Step.begin kind activity shape).apply p = ⟨v.opened shape, p.scopes⟩ from
      congrArg (fun w => (⟨w, p.scopes⟩ : Progress)) hw]
    exact .begin ha (hu.trans hv)
  | finish shape =>
    obtain ⟨rest, container, containers, he, hc, hw⟩ :=
      extends_of_endContainer (run_of_not_failed hf)
    exact .finish he hc hw
  | flush =>
    obtain ⟨sink, -, hw⟩ := flushSink_eq_ok (flush_eq_ok (run_of_not_failed hf))
    rw [show Step.flush.apply p = ⟨_, p.scopes⟩ from
      congrArg (fun w => (⟨w, p.scopes⟩ : Progress)) hw]
    exact .flush
  | setEscapes table => exact .setEscapes
  | beginScope activity code =>
    obtain ⟨mark, w, hopen⟩ := exists_openScope hf
    simp only [apply, hopen]
    obtain ⟨slot, u, htake, hopen⟩ := run_andThen_eq_ok hopen
    obtain ⟨expectations, ha, hu⟩ := extends_of_takePosition hc htake
    obtain ⟨rfl, v, hv, hroom, rfl⟩ := extends_of_openScopeAt hopen
    rw [hu.expectations]
    exact .beginScope ha (hu.trans hv) hu.size_le hroom
  | endScope =>
    cases hs : p.scopes with
    | nil =>
      rw [apply, hs]
      exact .noScope hs
    | cons mark scopes =>
      have hrun := run_endScope_of_not_failed hs hf
      obtain ⟨rest, container, containers, he, hd, hc, hw⟩ := extends_of_endScope hrun
      rw [show Step.endScope.apply p = ⟨(Action.endScope mark).after p.writer, scopes⟩ by
        rw [apply, hs]]
      exact .endScope hs he hd hc hw

end Step

end BsonWriter
