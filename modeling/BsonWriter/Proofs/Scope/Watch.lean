import BsonWriter.Proofs.Action.Rules
import BsonWriter.Proofs.Run.Step
import BsonWriter.Proofs.Scope.Opening

/-!
What becomes of code with a scope while somebody writes the scope. Whoever does so
has the whole session in hand and may also end the scope document, and even begin
another container at the same depth. `Watched` is what every step keeps
(`Opening.watched_run`).
-/

namespace BsonWriter

namespace Action

open Opening (Watched)

variable {o : Opening} {w : Writer} {held : List Nat}

/-! ## Output -/

theorem watched_emit (p : Payload) : Keeps (o.Watched held) (emit p) := by
  intro w h
  rw [yields_emit]
  cases p.failure with
  | none => exact h.append _
  | some cause => exact h.append _

theorem watched_patchLength {start : Nat} (hm : start ∈ held) :
    Keeps (o.Watched held) (patchLength start) := by
  intro w h
  rw [yields_patchLength]
  split
  · cases hp : w.buffer.patch start (lengthField (w.buffer.size - start)) with
    | error cause => exact h
    | ok b => exact h.patch hm hp
  · exact h

theorem watched_flushSink : Keeps (o.Watched held) flushSink := by
  intro w h
  rw [yields_flushSink, yields_drain]
  rcases w.sink.handOver w.buffer.held with ⟨⟨⟩ | ⟨⟩, sink⟩
  · exact h.withSink sink
  · dsimp only
    split
    · exact h.discard.withSink _
    · exact h.discard.withSink _

/-- A type byte that has been taken does not lie in the front. -/
theorem watched_fill {slot : Option Nat} (type : ElementType)
    (h : o.Watched (slot.toList ++ held) w) :
    (fill slot type).Yields w (fun _ => o.Watched held) (fun _ => o.Watched held) := by
  cases slot with
  | none => exact h.of_append
  | some start =>
    rw [fill, yields_patch]
    cases hp : w.buffer.patch start [type.tag] with
    | error cause => exact h.of_append
    | ok b => exact (h.patch List.mem_cons_self hp).of_cons

theorem watched_fillScalar {slot : Option Nat} (type : ElementType)
    (h : o.Watched (slot.toList ++ held) w) :
    (fillScalar slot type).Yields w (fun _ => o.Watched held) (fun _ => o.Watched held) := by
  cases slot with
  | none => exact h
  | some start => exact watched_fill type h

/-! ## Structure -/

theorem watched_takePosition (h : o.Watched held w) (kind : ValueKind) (activity : Activity) :
    (takePosition kind activity).Yields w (fun slot => o.Watched (slot.toList ++ held))
      (fun _ => o.Watched held) := by
  refine yields_takePosition (fun _ => h.fail) ?_ ?_
  · intro expectations hr ha hn
    refine ⟨h.keeps, fun _ hg => ?_⟩
    have hp := h.present hr hg
    refine ⟨hp.stage, by simp, fun start hm => ?_⟩
    rcases List.mem_append.mp hm with hm | hm
    · exact hp.slot start (Option.mem_toList.mp hm)
    · exact hp.held start hm
  · intro expectations index containers bs hr ha hn
    have hw : o.Watched held { w with expectations, containers } := by
      refine ⟨h.keeps, fun _ hg => ?_⟩
      have hp := h.present hr hg
      exact ⟨hp.stage.nextElement hn, hp.slot, hp.held⟩
    exact ⟨hw.hold_size.append _, fun _ => h.failed rfl⟩

theorem watched_fieldName (name : String) : Keeps (o.Watched held) (fieldName name) := by
  intro w h
  refine yields_fieldName (fun _ => h.fail) fun expectations bs hr ha => ?_
  have hw : o.Watched held { w with expectations, slot := some w.buffer.size } := by
    refine ⟨h.keeps, fun _ hg => ?_⟩
    have hp := h.present hr hg
    refine ⟨hp.stage, fun start hs => ?_, hp.held⟩
    cases hs
    exact hp.stage.body_le_size
  exact ⟨hw.append _, fun _ => h.failed rfl⟩

theorem watched_openContainer (shape : Shape) : Keeps (o.Watched held) (openContainer shape) := by
  intro w h
  rw [yields_openContainer]
  refine ⟨h.keeps, fun hr hg => ?_⟩
  have hp := h.present hr hg
  exact ⟨(hp.stage.openContainer shape).append _, hp.slot, hp.held⟩

theorem watched_endContainer (shape : Shape) : Keeps (o.Watched held) (endContainer shape) := by
  intro w h
  refine yields_endContainer (fun _ => h.fail) ?_ ?_
  · intro expectations e hl hc
    exact h.failed rfl
  · intro expectations container containers hr hl hc
    rw [h.keeps, if_neg (by simp), yields_patchLength]
    split
    · rename_i hlength
      cases hp : (w.buffer.append [endOfDocument]).patch container.header _ with
      | error cause => exact h.failed rfl
      | ok b =>
        refine ⟨h.keeps, fun _ hg => ?_⟩
        have hpresent := h.present hr (Buffer.gone_of_patch hp ▸ hg)
        have hstage := hpresent.stage.append [endOfDocument]
        rw [hc] at hstage
        refine ⟨hstage.endContainer hlength ?_ hp, hpresent.slot, hpresent.held⟩
        have hsize := hpresent.stage.body_le_size
        rw [Buffer.size_append]
        exact Nat.lt_succ_of_le hsize
    · exact h.failed rfl

theorem watched_endScope {mark : ScopeMark} (h : o.Watched (mark.start :: held) w) :
    (endScope mark).Yields w (fun _ => o.Watched held) (fun _ => o.Watched held) := by
  refine yields_endScope (fun _ => h.of_cons.fail) fun _ => ?_
  refine (watched_endContainer .document w h).mono (fun _ w' hw => ?_) fun _ _ hw =>
    hw.of_cons.fail
  rw [hw.keeps, if_neg (by simp)]
  exact (watched_patchLength List.mem_cons_self w' hw).mono (fun _ _ hw => hw.of_cons)
    fun _ _ hw => hw.of_cons.fail

/-! ## Steps -/

theorem watched_drainIfStreaming : Keeps (o.Watched held) drainIfStreaming := by
  intro w h
  rw [yields_drainIfStreaming, h.keeps, if_neg (by simp)]
  exact h

theorem watched_writeTo {slot : Option Nat} (value : Scalar)
    (h : o.Watched (slot.toList ++ held) w) :
    (writeTo value slot).Yields w (fun _ => o.Watched held) (fun _ => o.Watched held) := by
  simp only [writeTo, yields_tracked, yields_andThen, yields_get]
  refine (watched_fillScalar _ h).mono (fun _ w' hw => ?_) fun _ _ hw => hw.fail
  refine (watched_emit _ w' hw).mono (fun _ w' hw => ?_) fun _ _ hw => hw.fail
  exact (watched_drainIfStreaming w' hw).mono (fun _ _ hw => hw) fun _ _ hw => hw.fail

theorem watched_openAt {slot : Option Nat} (shape : Shape) (h : o.Watched (slot.toList ++ held) w) :
    (openAt shape slot).Yields w (fun _ => o.Watched held) (fun _ => o.Watched held) := by
  simp only [openAt, yields_tracked, yields_andThen]
  refine (watched_fill _ h).mono (fun _ w' hw => ?_) fun _ _ hw => hw.fail
  exact (watched_openContainer shape w' hw).mono (fun _ _ hw => hw) fun _ _ hw => hw.fail

/-- A scope inside the scope has its total length behind the front. -/
theorem watched_openScopeAt {slot : Option Nat} (code : String)
    (h : o.Watched (slot.toList ++ held) w) :
    (openScopeAt code slot).Yields w (fun mark => o.Watched (mark.start :: held))
      (fun _ => o.Watched held) := by
  simp only [openScopeAt, yields_tracked, yields_andThen, yields_get, yields_offset, yields_pure,
    yields_append]
  refine (watched_fillScalar _ h).mono (fun _ w' hw => ?_) fun _ _ hw => hw.fail
  refine (watched_emit _ _ (hw.hold_size.append _)).mono (fun _ w' hw => ?_) fun _ _ hw =>
    hw.of_cons.fail
  exact (watched_openContainer .document w' hw).mono (fun _ _ hw => hw) fun _ _ hw =>
    hw.of_cons.fail

theorem watched_openScope (activity : Activity) (code : String) (h : o.Watched held w) :
    (Step.openScope activity code).Yields w (fun mark => o.Watched (mark.start :: held))
      (fun _ => o.Watched held) := by
  rw [Step.openScope, yields_andThen]
  exact (watched_takePosition h _ _).mono (fun _ _ hw => watched_openScopeAt code hw)
    fun _ _ hw => hw

theorem watched_flush : Keeps (o.Watched held) flush := by
  intro w h
  refine yields_flush (fun _ => h.fail) fun _ => ?_
  exact (watched_flushSink w h).mono (fun _ _ hw => hw) fun _ _ hw => hw.fail

theorem watched_close : Keeps (o.Watched held) close := by
  intro w h
  refine yields_close (fun _ => h) (fun _ => h.stopped rfl (by simp)) fun _ => ?_
  have hall : Keeps (o.Watched held) (endAll w) := by
    unfold endAll
    split
    · exact Keeps.forM (fun c : Container => watched_endContainer c.shape) _
    · exact fun _ h => h
  refine (hall w h).mono (fun _ w' hw => ?_) fun _ _ hw => hw
  exact (watched_flushSink w' hw).mono (fun _ _ hw => hw.stopped rfl (by simp))
    fun _ _ hw => hw.fail

theorem watched_step (step : Step) : Keeps (o.Watched held) step.action := by
  intro w h
  cases step with
  | name text => exact watched_fieldName text w h
  | checkArray => exact yields_checkArray (fun _ => h.fail) h
  | write activity value =>
    rw [Step.action, yields_andThen]
    exact (watched_takePosition h _ _).mono (fun _ _ hw => watched_writeTo value hw)
      fun _ _ hw => hw
  | begin kind activity shape =>
    rw [Step.action, yields_andThen]
    exact (watched_takePosition h _ _).mono (fun _ _ hw => watched_openAt shape hw)
      fun _ _ hw => hw
  | finish shape => exact watched_endContainer shape w h
  | drop activity =>
    simp only [Step.action, drop, yields_andThen, yields_modify]
    refine (watched_takePosition h _ _).mono (fun _ _ hw => ?_) fun _ _ hw => hw
    exact hw.of_append.fail
  | fail => exact h.fail
  | flush => exact watched_flush w h
  | close => exact watched_close w h
  | setEscapes table => exact h.withEscapes table
  | beginScope | endScope | failScope => exact h

end Action

namespace Opening

variable {o : Opening} {p : Progress}

theorem watched_apply (h : o.Watched (p.scopes.map ScopeMark.start) p.writer) (step : Step) :
    o.Watched ((step.apply p).scopes.map ScopeMark.start) (step.apply p).writer := by
  refine @Step.apply_cases (fun p => o.Watched (p.scopes.map ScopeMark.start) p.writer) p step h
    (Action.watched_step step p.writer h) (fun activity code =>
      Action.watched_openScope activity code h) (fun mark rest hs => ?_) ?_
  · rw [hs] at h
    exact Action.watched_endScope h
  · exact h.fail.mono fun start hm => List.mem_of_mem_tail (by rwa [← List.map_tail])

/-- Whatever steps follow, what is watched stays so. -/
theorem watched_run (h : o.Watched (p.scopes.map ScopeMark.start) p.writer) (steps : List Step) :
    o.Watched ((Step.run p steps).scopes.map ScopeMark.start) (Step.run p steps).writer :=
  @Step.run_induction (fun p => o.Watched (p.scopes.map ScopeMark.start) p.writer)
    (fun _ step h => watched_apply h step) p h steps

end Opening

end BsonWriter
