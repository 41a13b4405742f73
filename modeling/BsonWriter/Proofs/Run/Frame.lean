import BsonWriter.Proofs.Action.Rules
import BsonWriter.Proofs.Run.Step

/-!
What no step can touch. A property is robust if it looks neither at the open containers
nor at the type byte that waits, lets the output grow and outlasts a failure. Every
step keeps it (`Robust.apply`), the closing if it may hold of a session that is closed.
-/

namespace BsonWriter

/-- A property of sessions that depends neither on the structure nor on what has been
written, except that the output may have to have some size, and that holds of the sink
whatever it is handed. -/
structure Robust (I : Writer → Prop) : Prop where
  grown : ∀ w b, I w → w.buffer.size ≤ b.size → I { w with buffer := b }
  delivered : ∀ w bs, I w → I { w with sink := (w.sink.handOver bs).2 }
  flushed : ∀ w, I w → I { w with sink := w.sink.flush.2 }
  moved : ∀ w expectations containers slot, I w → I { w with expectations, containers, slot }
  spelled : ∀ w escapes, I w → I { w with escapes }
  failed : ∀ w, I w → I w.fail

namespace Robust

open BsonWriter.Action

variable {I : Writer → Prop}

theorem appended (h : Robust I) {w : Writer} (hw : I w) (bs : Bytes) :
    I { w with buffer := w.buffer.append bs } := h.grown w _ hw (w.buffer.size_le_append bs)

/-! ## Output -/

theorem emit (h : Robust I) (p : Payload) : Keeps I (emit p) := Keeps.emit h.grown p

theorem patchLength (h : Robust I) (start : Nat) : Keeps I (patchLength start) :=
  Keeps.patchLength h.grown start

theorem drain (h : Robust I) : Keeps I drain := by
  intro w hw
  have hd := h.delivered w w.buffer.held hw
  rw [yields_drain]
  rcases ho : w.sink.handOver w.buffer.held with ⟨⟨⟩ | ⟨⟩, sink⟩
  · rwa [ho] at hd
  · rw [ho] at hd
    exact h.grown _ _ hd (Nat.le_of_eq (Buffer.size_discard ..).symm)

theorem drainOrPatchLength (h : Robust I) (streaming : Bool) (start : Nat) :
    Keeps I (if streaming then Action.drain else Action.patchLength start) := by
  split
  · exact h.drain
  · exact h.patchLength start

theorem drainIfStreaming (h : Robust I) : Keeps I drainIfStreaming := by
  intro w hw
  rw [yields_drainIfStreaming]
  split
  · exact h.drain w hw
  · exact hw

theorem flushSink (h : Robust I) : Keeps I flushSink := by
  intro w hw
  rw [yields_flushSink]
  refine (h.drain w hw).mono (fun _ v hv => ?_) fun _ _ hv => hv
  split <;> exact h.flushed v hv

theorem fill (h : Robust I) (slot : Option Nat) (type : ElementType) :
    Keeps I (fill slot type) := by
  cases slot with
  | none => exact fun _ hw => hw
  | some start => exact Keeps.patch h.grown start _

theorem fillScalar (h : Robust I) (slot : Option Nat) (type : ElementType) :
    Keeps I (fillScalar slot type) := by
  cases slot with
  | none => exact fun _ hw => hw
  | some start => exact h.fill (some start) type

theorem openContainer (h : Robust I) (shape : Shape) : Keeps I (openContainer shape) := by
  intro w hw
  rw [yields_openContainer]
  exact h.moved _ _ _ w.slot (h.appended hw (lengthField 0))

/-! ## Actions -/

theorem takePosition (h : Robust I) (kind : ValueKind) (activity : Activity) :
    Keeps I (takePosition kind activity) := by
  intro w hw
  refine yields_takePosition (fun _ => h.failed w hw) (fun expectations _ _ _ => ?_) ?_
  · exact h.moved w expectations w.containers none hw
  · intro expectations index containers bs _ _ _
    have hv := h.moved _ expectations containers w.slot (h.appended hw (0 :: bs))
    exact ⟨hv, fun _ => h.failed _ hv⟩

theorem fieldName (h : Robust I) (name : String) : Keeps I (fieldName name) := by
  intro w hw
  refine yields_fieldName (fun _ => h.failed w hw) fun expectations bs _ _ => ?_
  have hv := h.appended hw (0 :: bs)
  exact ⟨h.moved _ expectations w.containers (some w.buffer.size) hv,
    fun _ => h.failed _ (h.moved _ expectations w.containers w.slot hv)⟩

theorem checkArray (h : Robust I) : Keeps I checkArray :=
  fun w hw => yields_checkArray (fun _ => h.failed w hw) hw

theorem writeTo (h : Robust I) (value : Scalar) (slot : Option Nat) :
    Keeps I (writeTo value slot) :=
  Keeps.tracked (Keeps.andThen (fun _ hw => hw) fun _ => Keeps.andThen (h.fillScalar slot _)
    fun _ => Keeps.andThen (h.emit _) fun _ => h.drainIfStreaming) h.failed

theorem openAt (h : Robust I) (shape : Shape) (slot : Option Nat) : Keeps I (openAt shape slot) :=
  Keeps.tracked (Keeps.andThen (h.fill slot _) fun _ => h.openContainer shape) h.failed

theorem openScopeAt (h : Robust I) (code : String) (slot : Option Nat) :
    Keeps I (openScopeAt code slot) := by
  refine Keeps.tracked ?_ h.failed
  refine Keeps.andThen (h.fillScalar slot _) fun _ w hw => ?_
  simp only [yields_andThen, yields_offset, yields_append, yields_get, yields_pure]
  refine (h.emit _ _ (h.appended hw (lengthField 0))).mono (fun _ v hv => ?_) fun _ _ hv => hv
  exact h.openContainer .document v hv

theorem openScope (h : Robust I) (activity : Activity) (code : String) :
    Keeps I (Step.openScope activity code) :=
  Keeps.andThen (h.takePosition _ _) fun slot => h.openScopeAt code slot

theorem endContainer (h : Robust I) (shape : Shape) : Keeps I (endContainer shape) := by
  intro w hw
  refine yields_endContainer (fun _ => h.failed w hw) (fun expectations _ _ _ => ?_) ?_
  · exact h.failed _ (h.moved w expectations w.containers w.slot hw)
  · intro expectations container containers _ _ _
    have hv := h.moved _ expectations containers w.slot (h.appended hw [endOfDocument])
    exact (h.drainOrPatchLength _ _ _ hv).mono (fun _ _ hu => hu) fun _ u hu => h.failed u hu

theorem endScope (h : Robust I) (mark : ScopeMark) : Keeps I (endScope mark) := by
  intro w hw
  refine yields_endScope (fun _ => h.failed w hw) fun _ => ?_
  refine (h.endContainer .document w hw).mono (fun _ v hv => ?_) fun _ v hv => h.failed v hv
  exact (h.drainOrPatchLength _ _ v hv).mono (fun _ _ hu => hu) fun _ u hu => h.failed u hu

theorem flush (h : Robust I) : Keeps I flush := by
  intro w hw
  refine yields_flush (fun _ => h.failed w hw) fun _ => ?_
  exact (h.flushSink w hw).mono (fun _ _ hv => hv) fun _ v hv => h.failed v hv

theorem endAll (h : Robust I) (w : Writer) : Keeps I (endAll w) := by
  unfold Action.endAll
  split
  · exact Keeps.forM (fun c : Container => h.endContainer c.shape) _
  · exact fun _ hw => hw

theorem close (h : Robust I) (hc : ∀ w, I w → I { w with phase := .closed }) : Keeps I close := by
  intro w hw
  refine yields_close (fun _ => hw) (fun _ => ?_) fun _ => ?_
  · exact hc _ (h.grown w _ hw (Nat.le_of_eq (Buffer.size_discard ..).symm))
  · refine (h.endAll w w hw).mono (fun _ v hv => ?_) fun _ _ hv => hv
    exact (h.flushSink v hv).mono (fun _ u hu => hc u hu) fun _ u hu => h.failed u hu

/-! ## Steps -/

theorem action (h : Robust I) (step : Step) (hc : step = .close → ∀ w, I w →
    I { w with phase := .closed }) : Keeps I step.action := by
  cases step with
  | name text => exact h.fieldName text
  | checkArray => exact h.checkArray
  | write activity value =>
    exact Keeps.andThen (h.takePosition _ _) fun slot => h.writeTo value slot
  | begin kind activity shape =>
    exact Keeps.andThen (h.takePosition _ _) fun slot => h.openAt shape slot
  | finish shape => exact h.endContainer shape
  | drop activity => exact Keeps.andThen (h.takePosition _ _) fun _ => h.failed
  | fail => exact h.failed
  | flush => exact h.flush
  | close => exact h.close (hc rfl)
  | setEscapes table => exact fun w => h.spelled w table
  | beginScope | endScope | failScope => exact fun _ hw => hw

theorem apply (h : Robust I) {p : Progress} (hp : I p.writer) (step : Step)
    (hc : step = .close → ∀ w, I w → I { w with phase := .closed }) : I (step.apply p).writer :=
  @Step.apply_cases (fun p => I p.writer) p step hp (h.action step hc p.writer hp)
    (fun activity code => h.openScope activity code p.writer hp)
    (fun mark _ _ => h.endScope mark p.writer hp) (h.failed p.writer hp)

theorem run (h : Robust I) {p : Progress} (hp : I p.writer) (steps : List Step)
    (hc : ∀ w, I w → I { w with phase := .closed }) : I (Step.run p steps).writer :=
  @Step.run_induction (fun p => I p.writer) (fun _ step hp => h.apply hp step fun _ => hc) p hp
    steps

end Robust

end BsonWriter
