import BsonWriter.Proofs.Run.Consistent
import BsonWriter.Proofs.Run.Growth
import BsonWriter.Proofs.Wire.Value

/-!
What can go wrong in a step. Most causes are direct: a check refuses the call, the content
of a value cannot be written, or the sink does not take it. The others come from where the
session itself keeps its place, and of them the bookkeeping leaves one that can arise: what
should be patched has left (`Step.not_internal`).
-/

namespace BsonWriter

/-- The violations that no sequence of calls leads to. -/
def Violation.Internal : Violation → Prop
  | slotlessScalar _ | nothingToEnd | patchPastEnd .. => True
  | _ => False

/-- The cause is a violation that no sequence of calls leads to. -/
def Cause.Internal : Cause → Prop
  | outOfOrder violation => violation.Internal
  | _ => False

/-- The cause neither is internal nor has to do with output that has left. -/
def Cause.Direct : Cause → Prop
  | outOfOrder violation => ¬violation.Internal
  | alreadyFlushed _ => False
  | _ => True

theorem Cause.Direct.not_internal {c : Cause} (h : c.Direct) : ¬c.Internal := by
  cases c with
  | outOfOrder violation => exact h
  | _ => exact id

theorem Cause.Direct.ne_alreadyFlushed {c : Cause} (h : c.Direct) (offset : Nat) :
    c ≠ .alreadyFlushed offset := by
  rintro rfl
  exact h

/-! ## Content -/

/-- Whatever is wrong with the payload lies in its content. -/
def Payload.Direct (p : Payload) : Prop := ∀ cause, p.failure = some cause → cause.Direct

namespace Payload

theorem direct_written (bs : Bytes) : Payload.Direct ⟨bs, none⟩ := nofun

theorem direct_fault {cause : Cause} (h : cause.Direct) : (fault cause).Direct := by
  intro other he
  rw [← Option.some.inj he]
  exact h

theorem direct_andThen {p q : Payload} (hp : p.Direct) (hq : q.Direct) : (p.andThen q).Direct := by
  unfold andThen
  cases hf : p.failure with
  | some cause => exact hp
  | none => exact hq

theorem direct_escaped (table : Option EscapeTable) (s : String) {payload : String → Payload}
    (h : ∀ s, (payload s).Direct) : (escaped table s payload).Direct := by
  unfold escaped
  split
  · exact direct_fault trivial
  · exact h _

theorem direct_cstring (table : Option EscapeTable) (s : String) : (cstring table s).Direct := by
  refine direct_escaped table s fun s => ?_
  unfold cstringVerbatim
  split
  · exact direct_fault trivial
  · exact direct_written _

theorem direct_sized (bs : Bytes) : (sized bs).Direct := by
  unfold sized
  split
  · exact direct_written _
  · exact direct_fault trivial

theorem direct_string (table : Option EscapeTable) (s : String) : (string table s).Direct :=
  direct_escaped table s fun _ => direct_sized _

end Payload

theorem Primitive.direct_payload (table : Option EscapeTable) (v : Primitive) :
    (v.payload table).Direct := by
  cases v with
  | string s | symbol s | code s => exact Payload.direct_string table s
  | utf8String bs =>
    rw [payload, Payload.utf8String]
    split
    · exact Payload.direct_sized bs
    · exact Payload.direct_fault trivial
  | binary subtype length data =>
    rw [payload, Payload.binary]
    split
    · exact Payload.direct_written _
    · exact Payload.direct_fault trivial
  | regex r =>
    exact Payload.direct_andThen (Payload.direct_cstring _ _) (Payload.direct_cstring _ _)
  | int32 | int64 | double | boolean | null | dateTime | objectId | timestamp =>
    exact Payload.direct_written _

namespace Action

open Writer (Consistent robust_reaches)

variable {α β : Type} {w : Writer}

/-! ## Actions that fail for direct causes only -/

def FailsDirectly (a : Action α) : Prop :=
  ∀ w, a.Yields w (fun _ _ => True) fun e _ => e.cause.Direct

theorem direct_andThen {a : Action β} {f : β → Action α} (ha : a.FailsDirectly)
    (hf : ∀ x, (f x).FailsDirectly) : (a >>= f).FailsDirectly := fails_andThen ha hf

theorem direct_tracked {a : Action α} (ha : a.FailsDirectly) : (tracked a).FailsDirectly := by
  intro w
  rw [yields_tracked]
  exact ha w

theorem direct_checkRunning : checkRunning.FailsDirectly := by
  intro w
  rw [yields_checkRunning]
  cases w.phase with
  | running => trivial
  | failed | closed => exact id

theorem direct_advance {f : List Expectation → Except Violation (List Expectation)}
    (hf : ∀ es violation, f es = .error violation → ¬violation.Internal) :
    (advance f).FailsDirectly := by
  intro w
  rw [yields_advance]
  cases hv : f w.expectations with
  | ok expectations => trivial
  | error violation => exact hf _ _ hv

theorem direct_admitValue (kind : ValueKind) (activity : Activity) :
    (advance (Expectation.admitValue kind activity)).FailsDirectly := by
  refine direct_advance fun es violation h => ?_
  cases es with
  | nil => cases kind <;> cases h; exact id
  | cons e es => cases e <;> cases h; exact id

theorem direct_admitName : (advance Expectation.admitName).FailsDirectly := by
  refine direct_advance fun es violation h => ?_
  cases es with
  | nil => cases h; exact id
  | cons e es => cases e <;> cases h <;> exact id

theorem direct_leave (shape : Shape) : (advance (leave shape)).FailsDirectly := by
  refine direct_advance fun es violation h => ?_
  cases es with
  | nil => cases shape <;> cases h <;> exact id
  | cons e es => cases shape <;> cases e <;> cases h <;> exact id

theorem direct_emit {p : Payload} (hp : p.Direct) : (emit p).FailsDirectly := by
  intro w
  rw [yields_emit]
  cases hf : p.failure with
  | none => trivial
  | some cause => exact hp cause hf

theorem direct_drain : drain.FailsDirectly := by
  intro w
  rw [yields_drain]
  rcases w.sink.handOver w.buffer.held with ⟨⟨⟩ | ⟨⟩, sink⟩ <;> trivial

theorem direct_drainIfStreaming : drainIfStreaming.FailsDirectly := by
  intro w
  rw [yields_drainIfStreaming]
  split
  · exact direct_drain w
  · trivial

theorem direct_flushSink : flushSink.FailsDirectly := by
  intro w
  rw [yields_flushSink]
  refine (direct_drain w).mono (fun _ v _ => ?_) fun _ _ h => h
  split <;> trivial

theorem direct_reserve (name : String) : (reserve name).FailsDirectly := by
  refine direct_andThen (fun _ => trivial) fun start => ?_
  refine direct_andThen (fun _ => trivial) fun _ => direct_andThen (fun _ => trivial) fun v => ?_
  exact direct_andThen (direct_emit (Payload.direct_cstring v.escapes name)) fun _ _ => trivial

theorem direct_takePosition (kind : ValueKind) (activity : Activity) :
    (takePosition kind activity).FailsDirectly := by
  refine direct_tracked (direct_andThen direct_checkRunning fun _ => ?_)
  refine direct_andThen (direct_admitValue kind activity) fun _ => ?_
  refine direct_andThen (fun _ => trivial) fun v => ?_
  split
  · exact direct_andThen (fun _ => trivial) fun _ =>
      direct_andThen (direct_reserve _) fun _ _ => trivial
  · exact direct_andThen (fun _ => trivial) fun _ _ => trivial

theorem direct_fieldName (name : String) : (fieldName name).FailsDirectly := by
  refine direct_tracked (direct_andThen direct_checkRunning fun _ w => ?_)
  rw [yields_atKey]
  refine direct_andThen direct_admitName (fun _ => ?_) w
  exact direct_andThen (direct_reserve name) fun _ _ => trivial

theorem direct_checkArray : checkArray.FailsDirectly := by
  refine direct_tracked (direct_andThen direct_checkRunning fun _ => ?_)
  refine direct_andThen (fun _ => trivial) fun v w => ?_
  simp only [yields_ite, yields_pure, yields_raise]
  split
  · trivial
  · exact id

theorem direct_flush : flush.FailsDirectly := by
  refine direct_tracked (direct_andThen (fun _ => trivial) fun v => ?_)
  split
  · exact direct_andThen (fun _ => id) fun _ => direct_flushSink
  · exact direct_flushSink

/-! ## Patches -/

/-- A patch of what has been written fails only if it has left. -/
theorem yields_patch_written {offset : Nat} {bs : Bytes}
    (h : offset + bs.length ≤ w.buffer.size) : (patch offset bs).Yields w
      (fun _ v => v.buffer.size = w.buffer.size)
      (fun e _ => offset < w.buffer.gone ∧ e = ⟨.alreadyFlushed offset, none⟩) := by
  rw [yields_patch]
  cases hp : w.buffer.patch offset bs with
  | ok b => exact Buffer.size_of_patch hp
  | error cause =>
    obtain ⟨hgone, rfl⟩ | ⟨-, hend, -⟩ := Buffer.patch_eq_error_iff.mp hp
    · exact ⟨hgone, rfl⟩
    · exact absurd h (Nat.not_le_of_lt hend)

/-- The error comes from a direct cause, or the type byte in question has left. -/
def Misses (slot : Option Nat) (w : Writer) (e : Error) : Prop :=
  e.cause.Direct ∨
    ∃ start, slot = some start ∧ start < w.buffer.gone ∧ e = ⟨.alreadyFlushed start, none⟩

theorem Misses.not_internal {slot : Option Nat} {e : Error} (h : Misses slot w e) :
    ¬e.cause.Internal := by
  rcases h with h | ⟨start, -, -, rfl⟩
  · exact h.not_internal
  · exact id

theorem misses_fill {slot : Option Nat} (hs : ∀ start, slot = some start → start < w.buffer.size)
    (type : ElementType) :
    (fill slot type).Yields w (fun _ _ => True) fun e _ => Misses slot w e := by
  cases slot with
  | none => trivial
  | some start =>
    refine (yields_patch_written (hs start rfl)).mono (fun _ _ _ => trivial) fun e _ h => ?_
    exact .inr ⟨start, rfl, h.1, h.2⟩

theorem misses_fillScalar {start : Nat} (hs : start < w.buffer.size) (type : ElementType) :
    (fillScalar (some start) type).Yields w (fun _ _ => True) fun e _ => Misses (some start) w e :=
  @misses_fill w (some start) (fun _ h => by rwa [← Option.some.inj h]) type

theorem misses_writeTo {start : Nat} (hs : start < w.buffer.size) (value : Scalar) :
    (writeTo value (some start)).Yields w (fun _ _ => True) fun e _ => Misses (some start) w e := by
  simp only [writeTo, yields_tracked, yields_andThen, yields_get]
  refine (misses_fillScalar hs _).mono (fun _ v _ => ?_) fun _ _ h => h
  rw [← yields_andThen]
  exact (direct_andThen (direct_emit (Primitive.direct_payload _ _))
    (fun _ => direct_drainIfStreaming) v).mono (fun _ _ h => h) fun _ _ h => .inl h

theorem misses_openAt {slot : Option Nat} (hs : ∀ start, slot = some start → start < w.buffer.size)
    (shape : Shape) :
    (openAt shape slot).Yields w (fun _ _ => True) fun e _ => Misses slot w e := by
  simp only [openAt, yields_tracked, yields_andThen, yields_openContainer]
  exact misses_fill hs _

theorem misses_openScopeAt {start : Nat} (hs : start < w.buffer.size) (code : String) :
    (openScopeAt code (some start)).Yields w (fun _ _ => True)
      fun e _ => Misses (some start) w e := by
  simp only [openScopeAt, yields_tracked, yields_andThen, yields_offset, yields_append, yields_get,
    yields_openContainer, yields_pure]
  refine (misses_fillScalar hs _).mono (fun _ v _ => ?_) fun _ _ h => h
  exact (direct_emit (Payload.direct_string v.escapes code) _).mono (fun _ _ h => h)
    fun _ _ h => .inl h

/-- What a value finds out about its type byte: it has been written, a scalar has one, and
only one that has waited can have left. -/
structure Placed (kind : ValueKind) (w : Writer) (slot : Option Nat) (v : Writer) : Prop where
  written : ∀ start, slot = some start → start < v.buffer.size
  isSome : kind = .scalar → slot.isSome = true
  waited : ∀ start, slot = some start → start < v.buffer.gone →
    w.slot = some start ∧ start < w.buffer.gone

theorem placed_takePosition (h : w.Consistent) (kind : ValueKind) (activity : Activity) :
    (takePosition kind activity).Yields w (Placed kind w) (fun e _ => e.cause.Direct) := by
  have hplaced : (takePosition kind activity).Yields w (Placed kind w) (fun _ _ => True) := by
    refine yields_takePosition (fun _ => trivial) ?_ ?_
    · intro expectations hr ha hn
      refine ⟨h.slot_lt, ?_, fun start hs hg => ⟨hs, hg⟩⟩
      rintro rfl
      refine (h.waits hr).mpr ?_
      have haligned := h.aligned
      cases he : w.expectations with
      | nil => rw [he] at ha; cases ha
      | cons e rest =>
        rw [he] at ha haligned
        cases e with
        | name => cases ha
        | element => exact absurd hn (Container.nextElement_ne_none haligned)
        | value => exact ⟨rest, rfl⟩
    · intro expectations index containers bs _ _ _
      have hle := w.buffer.gone_le_size
      refine ⟨⟨fun start hs => ?_, fun _ => rfl, fun start hs hg => ?_⟩, fun _ => trivial⟩
      · rw [← Option.some.inj hs, Buffer.size_append, List.length_cons]
        omega
      · rw [← Option.some.inj hs, Buffer.gone_append] at hg
        omega
  exact (hplaced.and (direct_takePosition kind activity w)).mono (fun _ _ h => h.1)
    fun _ _ h => h.2

/-- A value fails for direct causes, or because its type byte has waited and left. -/
theorem misses_value {f : Option Nat → Action α} (h : w.Consistent) {kind : ValueKind}
    {activity : Activity} (hf : ∀ slot v, (∀ start, slot = some start → start < v.buffer.size) →
      (kind = .scalar → slot.isSome = true) →
      (f slot).Yields v (fun _ _ => True) fun e _ => Misses slot v e) :
    (takePosition kind activity >>= f).Yields w (fun _ _ => True)
      fun e _ => Misses w.slot w e := by
  rw [yields_andThen]
  refine (placed_takePosition h kind activity).mono (fun slot v hv => ?_) fun _ _ he => .inl he
  refine (hf slot v hv.written hv.isSome).mono (fun _ _ hq => hq) fun e _ he => ?_
  rcases he with he | ⟨start, hs, hg, rfl⟩
  · exact .inl he
  · exact .inr ⟨start, (hv.waited start hs hg).1, (hv.waited start hs hg).2, rfl⟩

theorem misses_scalar {f : Option Nat → Action α} (h : w.Consistent) {activity : Activity}
    (hf : ∀ start v, start < v.buffer.size →
      (f (some start)).Yields v (fun _ _ => True) fun e _ => Misses (some start) v e) :
    (takePosition .scalar activity >>= f).Yields w (fun _ _ => True)
      fun e _ => Misses w.slot w e := by
  refine misses_value h fun slot v hlt hsome => ?_
  obtain ⟨start, rfl⟩ := Option.isSome_iff_exists.mp (hsome rfl)
  exact hf start v (hlt start rfl)

/-! ## Ends -/

/-- A length field that has been written can be filled unless it has left. -/
theorem regular_drainOrPatchLength {start : Nat} (hs : start + 4 ≤ w.buffer.size)
    (streaming : Bool) : (if streaming then drain else patchLength start).Yields w
      (fun _ _ => True) fun e _ => ¬e.cause.Internal := by
  split
  · exact (direct_drain w).mono (fun _ _ h => h) fun _ _ h => h.not_internal
  · unfold patchLength
    simp only [yields_andThen, yields_offset, yields_ite, yields_raise]
    split
    · refine (yields_patch_written ?_).mono (fun _ _ _ => trivial) fun e _ h => ?_
      · rw [length_lengthField]
        exact hs
      · rw [h.2]
        exact id
    · exact id

theorem regular_endContainer (h : w.Consistent) (shape : Shape) :
    (endContainer shape).Yields w (fun _ _ => True) fun e _ => ¬e.cause.Internal := by
  have hchecks : (do checkRunning; advance (leave shape) : Action Unit).FailsDirectly :=
    direct_andThen direct_checkRunning fun _ => direct_leave shape
  rw [endContainer_eq, yields_tracked, ← bind_assoc, yields_andThen]
  have hleft : (do checkRunning; advance (leave shape) : Action Unit).Yields w
      (fun _ v => ∃ rest, leave shape w.expectations = .ok rest ∧
        v = { w with expectations := rest }) (fun _ _ => True) := by
    simp only [yields_andThen, yields_checkRunning, yields_advance]
    cases hp : w.phase with
    | failed | closed => trivial
    | running =>
      dsimp only
      cases hl : leave shape w.expectations with
      | error violation => trivial
      | ok rest => exact ⟨rest, rfl, by rw [← hp]⟩
  refine (hleft.and (hchecks w)).mono (fun _ v hv => ?_) fun _ _ hv => hv.2.not_internal
  obtain ⟨⟨rest, hl, rfl⟩, -⟩ := hv
  obtain ⟨container, containers, hc⟩ := exists_container h hl
  have hheader := h.written container (by rw [hc]; exact List.mem_cons_self)
  rw [yields_closeContainer]
  simp only [hc]
  refine regular_drainOrPatchLength ?_ w.options.streaming
  rw [Buffer.size_append]
  exact Nat.le_trans hheader (Nat.le_add_right ..)

theorem regular_endScope (h : w.Consistent) {mark : ScopeMark}
    (hm : mark.start + 4 ≤ w.buffer.size) :
    (endScope mark).Yields w (fun _ _ => True) fun e _ => ¬e.cause.Internal := by
  simp only [endScope, yields_tracked, yields_andThen, yields_get, yields_ite, yields_raise]
  split
  case isFalse => exact id
  have hend := (regular_endContainer h .document).and
    ((robust_reaches (mark.start + 4)).endContainer .document w hm)
  refine hend.mono (fun _ v hv => ?_) fun _ _ hv => hv.1
  have hroom := regular_drainOrPatchLength hv.2 v.options.streaming
  cases hs : v.options.streaming with
  | true => simpa [hs] using hroom
  | false =>
    simp only [hs, Bool.false_eq_true, if_false, yields_patchLength, yields_drainIfStreaming]
      at hroom ⊢
    exact hroom

/-- Everything that is open may be ended. -/
theorem regular_ends (h : w.Consistent) (cs : List Container) :
    (cs.forM fun c => endContainer c.shape).Yields w (fun _ _ => True)
      fun e _ => ¬e.cause.Internal := by
  induction cs generalizing w with
  | nil => trivial
  | cons c cs ih =>
    rw [yields_forM_cons]
    refine ((regular_endContainer h c.shape).and (consistent_endContainer c.shape w h)).mono
      (fun _ v hv => ih hv.2) fun _ _ hv => hv.1

theorem regular_close (h : w.Consistent) :
    close.Yields w (fun _ _ => True) fun e _ => ¬e.cause.Internal := by
  refine yields_close (fun _ => trivial) (fun _ => trivial) fun _ => ?_
  have hall : (endAll w).Yields w (fun _ _ => True) fun e _ => ¬e.cause.Internal := by
    unfold endAll
    split
    · exact regular_ends h w.containers
    · trivial
  exact hall.mono (fun _ v _ => (direct_flushSink v).mono (fun _ _ _ => trivial)
    fun _ _ hd => hd.not_internal) fun _ _ he => he

/-! ## Steps -/

theorem error_of_yields {a : Action α} {Q : α → Writer → Prop} {P : Error → Prop}
    (h : a.Yields w Q fun e _ => P e) {e : Error} (he : a.result w = .error e) : P e := by
  unfold result at he
  cases hr : a.run w with
  | ok x v => simp [hr] at he
  | error e' v =>
    rw [hr] at he
    cases he
    exact h.of_error hr

end Action

namespace Step

open BsonWriter.Action

variable {p : Progress} {step : Step} {e : Error}

/-- The step writes a value or begins one. -/
def BeginsValue : Step → Prop
  | write .. | begin .. | beginScope .. => True
  | _ => False

theorem error_of_openScope {activity : Activity} {code : String}
    (he : (beginScope activity code).result p = .error e) :
    (openScope activity code).result p.writer = .error e := by
  rw [result] at he
  cases hr : (openScope activity code).result p.writer with
  | ok mark =>
    rw [hr] at he
    cases he
  | error e' =>
    rw [hr] at he
    cases he
    rfl

theorem misses_of_beginsValue (h : p.writer.Consistent) (hs : step.BeginsValue)
    (he : step.result p = .error e) : Misses p.writer.slot p.writer e := by
  cases step with
  | write activity value =>
    exact error_of_yields (misses_scalar h fun start v hs => misses_writeTo hs value) he
  | begin kind activity shape =>
    exact error_of_yields (misses_value h fun slot v hs _ => misses_openAt hs shape) he
  | beginScope activity code =>
    exact error_of_yields (misses_scalar h fun start v hs => misses_openScopeAt hs code)
      (error_of_openScope he)
  | name | checkArray | finish | drop | endScope | failScope | fail | flush | close
  | setEscapes => exact hs.elim

/-- No step reports a violation that the bookkeeping rules out. -/
theorem not_internal (h : p.writer.Consistent)
    (hm : ∀ mark ∈ p.scopes, mark.start + 4 ≤ p.writer.buffer.size)
    (he : step.result p = .error e) : ¬e.cause.Internal := by
  have hdirect : ∀ {a : Action Unit}, a.FailsDirectly → a.result p.writer = .error e →
      ¬e.cause.Internal := fun ha hr =>
    (error_of_yields (P := fun e => e.cause.Direct) (ha p.writer) hr).not_internal
  cases step with
  | name text => exact hdirect (direct_fieldName text) he
  | checkArray => exact hdirect direct_checkArray he
  | drop activity =>
    have hdrop : (Action.drop activity).FailsDirectly :=
      direct_andThen (direct_takePosition _ _) fun _ _ => trivial
    exact hdirect hdrop he
  | flush => exact hdirect direct_flush he
  | write activity value =>
    exact (@misses_of_beginsValue p (write activity value) e h trivial he).not_internal
  | begin kind activity shape =>
    exact (@misses_of_beginsValue p (begin kind activity shape) e h trivial he).not_internal
  | beginScope activity code =>
    exact (@misses_of_beginsValue p (beginScope activity code) e h trivial he).not_internal
  | finish shape =>
    exact error_of_yields (P := fun e => ¬e.cause.Internal) (regular_endContainer h shape) he
  | endScope =>
    rw [result] at he
    cases hs : p.scopes with
    | nil => simp [hs] at he
    | cons mark scopes =>
      rw [hs] at he
      have hroom := hm mark (by rw [hs]; exact List.mem_cons_self)
      exact error_of_yields (P := fun e => ¬e.cause.Internal) (regular_endScope h hroom) he
  | close => exact error_of_yields (P := fun e => ¬e.cause.Internal) (regular_close h) he
  | failScope | fail | setEscapes => cases he

end Step

end BsonWriter
