import BsonWriter.Proofs.Run.Step

/-!
Actions that do not look at the sink: with another sink they do the same, and they leave
the sink alone. All that takes type bytes, writes names and begins containers is of this
kind.
-/

namespace BsonWriter.Action

variable {α β : Type}

/-- With another sink the action does the same, and it leaves the sink alone. -/
def Blind (a : Action α) : Prop :=
  ∀ w sink Q E, a.Yields { w with sink } Q E ↔
    a.Yields w (fun x v => Q x { v with sink }) fun e v => E e { v with sink }

namespace Blind

variable {a : Action α} {w : Writer}

theorem run_ok (h : a.Blind) {x : α} {w' : Writer} (hr : a.run w = .ok x w') (sink : Sink) :
    a.run { w with sink } = .ok x { w' with sink } := by
  refine run_eq_ok_iff.mpr ((h w sink _ _).mpr ?_)
  rw [yields_iff_of_ok hr]
  exact ⟨rfl, rfl⟩

theorem run_error (h : a.Blind) {e : Error} {w' : Writer} (hr : a.run w = .error e w')
    (sink : Sink) : a.run { w with sink } = .error e { w' with sink } := by
  refine run_eq_error_iff.mpr ((h w sink _ _).mpr ?_)
  rw [Yields, hr]
  exact ⟨rfl, rfl⟩

/-- Such an action leaves the sink alone. -/
theorem sink_after (h : a.Blind) (w : Writer) : (a.after w).sink = w.sink :=
  @Yields.after _ a w (fun v => v.sink = w.sink)
    ((h w w.sink _ _).mpr (yields_of_forall (fun _ _ => rfl) fun _ _ => rfl))

end Blind

theorem blind_pure (x : α) : (pure x : Action α).Blind := fun _ _ _ _ => Iff.rfl

theorem blind_throw (e : Error) : (throw e : Action α).Blind := fun _ _ _ _ => Iff.rfl

theorem blind_raise (cause : Cause) : (raise cause : Action α).Blind := fun _ _ _ _ => Iff.rfl

theorem blind_modify {f : Writer → Writer} (h : ∀ w sink, f { w with sink } = { f w with sink }) :
    (modify f : Action PUnit).Blind := by
  intro w sink Q E
  rw [yields_modify, yields_modify, h]

theorem Blind.andThen {a : Action β} {f : β → Action α} (ha : a.Blind) (hf : ∀ x, (f x).Blind) :
    (a >>= f).Blind := by
  intro w sink Q E
  rw [yields_andThen, yields_andThen, ha]
  simp only [hf _ _ sink]

theorem fail_sink (w : Writer) (sink : Sink) :
    Writer.fail { w with sink } = { w.fail with sink } := by
  unfold Writer.fail
  split <;> rfl

theorem Blind.tracked {a : Action α} (ha : a.Blind) : (tracked a).Blind := by
  intro w sink Q E
  simp only [yields_tracked, ha _ sink, fail_sink]

theorem blind_get {f : Writer → Action α} (hf : ∀ w sink, f { w with sink } = f w)
    (h : ∀ w, (f w).Blind) : (get >>= f).Blind := by
  intro w sink Q E
  simp only [yields_andThen, yields_get, hf, h w w sink]

theorem blind_checkRunning : checkRunning.Blind := by
  intro w sink Q E
  rw [yields_checkRunning, yields_checkRunning]

theorem blind_advance (f : List Expectation → Except Violation (List Expectation)) :
    (advance f).Blind := by
  intro w sink Q E
  rw [yields_advance, yields_advance]

theorem blind_append (bs : Bytes) : (append bs).Blind := fun _ _ _ _ => Iff.rfl

theorem blind_emit (p : Payload) : (emit p).Blind := by
  intro w sink Q E
  rw [yields_emit, yields_emit]

theorem blind_patch (offset : Nat) (bs : Bytes) : (patch offset bs).Blind := by
  intro w sink Q E
  rw [yields_patch, yields_patch]

theorem blind_patchLength (start : Nat) : (patchLength start).Blind := by
  intro w sink Q E
  rw [yields_patchLength, yields_patchLength]

theorem blind_fill (slot : Option Nat) (type : ElementType) : (fill slot type).Blind := by
  cases slot with
  | none => exact blind_pure ()
  | some start => exact blind_patch start _

theorem blind_fillScalar (slot : Option Nat) (type : ElementType) :
    (fillScalar slot type).Blind := by
  cases slot with
  | none => exact blind_raise _
  | some start => exact blind_fill (some start) type

theorem blind_openContainer (shape : Shape) : (openContainer shape).Blind := by
  intro w sink Q E
  rw [yields_openContainer, yields_openContainer]

theorem blind_reserve (name : String) : (reserve name).Blind := by
  intro w sink Q E
  rw [yields_reserve, yields_reserve]

theorem blind_takePosition (kind : ValueKind) (activity : Activity) :
    (takePosition kind activity).Blind := by
  refine Blind.tracked (blind_checkRunning.andThen fun _ => (blind_advance _).andThen fun _ => ?_)
  intro w sink Q E
  simp only [yields_andThen, yields_get]
  cases Container.nextElement w.containers with
  | none => exact Iff.rfl
  | some next =>
    obtain ⟨index, containers⟩ := next
    have hreserve := blind_reserve index.repr { w with containers } sink
    simp only [yields_andThen, yields_set, yields_pure]
    exact hreserve _ _

theorem blind_fieldName (name : String) : (fieldName name).Blind := by
  refine Blind.tracked (blind_checkRunning.andThen fun _ => ?_)
  have hnamed : (do
      advance Expectation.admitName
      let start ← reserve name
      modify fun w => { w with slot := some start } : Action Unit).Blind :=
    (blind_advance _).andThen fun _ => (blind_reserve name).andThen fun _ =>
      blind_modify fun _ _ => rfl
  intro w sink Q E
  rw [yields_atKey, yields_atKey]
  exact hnamed w sink Q _

theorem blind_checkArray : checkArray.Blind := by
  refine Blind.tracked (blind_checkRunning.andThen fun _ => blind_get (fun _ _ => rfl) fun w => ?_)
  split
  · exact blind_pure _
  · exact blind_raise _

theorem blind_take (place : Place) (kind : ValueKind) (activity : Activity) :
    (take place kind activity).Blind := by
  cases place with
  | direct => exact blind_takePosition _ _
  | field name => exact (blind_fieldName name).andThen fun _ => blind_takePosition _ _
  | element => exact blind_checkArray.andThen fun _ => blind_takePosition _ _

theorem blind_beginContainer (place : Place) (shape : Shape) :
    (beginContainer place shape).Blind :=
  (blind_take _ _ _).andThen fun slot =>
    ((blind_fill slot _).andThen fun _ => blind_openContainer shape).tracked

theorem blind_abandon (place : Place) : (abandon place).Blind :=
  (blind_take _ _ _).andThen fun _ => blind_modify fail_sink

theorem blind_beginScope (place : Place) (code : String) : (beginScope place code).Blind := by
  refine (blind_take _ _ _).andThen fun slot => Blind.tracked ?_
  refine (blind_fillScalar slot _).andThen fun _ => blind_get (fun _ _ => rfl) fun w => ?_
  refine (blind_append _).andThen fun _ => blind_get (fun _ _ => rfl) fun u => ?_
  refine (blind_emit _).andThen fun _ => (blind_openContainer _).andThen fun _ => ?_
  exact blind_get (fun _ _ => rfl) fun _ => blind_pure _

end BsonWriter.Action
