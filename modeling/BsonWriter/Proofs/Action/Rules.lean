import BsonWriter.Proofs.Action.Yields

/-!
How the longer actions of a session end. A rule lists the states in which an
action can leave the session, with what is known of each; whoever has checked
them knows what the action yields. `Keeps` is the case of a property that holds
afterwards because it held before.
-/

namespace BsonWriter.Action

variable {α β : Type} {w : Writer}

/-! ## Properties that are kept -/

/-- The action keeps a property of states, whether it ends well or fails. -/
def Keeps (I : Writer → Prop) (a : Action α) : Prop :=
  ∀ w, I w → a.Yields w (fun _ => I) (fun _ => I)

namespace Keeps

variable {I : Writer → Prop}

theorem andThen {a : Action β} {f : β → Action α} (ha : Keeps I a) (hf : ∀ x, Keeps I (f x)) :
    Keeps I (a >>= f) := by
  intro w hw
  rw [yields_andThen]
  exact (ha w hw).mono (fun x w' hw' => hf x w' hw') fun _ _ hw' => hw'

theorem tracked {a : Action α} (ha : Keeps I a) (hI : ∀ w, I w → I w.fail) :
    Keeps I (Action.tracked a) := by
  intro w hw
  rw [yields_tracked]
  exact (ha w hw).mono (fun _ _ hw' => hw') fun _ w' hw' => hI w' hw'

theorem forM {γ : Type} {f : γ → Action Unit} (hf : ∀ c, Keeps I (f c)) (cs : List γ) :
    Keeps I (cs.forM f) := by
  induction cs with
  | nil => exact fun w hw => hw
  | cons c cs ih => exact andThen (hf c) fun _ => ih

/-! A property that asks no more of the buffer than a size. -/

theorem emit (hb : ∀ w b, I w → w.buffer.size ≤ b.size → I { w with buffer := b }) (p : Payload) :
    Keeps I (Action.emit p) := by
  intro w hw
  have h := hb w (w.buffer.append p.written) hw (by rw [Buffer.size_append]; omega)
  rw [yields_emit]
  cases p.failure with
  | none => exact h
  | some cause => exact h

theorem patch (hb : ∀ w b, I w → w.buffer.size ≤ b.size → I { w with buffer := b }) (offset : Nat)
    (bs : Bytes) : Keeps I (Action.patch offset bs) := by
  intro w hw
  rw [yields_patch]
  cases hp : w.buffer.patch offset bs with
  | error cause => exact hw
  | ok b => exact hb w b hw (Nat.le_of_eq (Buffer.size_of_patch hp).symm)

theorem patchLength (hb : ∀ w b, I w → w.buffer.size ≤ b.size → I { w with buffer := b })
    (start : Nat) : Keeps I (Action.patchLength start) := by
  intro w hw
  unfold Action.patchLength
  simp only [yields_andThen, yields_offset, yields_ite, yields_raise]
  split
  · exact patch hb _ _ w hw
  · exact hw

theorem drain (hb : ∀ w b, I w → w.buffer.size ≤ b.size → I { w with buffer := b })
    (hs : ∀ w sink, I w → I { w with sink }) : Keeps I Action.drain := by
  intro w hw
  rw [yields_drain]
  rcases w.sink.handOver w.buffer.held with ⟨⟨⟩ | ⟨⟩, sink⟩
  · exact hs w sink hw
  · exact hs _ sink (hb w _ hw (Nat.le_of_eq (Buffer.size_discard ..).symm))

end Keeps

/-! ## Type bytes -/

/-- A value takes the type byte that waits, or in an array one of its own with the
index after it. -/
theorem yields_takePosition {kind : ValueKind} {activity : Activity}
    {Q : Option Nat → Writer → Prop} {E : Error → Writer → Prop} (refused : ∀ e, E e w.fail)
    (waiting : ∀ expectations, w.phase = .running →
      Expectation.admitValue kind activity w.expectations = .ok expectations →
      Container.nextElement w.containers = none →
      Q w.slot { w with expectations, slot := none })
    (element : ∀ expectations index containers bs, w.phase = .running →
      Expectation.admitValue kind activity w.expectations = .ok expectations →
      Container.nextElement w.containers = some (index, containers) →
      Q (some w.buffer.size) { w with
        expectations, containers, buffer := w.buffer.append (0 :: bs) } ∧
      ∀ e, E e (Writer.fail { w with
        expectations, containers, buffer := w.buffer.append (0 :: bs) })) :
    (takePosition kind activity).Yields w Q E := by
  unfold takePosition
  simp only [yields_tracked, yields_andThen, yields_checkRunning, yields_advance, yields_get]
  cases hp : w.phase with
  | failed => exact refused _
  | closed => exact refused _
  | running =>
    dsimp only
    cases ha : Expectation.admitValue kind activity w.expectations with
    | error violation => exact refused _
    | ok expectations =>
      dsimp only
      cases hn : Container.nextElement w.containers with
      | none => exact hp ▸ waiting expectations hp ha hn
      | some next =>
        obtain ⟨index, containers⟩ := next
        simp only [yields_andThen, yields_set, yields_reserve, yields_pure]
        cases Payload.cstring w.escapes index.repr with
        | mk bs failure =>
          have h := element expectations index containers bs hp ha hn
          rw [hp] at h
          cases failure with
          | none => exact h.1
          | some cause => exact h.2 _

/-- A name is written behind a type byte that waits from then on. -/
theorem yields_fieldName {name : String} {Q : Unit → Writer → Prop} {E : Error → Writer → Prop}
    (refused : ∀ e, E e w.fail)
    (named : ∀ expectations bs, w.phase = .running →
      Expectation.admitName w.expectations = .ok expectations →
      Q () { w with
        expectations, buffer := w.buffer.append (0 :: bs), slot := some w.buffer.size } ∧
      ∀ e, E e (Writer.fail { w with expectations, buffer := w.buffer.append (0 :: bs) })) :
    (fieldName name).Yields w Q E := by
  unfold fieldName
  simp only [yields_tracked, yields_andThen, yields_checkRunning, yields_atKey, yields_advance]
  cases hp : w.phase with
  | failed => exact refused _
  | closed => exact refused _
  | running =>
    dsimp only
    cases ha : Expectation.admitName w.expectations with
    | error violation => exact refused _
    | ok expectations =>
      simp only [yields_reserve, yields_modify]
      cases Payload.cstring w.escapes name with
      | mk bs failure =>
        have h := named expectations bs hp ha
        rw [hp] at h
        cases failure with
        | none => exact h.1
        | some cause => exact h.2 _

theorem yields_checkArray {Q : Unit → Writer → Prop} {E : Error → Writer → Prop}
    (refused : ∀ e, E e w.fail) (passed : Q () w) : checkArray.Yields w Q E := by
  unfold checkArray
  simp only [yields_tracked, yields_andThen, yields_checkRunning, yields_get, yields_ite,
    yields_pure, yields_raise]
  cases hp : w.phase with
  | failed => exact refused _
  | closed => exact refused _
  | running =>
    dsimp only
    split
    · exact passed
    · exact refused _

theorem Keeps.take {I : Writer → Prop}
    (hp : ∀ kind activity, Keeps I (takePosition kind activity))
    (hf : ∀ name, Keeps I (fieldName name)) (ha : Keeps I checkArray) (place : Place)
    (kind : ValueKind) (activity : Activity) : Keeps I (take place kind activity) := by
  cases place with
  | direct => exact hp kind activity
  | field name => exact (hf name).andThen fun _ => hp _ _
  | element => exact ha.andThen fun _ => hp _ _

/-! ## Ends -/

/-- An end leaves the innermost container and writes the end marker, and then hands
everything over or fills the length field. -/
theorem yields_endContainer {shape : Shape} {Q : Unit → Writer → Prop}
    {E : Error → Writer → Prop} (refused : ∀ e, E e w.fail)
    (outside : ∀ expectations e, leave shape w.expectations = .ok expectations →
      w.containers = [] → E e (Writer.fail { w with expectations }))
    (ended : ∀ expectations container containers, w.phase = .running →
      leave shape w.expectations = .ok expectations → w.containers = container :: containers →
      (if w.options.streaming then drain else patchLength container.header).Yields { w with
        expectations, containers, buffer := w.buffer.append [endOfDocument] } Q
        (fun e w' => E e w'.fail)) :
    (endContainer shape).Yields w Q E := by
  rw [endContainer_eq]
  simp only [yields_tracked, yields_andThen, yields_checkRunning, yields_advance,
    yields_closeContainer]
  cases hp : w.phase with
  | failed => exact refused _
  | closed => exact refused _
  | running =>
    dsimp only
    cases hl : leave shape w.expectations with
    | error violation => exact refused _
    | ok expectations =>
      dsimp only
      cases hc : w.containers with
      | nil =>
        have h := outside expectations ⟨.outOfOrder .nothingToEnd, none⟩ hl hc
        rw [hp, hc] at h
        exact h
      | cons container containers =>
        have h := ended expectations container containers hp hl hc
        rw [hp] at h
        exact h

/-- The end of a scope checks how deep the session is, ends a document and then
hands everything over or fills the length field of the value. -/
theorem yields_endScope {mark : ScopeMark} {Q : Unit → Writer → Prop} {E : Error → Writer → Prop}
    (refused : ∀ e, E e w.fail)
    (ended : w.expectations.length = mark.depth → (endContainer .document).Yields w
      (fun _ w' => (if w'.options.streaming then drain else patchLength mark.start).Yields w' Q
        (fun e w' => E e w'.fail))
      (fun e w' => E e w'.fail)) :
    (endScope mark).Yields w Q E := by
  unfold endScope
  simp only [yields_tracked, yields_andThen, yields_get, yields_ite, yields_raise]
  split
  · rename_i hd
    refine (ended hd).mono (fun _ w' h => ?_) fun _ _ h => h
    cases hs : w'.options.streaming with
    | true => simpa [hs] using h
    | false =>
      simp only [hs, Bool.false_eq_true, if_false, yields_patchLength, yields_drainIfStreaming]
        at h ⊢
      exact h
  · exact refused _

theorem yields_flush {Q : Unit → Writer → Prop} {E : Error → Writer → Prop}
    (refused : ∀ e, E e w.fail)
    (flushed : w.phase ≠ .closed → flushSink.Yields w Q (fun e w' => E e w'.fail)) :
    flush.Yields w Q E := by
  unfold flush
  simp only [yields_tracked, yields_andThen, yields_get, yields_ite, yields_raise]
  split
  · exact refused _
  · exact flushed (by assumption)

/-- What a running session does when it is closed, before its output leaves. -/
def endAll (w : Writer) : Action Unit :=
  if w.options.autoClose then w.containers.forM fun c => endContainer c.shape else pure ()

/-- What the closing does in a state. -/
def closing (w : Writer) : Action Unit :=
  match w.phase with
  | .closed => pure ()
  | .failed => modify fun w => { w with phase := .closed, buffer := w.buffer.clear }
  | .running => do endAll w; tracked flushSink; modify fun w => { w with phase := .closed }

theorem run_close_eq (w : Writer) : close.run w = (closing w).run w := by
  have hget : (get : Action Writer).run w = .ok w w := rfl
  cases hp : w.phase with
  | closed => simp only [closing, close, run_andThen, hget, hp]
  | failed =>
    simp only [closing, close, run_andThen, hget, hp]
    rfl
  | running =>
    simp only [closing, close, hp, endAll]
    rw [run_andThen, hget]
    simp only [hp]
    cases w.options.autoClose <;> rfl

/-- A running session that is closed ends what is open and hands everything over. -/
theorem run_close (hr : w.phase = .running) : close.run w =
    (do endAll w; tracked flushSink; modify fun w => { w with phase := .closed }
      : Action Unit).run w := by
  rw [run_close_eq, closing, hr]

theorem yields_close {Q : Unit → Writer → Prop} {E : Error → Writer → Prop}
    (closed : w.phase = .closed → Q () w)
    (failed : w.phase = .failed → Q () { w with phase := .closed, buffer := w.buffer.clear })
    (running : w.phase = .running → (endAll w).Yields w
      (fun _ w' => flushSink.Yields w' (fun _ w' => Q () { w' with phase := .closed })
        (fun e w' => E e w'.fail)) E) :
    close.Yields w Q E := by
  rw [Yields, run_close_eq]
  change (closing w).Yields w Q E
  unfold closing
  cases hp : w.phase with
  | closed => exact closed hp
  | failed => exact failed hp
  | running =>
    have h := running hp
    simpa only [yields_andThen, yields_tracked, yields_modify] using h

end BsonWriter.Action
