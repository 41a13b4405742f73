import BsonWriter.Proofs.Output.Slice
import BsonWriter.Writer.Calls

/-!
What an action leads to. `a.Yields w Q E` says that `a` carried out in state `w`
ends well with a result and a state in `Q`, or fails with an error and a state in
`E`. Each elementary action has one equation that says what this comes to, so a
longer action is opened by rewriting with the equations of its parts.
-/

namespace BsonWriter.Action

variable {α β : Type} {w : Writer} {Q : α → Writer → Prop} {E : Error → Writer → Prop}

/-- The action ends well in `Q`, or fails in `E`. -/
def Yields (a : Action α) (w : Writer) (Q : α → Writer → Prop) (E : Error → Writer → Prop) :
    Prop :=
  match a.run w with
  | .ok x w' => Q x w'
  | .error e w' => E e w'

theorem Yields.of_ok {a : Action α} {x : α} {w' : Writer} (h : a.Yields w Q E)
    (hr : a.run w = .ok x w') : Q x w' := by
  rwa [Yields, hr] at h

theorem Yields.of_error {a : Action α} {e : Error} {w' : Writer} (h : a.Yields w Q E)
    (hr : a.run w = .error e w') : E e w' := by
  rwa [Yields, hr] at h

theorem Yields.mono {a : Action α} {Q' : α → Writer → Prop} {E' : Error → Writer → Prop}
    (h : a.Yields w Q E) (hq : ∀ x w', Q x w' → Q' x w') (he : ∀ e w', E e w' → E' e w') :
    a.Yields w Q' E' := by
  unfold Yields at h ⊢
  cases hr : a.run w with
  | ok x w' => rw [hr] at h; exact hq x w' h
  | error e w' => rw [hr] at h; exact he e w' h

theorem yields_of_forall {a : Action α} (hq : ∀ x w', Q x w') (he : ∀ e w', E e w') :
    a.Yields w Q E := by
  unfold Yields
  cases a.run w with
  | ok x w' => exact hq x w'
  | error e w' => exact he e w'

theorem Yields.and {a : Action α} {Q' : α → Writer → Prop} {E' : Error → Writer → Prop}
    (h : a.Yields w Q E) (h' : a.Yields w Q' E') :
    a.Yields w (fun x v => Q x v ∧ Q' x v) (fun e v => E e v ∧ E' e v) := by
  unfold Yields at h h' ⊢
  cases hr : a.run w with
  | ok x v => rw [hr] at h h'; exact ⟨h, h'⟩
  | error e v => rw [hr] at h h'; exact ⟨h, h'⟩

/-- What cannot fail ends well. -/
theorem Yields.exists_ok {a : Action α} (h : a.Yields w Q fun _ _ => False) :
    ∃ x w', a.run w = .ok x w' ∧ Q x w' := by
  cases hr : a.run w with
  | ok x w' => exact ⟨x, w', rfl, h.of_ok hr⟩
  | error e w' => exact (h.of_error hr).elim

/-- What cannot end well fails. -/
theorem Yields.exists_error {a : Action α} (h : a.Yields w (fun _ _ => False) E) :
    ∃ e w', a.run w = .error e w' ∧ E e w' := by
  cases hr : a.run w with
  | ok x w' => exact (h.of_ok hr).elim
  | error e w' => exact ⟨e, w', rfl, h.of_error hr⟩

theorem yields_iff_of_ok {a : Action α} {x : α} {w' : Writer} (h : a.run w = .ok x w') :
    a.Yields w Q E ↔ Q x w' := by
  rw [Yields, h]

theorem run_eq_ok_iff {a : Action α} {x : α} {w' : Writer} :
    a.run w = .ok x w' ↔ a.Yields w (fun y v => y = x ∧ v = w') (fun _ _ => False) := by
  unfold Yields
  cases a.run w <;> simp

theorem run_eq_error_iff {a : Action α} {e : Error} {w' : Writer} :
    a.run w = .error e w' ↔ a.Yields w (fun _ _ => False) (fun f v => f = e ∧ v = w') := by
  unfold Yields
  cases a.run w <;> simp

/-- Two actions that yield the same do the same. -/
theorem run_eq_of_yields {a b : Action α} {w' : Writer}
    (h : ∀ Q E, a.Yields w Q E ↔ b.Yields w' Q E) : a.run w = b.run w' := by
  cases hr : b.run w' with
  | ok x v => exact run_eq_ok_iff.mpr ((h _ _).mpr (run_eq_ok_iff.mp hr))
  | error e v => exact run_eq_error_iff.mpr ((h _ _).mpr (run_eq_error_iff.mp hr))

theorem run_andThen_eq_ok {a : Action β} {f : β → Action α} {x : α} {w' : Writer}
    (h : (a >>= f).run w = .ok x w') : ∃ y v, a.run w = .ok y v ∧ (f y).run v = .ok x w' := by
  rw [run_andThen] at h
  cases hr : a.run w with
  | ok y v => exact ⟨y, v, rfl, by rwa [hr] at h⟩
  | error e v => simp [hr] at h

/-! ## Sequences and failures -/

@[simp] theorem yields_pure (x : α) : (pure x : Action α).Yields w Q E ↔ Q x w := Iff.rfl

@[simp] theorem yields_andThen {a : Action β} {f : β → Action α} :
    (a >>= f).Yields w Q E ↔ a.Yields w (fun x w' => (f x).Yields w' Q E) E := by
  simp only [Yields, run_andThen]
  cases a.run w <;> rfl

@[simp] theorem yields_map {a : Action β} (f : β → α) :
    (f <$> a).Yields w Q E ↔ a.Yields w (fun x w' => Q (f x) w') E := by
  rw [map_eq_pure_bind, yields_andThen]
  rfl

/-- What holds whenever one of two actions fails holds whenever their sequence does. -/
theorem fails_andThen {a : Action β} {f : β → Action α}
    (ha : ∀ w, a.Yields w (fun _ _ => True) E)
    (hf : ∀ x w, (f x).Yields w (fun _ _ => True) E) (w : Writer) :
    (a >>= f).Yields w (fun _ _ => True) E := by
  rw [yields_andThen]
  exact (ha w).mono (fun x w' _ => hf x w') fun _ _ he => he

theorem yields_forM_cons {γ : Type} {f : γ → Action Unit} {Q : Unit → Writer → Prop} (c : γ)
    (cs : List γ) :
    ((c :: cs).forM f).Yields w Q E ↔ (f c).Yields w (fun _ w' => (cs.forM f).Yields w' Q E) E :=
  yields_andThen

@[simp] theorem yields_raise (cause : Cause) :
    (raise cause : Action α).Yields w Q E ↔ E ⟨cause, none⟩ w := Iff.rfl

@[simp] theorem yields_tracked {a : Action α} :
    (tracked a).Yields w Q E ↔ a.Yields w Q (fun e w' => E e w'.fail) := by
  simp only [Yields, run_tracked]
  cases a.run w <;> rfl

@[simp] theorem yields_atKey {a : Action α} (key : String) :
    (atKey key a).Yields w Q E ↔ a.Yields w Q (fun e w' => E { e with key := some key } w') := by
  have h : (atKey key a).run w = match a.run w with
      | .ok x w => .ok x w
      | .error e w => .error { e with key := some key } w := rfl
  simp only [Yields, h]
  cases a.run w <;> rfl

/-! ## Elementary actions -/

@[simp] theorem yields_get {Q : Writer → Writer → Prop} :
    (get : Action Writer).Yields w Q E ↔ Q w w := Iff.rfl

@[simp] theorem yields_set {Q : PUnit → Writer → Prop} (w' : Writer) :
    (set w' : Action PUnit).Yields w Q E ↔ Q ⟨⟩ w' := Iff.rfl

@[simp] theorem yields_modify {Q : PUnit → Writer → Prop} (f : Writer → Writer) :
    (modify f : Action PUnit).Yields w Q E ↔ Q ⟨⟩ (f w) := Iff.rfl

@[simp] theorem yields_ite {p : Prop} [Decidable p] {a b : Action α} :
    (if p then a else b).Yields w Q E ↔ if p then a.Yields w Q E else b.Yields w Q E := by
  split <;> rfl

@[simp] theorem yields_append {Q : PUnit → Writer → Prop} (bs : Bytes) :
    (append bs).Yields w Q E ↔ Q ⟨⟩ { w with buffer := w.buffer.append bs } := Iff.rfl

@[simp] theorem yields_offset {Q : Nat → Writer → Prop} :
    offset.Yields w Q E ↔ Q w.buffer.size w := Iff.rfl

@[simp] theorem yields_checkRunning {Q : Unit → Writer → Prop} :
    checkRunning.Yields w Q E ↔ match w.phase with
      | .running => Q () w
      | .failed => E ⟨.outOfOrder .usedAfterFailure, none⟩ w
      | .closed => E ⟨.outOfOrder .usedAfterClose, none⟩ w := by
  unfold checkRunning
  simp only [yields_andThen, yields_get]
  cases w.phase <;> rfl

@[simp] theorem yields_emit {Q : Unit → Writer → Prop} (p : Payload) :
    (emit p).Yields w Q E ↔ match p.failure with
      | none => Q () { w with buffer := w.buffer.append p.written }
      | some cause => E ⟨cause, none⟩ { w with buffer := w.buffer.append p.written } := by
  unfold emit
  simp only [yields_andThen, yields_append]
  cases p.failure <;> rfl

theorem run_patch (offset : Nat) (bs : Bytes) : (patch offset bs).run w =
    match w.buffer.patch offset bs with
      | .ok buffer => .ok () { w with buffer }
      | .error cause => .error ⟨cause, none⟩ w := by
  rw [patch, run_andThen, show (get : Action Writer).run w = .ok w w from rfl]
  dsimp only
  cases w.buffer.patch offset bs <;> rfl

@[simp] theorem yields_patch {Q : Unit → Writer → Prop} (offset : Nat) (bs : Bytes) :
    (patch offset bs).Yields w Q E ↔ match w.buffer.patch offset bs with
      | .ok buffer => Q () { w with buffer }
      | .error cause => E ⟨cause, none⟩ w := by
  simp only [Yields, run_patch]
  cases w.buffer.patch offset bs <;> rfl

@[simp] theorem yields_patchLength {Q : Unit → Writer → Prop} (start : Nat) :
    (patchLength start).Yields w Q E ↔
      if w.buffer.size - start < lengthBound then
        match w.buffer.patch start (lengthField (w.buffer.size - start)) with
        | .ok buffer => Q () { w with buffer }
        | .error cause => E ⟨cause, none⟩ w
      else E ⟨.lengthOverflow (w.buffer.size - start), none⟩ w := by
  unfold patchLength
  simp only [yields_andThen, yields_offset, yields_ite, yields_patch, yields_raise]

theorem run_drain : drain.run w = match w.sink.handOver w.buffer.held with
    | (.ok (), sink) => .ok () { w with buffer := w.buffer.drained, sink }
    | (.error fault, sink) => .error ⟨.sink fault, none⟩ { w with sink } := by
  rw [EStateM.run, drain, Buffer.drain_eq]
  rcases w.sink.handOver w.buffer.held with ⟨⟨⟩ | ⟨⟩, sink⟩ <;> rfl

@[simp] theorem yields_drain {Q : Unit → Writer → Prop} :
    drain.Yields w Q E ↔ match w.sink.handOver w.buffer.held with
      | (.ok (), sink) => Q () { w with buffer := w.buffer.drained, sink }
      | (.error fault, sink) => E ⟨.sink fault, none⟩ { w with sink } := by
  simp only [Yields, run_drain]
  rcases w.sink.handOver w.buffer.held with ⟨⟨⟩ | ⟨⟩, sink⟩ <;> rfl

@[simp] theorem yields_drainIfStreaming {Q : Unit → Writer → Prop} :
    drainIfStreaming.Yields w Q E ↔
      if w.options.streaming then drain.Yields w Q E else Q () w := by
  unfold drainIfStreaming
  simp only [yields_andThen, yields_get]
  cases w.options.streaming <;> rfl

theorem run_flushSink : flushSink.run w = match drain.run w with
    | .ok () w' =>
      if w'.sink.flushFails then
        .error ⟨.sink .flushFailed, none⟩ { w' with sink := w'.sink.flush.2 }
      else .ok () { w' with sink := w'.sink.flush.2 }
    | .error e w' => .error e w' := by
  rw [flushSink, run_andThen]
  cases drain.run w with
  | error e w' => rfl
  | ok u w' =>
    dsimp only
    rw [run_andThen, show (get : Action Writer).run w' = .ok w' w' from rfl]
    cases hf : w'.sink.flushFails with
    | false => simp [Sink.flush, hf]
    | true =>
      simp only [Sink.flush, hf, if_true]
      rfl

@[simp] theorem yields_flushSink {Q : Unit → Writer → Prop} :
    flushSink.Yields w Q E ↔ drain.Yields w (fun _ w' =>
      if w'.sink.flushFails then
        E ⟨.sink .flushFailed, none⟩ { w' with sink := w'.sink.flush.2 }
      else Q () { w' with sink := w'.sink.flush.2 }) E := by
  simp only [Yields, run_flushSink]
  cases drain.run w with
  | error e w' => rfl
  | ok u w' =>
    dsimp only
    cases w'.sink.flushFails <;> rfl

@[simp] theorem yields_advance {Q : Unit → Writer → Prop}
    (f : List Expectation → Except Violation (List Expectation)) :
    (advance f).Yields w Q E ↔ match f w.expectations with
      | .ok expectations => Q () { w with expectations }
      | .error violation => E ⟨.outOfOrder violation, none⟩ w := by
  unfold advance
  simp only [yields_andThen, yields_get]
  cases f w.expectations <;> rfl

@[simp] theorem yields_reserve {Q : Nat → Writer → Prop} (name : String) :
    (reserve name).Yields w Q E ↔ match Payload.cstring w.escapes name with
      | ⟨bs, none⟩ => Q w.buffer.size { w with buffer := w.buffer.append (0 :: bs) }
      | ⟨bs, some cause⟩ =>
        E ⟨cause, none⟩ { w with buffer := w.buffer.append (0 :: bs) } := by
  unfold reserve
  simp only [yields_andThen, yields_offset, yields_append, yields_get, yields_emit, yields_pure]
  rcases Payload.cstring w.escapes name with ⟨bs, _ | _⟩ <;> simp

@[simp] theorem yields_openContainer {Q : PUnit → Writer → Prop} (shape : Shape) :
    (openContainer shape).Yields w Q E ↔ Q ⟨⟩ { w with
      buffer := w.buffer.append (lengthField 0)
      containers := .start w.buffer.size shape :: w.containers
      expectations := shape.expectation :: w.expectations } := by
  unfold openContainer
  simp only [yields_andThen, yields_offset, yields_append, yields_modify]

@[simp] theorem yields_closeContainer {Q : Unit → Writer → Prop} :
    closeContainer.Yields w Q E ↔ match w.containers with
      | [] => E ⟨.outOfOrder .nothingToEnd, none⟩ w
      | container :: rest =>
        (if w.options.streaming then drain else patchLength container.header).Yields
          { w with containers := rest, buffer := w.buffer.append [endOfDocument] } Q E := by
  unfold closeContainer
  simp only [yields_andThen, yields_get]
  cases w.containers with
  | nil => rfl
  | cons container rest =>
    cases hs : w.options.streaming <;> simp [hs]

/-- The expectations after the end of a container. -/
def leave : Shape → List Expectation → Except Violation (List Expectation)
  | .document => Expectation.leaveObject
  | .array => Expectation.leaveArray

@[simp] theorem leave_expectation (shape : Shape) (rest : List Expectation) :
    leave shape (shape.expectation :: rest) = .ok rest := by
  cases shape <;> rfl

/-- Only the container that is innermost can end. -/
theorem leave_eq_ok {shape : Shape} {es rest : List Expectation} (h : leave shape es = .ok rest) :
    es = shape.expectation :: rest := by
  cases es with
  | nil => cases shape <;> cases h
  | cons e es =>
    cases shape <;> cases e <;> first | (cases h; rfl) | cases h

theorem endContainer_eq (shape : Shape) :
    endContainer shape =
      tracked (do checkRunning; advance (leave shape); closeContainer) := by
  cases shape <;> rfl

end BsonWriter.Action
