import BsonWriter.Proofs.Action.Rules
import BsonWriter.Proofs.Run.Step

/-!
One action carried out by two sessions. `Paired beyond a w v Q E` says that they report the same
and end in states that `Q` or `E` relates, unless the first of them ends in a state that lies
beyond what is spoken of. Nothing leads back from there, so a sequence need not be followed any
further. `Coupled` is the case without exceptions. The rules follow the shape of actions. Those
for the longer actions of a session list what becomes of two that are `Alike`, whatever else
relates them.
-/

namespace BsonWriter

/-- The sessions are at the same point and have written as much, whatever of it has left, and
where to. -/
structure Writer.Alike (w v : Writer) : Prop where
  expectations : v.expectations = w.expectations
  containers : v.containers = w.containers
  slot : v.slot = w.slot
  escapes : v.escapes = w.escapes
  phase : v.phase = w.phase
  size : v.buffer.size = w.buffer.size

namespace Action

variable {α β γ : Type} {beyond : Writer → Prop} {w v : Writer}

/-- Both sessions report the same, and their states are related as stated, unless the first
ends beyond. -/
def Paired (beyond : Writer → Prop) (a : Action α) (w v : Writer)
    (Q : α → Writer → Writer → Prop) (E : Writer → Writer → Prop) : Prop :=
  a.Yields w
    (fun x w' => ¬beyond w' → a.Yields v (fun y v' => y = x ∧ Q x w' v') fun _ _ => False)
    fun e w' => ¬beyond w' → a.Yields v (fun _ _ => False) fun f v' => f = e ∧ E w' v'

/-- Wherever the first ends. -/
abbrev Coupled (a : Action α) (w v : Writer) (Q : α → Writer → Writer → Prop)
    (E : Writer → Writer → Prop) : Prop :=
  Paired (fun _ => False) a w v Q E

section Rules

variable {Q : α → Writer → Writer → Prop} {E : Writer → Writer → Prop}

theorem Paired.mono {a : Action α} {Q' : α → Writer → Writer → Prop} {E' : Writer → Writer → Prop}
    (h : Paired beyond a w v Q E) (hq : ∀ x w' v', Q x w' v' → Q' x w' v')
    (he : ∀ w' v', E w' v' → E' w' v') : Paired beyond a w v Q' E' :=
  Yields.mono h
    (fun x w' hw hb => (hw hb).mono (fun _ v' hv => ⟨hv.1, hq x w' v' hv.2⟩) fun _ _ hf => hf)
    fun _ w' hw hb => (hw hb).mono (fun _ _ hf => hf) fun _ v' hv => ⟨hv.1, he w' v' hv.2⟩

/-- What is known of the first session may be used. -/
theorem Paired.and {a : Action α} {P : α → Writer → Prop} {F : Error → Writer → Prop}
    (h : Paired beyond a w v Q E) (hp : a.Yields w P F) :
    Paired beyond a w v (fun x w' v' => Q x w' v' ∧ P x w') E :=
  (Yields.and h hp).mono
    (fun _ _ hw hb => (hw.1 hb).mono (fun _ _ hv => ⟨hv.1, hv.2, hw.2⟩) fun _ _ hf => hf)
    fun _ _ hw => hw.1

theorem paired_pure {x : α} (h : Q x w v) : Paired beyond (pure x) w v Q E := fun _ => ⟨rfl, h⟩

theorem paired_raise {cause : Cause} (h : E w v) :
    Paired beyond (raise cause : Action α) w v Q E := fun _ => ⟨rfl, h⟩

theorem paired_modify {f : Writer → Writer} {R : Writer → Writer → Prop} (h : R (f w) (f v)) :
    Paired beyond (modify f) w v (fun _ => R) E := fun _ => ⟨rfl, h⟩

/-- One action after another, of which the second does not lead back from beyond. -/
theorem paired_andThen {a : Action β} {f : β → Action α}
    (h : Paired beyond a w v (fun x w' v' => Paired beyond (f x) w' v' Q E) E)
    (hf : ∀ x, Keeps beyond (f x)) : Paired beyond (a >>= f) w v Q E := by
  unfold Paired at h ⊢
  simp only [yields_andThen]
  refine Yields.mono h (fun x w' hw => ?_) fun _ _ hw hb =>
    (hw hb).mono (fun _ _ he => he.elim) fun _ _ he => he
  -- beyond, the second session need not even have come this far
  by_cases hb : beyond w'
  · exact (hf x w' hb).mono (fun _ _ hu hn => absurd hu hn) fun _ _ hu hn => absurd hu hn
  · obtain ⟨_, v', hv, rfl, hpaired⟩ := (hw hb).exists_ok
    simp only [yields_iff_of_ok hv]
    exact hpaired

theorem coupled_andThen {a : Action β} {f : β → Action α}
    (h : Coupled a w v (fun x w' v' => Coupled (f x) w' v' Q E) E) : Coupled (a >>= f) w v Q E :=
  paired_andThen h fun _ _ hb => hb.elim

/-- The same for each of many, as long as the sessions stay related. -/
theorem paired_forM {f : γ → Action Unit} {R : Writer → Writer → Prop}
    (hf : ∀ c w v, R w v → Paired beyond (f c) w v (fun _ => R) E)
    (hk : ∀ c, Keeps beyond (f c)) (h : R w v) (cs : List γ) :
    Paired beyond (cs.forM f) w v (fun _ => R) E := by
  induction cs generalizing w v with
  | nil => exact paired_pure h
  | cons c cs ih =>
    exact paired_andThen ((hf c w v h).mono (fun _ _ _ hr => ih hr) fun _ _ he => he)
      fun _ => Keeps.forM hk cs

theorem paired_tracked {a : Action α} (hb : ∀ u, beyond u → beyond u.fail)
    (h : Paired beyond a w v Q fun w' v' => E w'.fail v'.fail) :
    Paired beyond (tracked a) w v Q E := by
  unfold Paired at h ⊢
  simp only [yields_tracked]
  exact Yields.mono h (fun _ _ hw => hw) fun _ w' hw hn => hw (mt (hb w') hn)

theorem coupled_tracked {a : Action α} (h : Coupled a w v Q fun w' v' => E w'.fail v'.fail) :
    Coupled (tracked a) w v Q E :=
  paired_tracked (fun _ hb => hb) h

/-- What is read of the state is the same in both. -/
theorem paired_get {f : Writer → Action α} (hf : f v = f w) (h : Paired beyond (f w) w v Q E) :
    Paired beyond (get >>= f) w v Q E := by
  unfold Paired at h ⊢
  simp only [yields_andThen, yields_get, hf]
  exact h

/-- The same action under another name. -/
theorem Paired.of_run {a b : Action α} (h : Paired beyond b w v Q E) (hw : a.run w = b.run w)
    (hv : a.run v = b.run v) : Paired beyond a w v Q E := by
  unfold Paired Yields at h ⊢
  rw [hw, hv]
  exact h

/-- Both report the same. -/
theorem Paired.related {a : Action α} (h : Paired beyond a w v Q E)
    (hb : ¬beyond (a.after w)) : a.result v = a.result w ∧
      match a.result w with
      | .ok x => Q x (a.after w) (a.after v)
      | .error _ => E (a.after w) (a.after v) := by
  cases hw : a.run w with
  | ok x w' =>
    rw [after_of_ok hw] at hb ⊢
    obtain ⟨_, v', hv, rfl, hq⟩ := (h.of_ok hw hb).exists_ok
    rw [result_of_ok hw, result_of_ok hv, after_of_ok hv]
    exact ⟨rfl, hq⟩
  | error e w' =>
    rw [after_of_error hw] at hb ⊢
    obtain ⟨_, v', hv, rfl, he⟩ := (h.of_error hw hb).exists_error
    rw [result_of_error hw, result_of_error hv, after_of_error hv]
    exact ⟨rfl, he⟩

theorem Paired.result {a : Action α} {R : Writer → Writer → Prop}
    (h : Paired beyond a w v (fun _ => R) R) (hb : ¬beyond (a.after w)) :
    a.result v = a.result w ∧ R (a.after w) (a.after v) := by
  obtain ⟨hsame, hrelated⟩ := h.related hb
  refine ⟨hsame, ?_⟩
  cases hr : a.result w with
  | ok x => rwa [hr] at hrelated
  | error e => rwa [hr] at hrelated

end Rules

/-! ## The beginning of a value -/

section Alike

variable {E : Writer → Writer → Prop}

theorem paired_checkArray (h : w.Alike v) (refused : E w.fail v.fail) {R : Writer → Writer → Prop}
    (passed : R w v) : Paired beyond checkArray w v (fun _ => R) E := by
  unfold checkArray Paired
  simp only [yields_tracked, yields_andThen, yields_checkRunning, yields_get, yields_ite,
    yields_pure, yields_raise, h.phase, h.expectations]
  cases w.phase with
  | failed => exact fun _ => ⟨trivial, refused⟩
  | closed => exact fun _ => ⟨trivial, refused⟩
  | running =>
    dsimp only
    split
    · exact fun _ => ⟨trivial, passed⟩
    · exact fun _ => ⟨trivial, refused⟩

/-- Both take the type byte that waits, or in an array write an element's up to its value. -/
theorem paired_takePosition (h : w.Alike v) {kind : ValueKind} {activity : Activity}
    {Q : Option Nat → Writer → Writer → Prop} (refused : E w.fail v.fail)
    (waiting : ∀ expectations, w.phase = .running →
      Expectation.admitValue kind activity w.expectations = .ok expectations →
      Container.nextElement w.containers = none →
      Q w.slot { w with expectations, slot := none } { v with expectations, slot := none })
    (element : ∀ expectations index containers bs, w.phase = .running →
      Expectation.admitValue kind activity w.expectations = .ok expectations →
      Container.nextElement w.containers = some (index, containers) →
      Q (some w.buffer.size)
        { w with expectations, containers, buffer := w.buffer.append (0 :: bs) }
        { v with expectations, containers, buffer := v.buffer.append (0 :: bs) } ∧
      E (Writer.fail { w with expectations, containers, buffer := w.buffer.append (0 :: bs) })
        (Writer.fail { v with expectations, containers, buffer := v.buffer.append (0 :: bs) })) :
    Paired beyond (takePosition kind activity) w v Q E := by
  unfold takePosition Paired
  -- all decisions are told by the fields of `w`, in the rule's premises as well
  simp only [yields_tracked, yields_andThen, yields_checkRunning, yields_advance, yields_get,
    h.phase, h.expectations, h.containers, h.slot] at waiting element ⊢
  cases hp : w.phase with
  | failed => exact fun _ => ⟨trivial, refused⟩
  | closed => exact fun _ => ⟨trivial, refused⟩
  | running =>
    dsimp only
    cases ha : Expectation.admitValue kind activity w.expectations with
    | error violation => exact fun _ => ⟨rfl, refused⟩
    | ok expectations =>
      dsimp only
      cases hn : Container.nextElement w.containers with
      | none => exact fun _ => ⟨rfl, hp ▸ waiting expectations hp ha hn⟩
      | some next =>
        obtain ⟨index, containers⟩ := next
        simp only [yields_andThen, yields_set, yields_reserve, yields_pure, h.escapes, h.size]
          at element ⊢
        cases Payload.cstring w.escapes index.repr with
        | mk bs failure =>
          have hwritten := element expectations index containers bs hp ha hn
          rw [hp] at hwritten
          cases failure with
          | none => exact fun _ => ⟨trivial, hwritten.1⟩
          | some cause => exact fun _ => ⟨rfl, hwritten.2⟩

/-- Both write a name behind a type byte that waits from then on. -/
theorem paired_fieldName (h : w.Alike v) {name : String} {R : Writer → Writer → Prop}
    (refused : E w.fail v.fail)
    (named : ∀ expectations bs, w.phase = .running →
      Expectation.admitName w.expectations = .ok expectations →
      R { w with expectations, buffer := w.buffer.append (0 :: bs), slot := some w.buffer.size }
        { v with expectations, buffer := v.buffer.append (0 :: bs), slot := some w.buffer.size } ∧
      E (Writer.fail { w with expectations, buffer := w.buffer.append (0 :: bs) })
        (Writer.fail { v with expectations, buffer := v.buffer.append (0 :: bs) })) :
    Paired beyond (fieldName name) w v (fun _ => R) E := by
  unfold fieldName Paired
  simp only [yields_tracked, yields_andThen, yields_checkRunning, yields_atKey, yields_advance,
    yields_reserve, yields_modify, h.phase, h.expectations, h.slot, h.escapes, h.size] at named ⊢
  cases hp : w.phase with
  | failed => exact fun _ => ⟨trivial, refused⟩
  | closed => exact fun _ => ⟨trivial, refused⟩
  | running =>
    dsimp only
    cases ha : Expectation.admitName w.expectations with
    | error violation => exact fun _ => ⟨rfl, refused⟩
    | ok expectations =>
      dsimp only
      cases Payload.cstring w.escapes name with
      | mk bs failure =>
        have hwritten := named expectations bs hp ha
        rw [hp] at hwritten
        cases failure with
        | none => exact fun _ => ⟨trivial, hwritten.1⟩
        | some cause => exact fun _ => ⟨rfl, hwritten.2⟩

/-! ## The end of a container -/

/-- What is left to do for a length field: it is filled, or with streaming it stays as it is and
everything is handed over. -/
def settle (start : Nat) : Action Unit := do
  if (← get).options.streaming then drain else patchLength start

theorem yields_settle {start : Nat} {Q : Unit → Writer → Prop} {F : Error → Writer → Prop} :
    (settle start).Yields w Q F ↔
      (if w.options.streaming then drain else patchLength start).Yields w Q F := Iff.rfl

/-- What follows the end of a scope's document is the same. -/
theorem run_settle (start : Nat) : (do
    unless (← get).options.streaming do patchLength start
    drainIfStreaming : Action Unit).run w = (settle start).run w := by
  refine run_eq_of_yields fun Q F => ?_
  simp only [yields_andThen, yields_get, yields_settle]
  cases hs : w.options.streaming <;> simp [hs]

/-- Both leave the innermost container and write the end marker. -/
theorem paired_endContainer (h : w.Alike v) (hb : ∀ u, beyond u → beyond u.fail) {shape : Shape}
    {Q : Unit → Writer → Writer → Prop} (refused : E w.fail v.fail)
    (outside : ∀ expectations, w.phase = .running → leave shape w.expectations = .ok expectations →
      w.containers = [] →
      E (Writer.fail { w with expectations }) (Writer.fail { v with expectations }))
    (ended : ∀ expectations container containers, w.phase = .running →
      leave shape w.expectations = .ok expectations → w.containers = container :: containers →
      Paired beyond (settle container.header)
        { w with expectations, containers, buffer := w.buffer.append [endOfDocument] }
        { v with expectations, containers, buffer := v.buffer.append [endOfDocument] } Q
        fun w' v' => E w'.fail v'.fail) :
    Paired beyond (endContainer shape) w v Q E := by
  rw [endContainer_eq]
  unfold Paired at ended ⊢
  simp only [yields_tracked, yields_andThen, yields_checkRunning, yields_advance,
    yields_closeContainer, yields_settle, h.phase, h.expectations, h.containers]
    at outside ended ⊢
  cases hp : w.phase with
  | failed => exact fun _ => ⟨trivial, refused⟩
  | closed => exact fun _ => ⟨trivial, refused⟩
  | running =>
    dsimp only
    cases hl : leave shape w.expectations with
    | error violation => exact fun _ => ⟨rfl, refused⟩
    | ok expectations =>
      dsimp only
      cases hc : w.containers with
      | nil =>
        have hout := outside expectations hp hl hc
        rw [hp, hc] at hout
        exact fun _ => ⟨trivial, hout⟩
      | cons container containers =>
        have hsettled := ended expectations container containers hp hl hc
        rw [hp] at hsettled
        exact Yields.mono hsettled (fun _ _ hw => hw) fun _ w' hw hn => hw (mt (hb w') hn)

/-- Both end the document of a scope, if they are where its fields go. -/
theorem paired_endScope (h : w.Alike v) (hb : ∀ u, beyond u → beyond u.fail) {mark : ScopeMark}
    {Q : Unit → Writer → Writer → Prop} (refused : E w.fail v.fail)
    (hk : Keeps beyond (settle mark.start))
    (ended : Paired beyond (endContainer .document) w v
      (fun _ w' v' => Paired beyond (settle mark.start) w' v' Q fun w'' v'' => E w''.fail v''.fail)
      fun w' v' => E w'.fail v'.fail) :
    Paired beyond (endScope mark) w v Q E := by
  refine paired_tracked hb (paired_get (by rw [h.expectations]) ?_)
  split
  · refine paired_andThen (ended.mono (fun _ w' v' hsettled => ?_) fun _ _ he => he)
      fun _ u hu => ?_
    · exact hsettled.of_run (run_settle ..) (run_settle ..)
    · unfold Yields
      rw [run_settle]
      exact hk u hu
  · exact paired_raise refused

/-! ## The end of a session -/

/-- What a running session does to its output when it is closed. -/
def deliver : Action Unit := do
  tracked flushSink
  modify fun w => { w with phase := .closed }

theorem paired_close (h : w.Alike v) (ha : v.options.autoClose = w.options.autoClose)
    {R : Writer → Writer → Prop} (hk : Keeps beyond deliver) (closed : w.phase = .closed → R w v)
    (failed : w.phase = .failed → R { w with buffer := w.buffer.clear, phase := .closed }
      { v with buffer := v.buffer.clear, phase := .closed })
    (running : w.phase = .running → Paired beyond (endAll w) w v
      (fun _ w' v' => Paired beyond deliver w' v' (fun _ => R) E) E) :
    Paired beyond close w v (fun _ => R) E := by
  have hsame : closing v = closing w := by
    simp only [closing, endAll, h.phase, h.containers, ha]
  have hclosing : Paired beyond (closing w) w v (fun _ => R) E := by
    unfold closing
    cases hp : w.phase with
    | closed => exact paired_pure (closed hp)
    | failed => exact paired_modify (failed hp)
    | running => exact paired_andThen (running hp) fun _ => hk
  exact hclosing.of_run (run_close_eq w) (by rw [run_close_eq, hsame])

end Alike

end Action

end BsonWriter
