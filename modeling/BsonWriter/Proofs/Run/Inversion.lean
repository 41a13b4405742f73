import BsonWriter.Proofs.Output.Slice
import BsonWriter.Proofs.Run.Step
import BsonWriter.Proofs.Tree.Encoding

/-!
What has happened when an action has gone well. Each lemma takes an action that ended
without an error and gives the facts that its checks have found, and the state that it
has left.
-/

namespace BsonWriter

/-- A name may come where a name is expected, and then its value is. -/
theorem Expectation.admitName_eq_ok {es es' : List Expectation} (h : admitName es = .ok es') :
    ∃ rest, es = .name :: rest ∧ es' = .value :: rest := by
  cases es with
  | nil => cases h
  | cons e rest =>
    cases e with
    | name =>
      cases h
      exact ⟨rest, rfl, rfl⟩
    | value | element => cases h

namespace Action

variable {α : Type} {w w' : Writer}

theorem tracked_eq_ok {a : Action α} {x : α} (h : (tracked a).run w = .ok x w') :
    a.run w = .ok x w' := by
  rw [run_tracked] at h
  cases hr : a.run w with
  | ok y v => rwa [hr] at h
  | error e v => simp [hr] at h

/-! ## Names and type bytes -/

theorem fieldName_eq_ok {name : String} (hr : w.phase = .running)
    (hrun : (fieldName name).run w = .ok () w') :
    ∃ rest key, w.expectations = .name :: rest ∧ writtenName w.escapes name = some key := by
  have hy := run_eq_ok_iff.mp hrun
  simp only [fieldName, yields_tracked, yields_andThen, yields_checkRunning, hr, yields_atKey,
    yields_advance, yields_reserve] at hy
  cases ha : Expectation.admitName w.expectations with
  | error violation => simp [ha] at hy
  | ok expectations =>
    rw [ha] at hy
    have hname : (Payload.cstring w.escapes name).failure = none := by
      cases hp : Payload.cstring w.escapes name with
      | mk bs failure =>
        cases failure with
        | none => rfl
        | some cause => simp [hp] at hy
    obtain ⟨key, hkey⟩ := writtenName_of_cstring hname
    obtain ⟨rest, he, -⟩ := Expectation.admitName_eq_ok ha
    exact ⟨rest, key, he, hkey⟩

theorem takePosition_eq_ok {kind : ValueKind} {activity : Activity} {slot : Option Nat}
    {u : Writer} (hr : w.phase = .running)
    (hrun : (takePosition kind activity).run w = .ok slot u) :
    ∃ expectations, Expectation.admitValue kind activity w.expectations = .ok expectations ∧
      ((Container.nextElement w.containers = none ∧ slot = w.slot ∧
          u = { w with expectations, slot := none }) ∨
        ∃ index containers key, Container.nextElement w.containers = some (index, containers) ∧
          writtenName w.escapes index.repr = some key ∧ slot = some w.buffer.size ∧
          u = { w with
            expectations, containers, buffer := w.buffer.append (0 :: terminated key) }) := by
  have hy := run_eq_ok_iff.mp hrun
  simp only [takePosition, yields_tracked, yields_andThen, yields_checkRunning, hr,
    yields_advance, yields_get] at hy
  cases ha : Expectation.admitValue kind activity w.expectations with
  | error violation => simp [ha] at hy
  | ok expectations =>
    refine ⟨expectations, rfl, ?_⟩
    simp only [ha] at hy
    cases hn : Container.nextElement w.containers with
    | none =>
      simp only [hn, yields_andThen, yields_set, yields_pure] at hy
      refine .inl ⟨rfl, hy.1.symm, ?_⟩
      rw [← hy.2, hr]
    | some next =>
      obtain ⟨index, containers⟩ := next
      simp only [hn, yields_andThen, yields_set, yields_reserve, yields_pure] at hy
      cases hp : Payload.cstring w.escapes index.repr with
      | mk bs failure =>
        cases failure with
        | some cause => simp [hp] at hy
        | none =>
          obtain ⟨key, hkey⟩ := writtenName_of_cstring (congrArg Payload.failure hp)
          rw [cstring_of_writtenName hkey] at hy
          refine .inr ⟨index, containers, key, rfl, hkey, hy.1.symm, ?_⟩
          rw [← hy.2, hr]

/-! ## Beginnings and ends -/

/-- The beginning of a scope, after the type byte of its value has been taken. -/
theorem openScopeAt_eq_ok {code : String} {slot : Option Nat} {mark : ScopeMark}
    (h : (openScopeAt code slot).run w = .ok mark w') :
    ∃ start text, ∃ b : Buffer, slot = some start ∧
      w.buffer.patch start [ElementType.javaScriptCodeWithScope.tag] = .ok b ∧
      writtenText w.escapes code = some text ∧ mark = ⟨b.size, w.expectations.length + 1⟩ ∧
      w' = Writer.opened { w with buffer := b.append (lengthField 0 ++ prefixed text) }
        .document := by
  rw [run_eq_ok_iff] at h
  cases slot with
  | none => simp [openScopeAt, fillScalar] at h
  | some start =>
    simp only [openScopeAt, fillScalar, fill, yields_tracked, yields_andThen,
      Option.isNone_some, Bool.false_eq_true, if_false, yields_pure, yields_patch] at h
    cases hp : w.buffer.patch start [ElementType.javaScriptCodeWithScope.tag] with
    | error cause => simp [hp] at h
    | ok b =>
      simp only [hp, yields_offset, yields_append, yields_get, yields_emit] at h
      cases hf : (Payload.string w.escapes code).failure with
      | some cause => simp [hf] at h
      | none =>
        obtain ⟨text, ht, hs⟩ := writtenText_of_string hf
        rw [hs] at h
        obtain ⟨rfl, rfl⟩ := h
        exact ⟨start, text, b, rfl, hp, ht, rfl, by rw [Buffer.append_append]; rfl⟩

theorem patchLength_eq_ok {start : Nat}
    (h : (patchLength start).run w = .ok () w') :
    w.buffer.size - start < lengthBound ∧
      ∃ b, w.buffer.patch start (lengthField (w.buffer.size - start)) = .ok b ∧
        w' = { w with buffer := b } := by
  rw [run_eq_ok_iff, yields_patchLength] at h
  split at h
  case isFalse => exact h.elim
  rename_i hl
  cases hp : w.buffer.patch start (lengthField (w.buffer.size - start)) with
  | error cause => simp [hp] at h
  | ok b =>
    rw [hp] at h
    exact ⟨hl, b, rfl, h.2.symm⟩

/-- The end of a container, when the session keeps its output. -/
theorem endContainer_eq_ok {shape : Shape} (hs : w.options.streaming = false)
    (h : (endContainer shape).run w = .ok () w') :
    ∃ rest container containers, ∃ b : Buffer, w.phase = .running ∧
      w.expectations = shape.expectation :: rest ∧ w.containers = container :: containers ∧
      w.buffer.size + 1 - container.header < lengthBound ∧
      (w.buffer.append [endOfDocument]).patch container.header
        (lengthField (w.buffer.size + 1 - container.header)) = .ok b ∧
      w' = { w with expectations := rest, containers := containers, buffer := b } := by
  rw [run_eq_ok_iff, endContainer_eq] at h
  simp only [yields_tracked, yields_andThen, yields_checkRunning, yields_advance,
    yields_closeContainer, hs, Bool.false_eq_true, if_false] at h
  cases hp : w.phase with
  | failed => simp [hp] at h
  | closed => simp [hp] at h
  | running =>
    rw [hp] at h
    cases hl : leave shape w.expectations with
    | error violation => simp [hl] at h
    | ok rest =>
      cases hc : w.containers with
      | nil => simp [hl, hc] at h
      | cons container containers =>
        simp only [hl, hc] at h
        have hrun : (patchLength container.header).run _ = .ok () w' :=
          run_eq_ok_iff.mpr (h.mono (fun _ _ hv => ⟨rfl, hv.2⟩) fun _ _ hv => hv)
        obtain ⟨hlt, b, hb, rfl⟩ := patchLength_eq_ok hrun
        rw [Buffer.size_append, List.length_singleton] at hlt hb
        exact ⟨rest, container, containers, b, rfl, leave_eq_ok hl, rfl, hlt, hb, rfl⟩

/-- The end of a scope, when the session keeps its output. -/
theorem endScope_eq_ok {mark : ScopeMark} (hs : w.options.streaming = false)
    (h : (endScope mark).run w = .ok () w') :
    ∃ rest container containers, ∃ b c : Buffer, w.phase = .running ∧
      w.expectations = .name :: rest ∧ mark.depth = rest.length + 1 ∧
      w.containers = container :: containers ∧
      w.buffer.size + 1 - mark.start < lengthBound ∧
      (w.buffer.append [endOfDocument]).patch container.header
        (lengthField (w.buffer.size + 1 - container.header)) = .ok b ∧
      b.patch mark.start (lengthField (w.buffer.size + 1 - mark.start)) = .ok c ∧
      w' = { w with expectations := rest, containers := containers, buffer := c } := by
  rw [run_eq_ok_iff, endScope] at h
  simp only [yields_tracked, yields_andThen, yields_get, yields_ite, yields_raise] at h
  split at h
  case isFalse => exact h.elim
  rename_i hd
  cases hend : (endContainer .document).run w with
  | error e v => rw [Yields, show endDocument.run w = _ from hend] at h; exact h.elim
  | ok x v =>
    rw [yields_iff_of_ok (show endDocument.run w = _ from hend)] at h
    obtain ⟨rest, container, containers, b, hr, he, hc, -, hb, rfl⟩ := endContainer_eq_ok hs hend
    simp only [hs, Bool.false_eq_true, if_false, yields_drainIfStreaming] at h
    have hsize := Buffer.size_of_patch hb
    rw [Buffer.size_append, List.length_singleton] at hsize
    cases hlen : (patchLength mark.start).run
        { w with expectations := rest, containers := containers, buffer := b } with
    | error e v => rw [Yields, hlen] at h; exact h.elim
    | ok x v =>
      obtain ⟨hl, c, hcp, rfl⟩ := patchLength_eq_ok hlen
      rw [yields_iff_of_ok hlen, if_neg (by simp [hs])] at h
      rw [hsize] at hl hcp
      refine ⟨rest, container, containers, b, c, hr, he, ?_, hc, hl, hb, hcp, ?_⟩
      · rw [← hd, he, List.length_cons]
      · exact h.2.symm

/-! ## Output -/

/-- A flush that goes well hands over everything. -/
theorem flushSink_eq_ok (h : flushSink.run w = .ok () w') :
    ∃ sink : Sink, sink.held = w.sink.held ++ w.buffer.held ∧
      w' = { w with sink, buffer := w.buffer.drained } := by
  have hy := run_eq_ok_iff.mp h
  rw [yields_flushSink, yields_drain] at hy
  cases ho : w.sink.handOver w.buffer.held with
  | mk result sink =>
    rw [ho] at hy
    cases result with
    | error fault => exact hy.elim
    | ok u =>
      dsimp only at hy
      split at hy
      · exact hy.elim
      · have hheld := Sink.handOver_of_ok ho
        exact ⟨sink.flush.2, hheld, hy.2.symm⟩

theorem flush_eq_ok (h : flush.run w = .ok () w') : flushSink.run w = .ok () w' := by
  have hy := run_eq_ok_iff.mp h
  simp only [flush, yields_tracked, yields_andThen, yields_get, yields_ite, yields_raise] at hy
  split at hy
  · exact hy.elim
  · exact run_eq_ok_iff.mpr (hy.mono (fun _ _ h => ⟨rfl, h.2⟩) fun _ _ h => h)

end Action

end BsonWriter
