import BsonWriter.Proofs.Datum.Closure
import BsonWriter.Proofs.Number.Text
import BsonWriter.Proofs.Run.Consistent
import BsonWriter.Proofs.Run.Inversion

/-!
Where in a session something is written. A fragment is what a session has written and opened
since some point, with its offsets from there, so that it can stand in any session
(`Fragment.within`). As long as one of its own containers is open, a fragment hides everything
before it: a name, a value, a beginning and an end do the same to it in every session, or
fail in every session (`Uniform`).
-/

namespace BsonWriter

open BsonWriter.Action

/-- The same container behind `n` more bytes. -/
def Container.shift (n : Nat) (c : Container) : Container := { c with header := n + c.header }

@[simp] theorem Container.header_shift (n : Nat) (c : Container) :
    (c.shift n).header = n + c.header := rfl

theorem Container.start_add (n header : Nat) (shape : Shape) :
    start (n + header) shape = (start header shape).shift n := by
  cases shape <;> rfl

/-- What a session has written since some point, and the containers and the type byte that
have come since and are open. Offsets count from that point. -/
structure Fragment where
  bytes : Bytes
  expectations : List Expectation
  containers : List Container
  slot : Option Nat

/-- A session that runs, keeps its output and replaces no characters. -/
structure Writer.Hosts (host : Writer) : Prop where
  running : host.phase = .running
  keeps : host.options.streaming = false
  escapes : host.escapes = none

namespace Fragment

/-- The session when the fragment has come behind its output and inside of its containers. -/
def within (f : Fragment) (host : Writer) : Writer := { host with
  buffer := host.buffer.append f.bytes
  expectations := f.expectations ++ host.expectations
  containers := f.containers.map (Container.shift host.buffer.size) ++ host.containers
  slot := f.slot.map (host.buffer.size + ·) }

/-- The beginning of a document. -/
def document : Fragment := ⟨lengthField 0, [.name], [⟨0, none⟩], none⟩

/-- A fragment of `depth` open containers. A type byte waits in it only if a value is
expected. -/
structure Nested (f : Fragment) (depth : Nat) : Prop where
  aligned : List.Forall₂ Container.Expects f.expectations f.containers
  count : f.containers.length = depth
  waits : ∀ start, f.slot = some start → ∃ rest, f.expectations = .value :: rest

variable {f : Fragment} {host : Writer} {n : Nat}

@[simp] theorem options_within : (f.within host).options = host.options := rfl

@[simp] theorem escapes_within : (f.within host).escapes = host.escapes := rfl

@[simp] theorem buffer_within : (f.within host).buffer = host.buffer.append f.bytes := rfl

@[simp] theorem expectations_within :
    (f.within host).expectations = f.expectations ++ host.expectations := rfl

@[simp] theorem containers_within : (f.within host).containers =
    f.containers.map (Container.shift host.buffer.size) ++ host.containers := rfl

theorem nested_document : document.Nested 1 where
  aligned := .cons (Container.expects_start 0 .document) .nil
  count := rfl
  waits := by simp [document]

/-- A document begins in a session. -/
theorem document_within (hs : host.slot = none) :
    document.within host = host.opened .document := by
  simp [document, within, Writer.opened, Container.start, Container.shift, Shape.expectation, hs]

/-- A fragment in which nothing is open is bytes only. -/
theorem Nested.within_eq_put (h : f.Nested 0) (hs : host.slot = none) :
    f.within host = host.put f.bytes := by
  obtain ⟨bytes, expectations, containers, slot⟩ := f
  obtain ⟨haligned, hcount, hwaits⟩ := h
  obtain rfl : containers = [] := List.eq_nil_of_length_eq_zero hcount
  obtain rfl : expectations = [] := List.forall₂_nil_right_iff.mp haligned
  cases slot with
  | none => simp [within, Writer.put, hs]
  | some start =>
    obtain ⟨rest, he⟩ := hwaits start rfl
    cases he

theorem Nested.withBytes (h : f.Nested n) (bytes : Bytes) : Nested { f with bytes } n :=
  ⟨h.aligned, h.count, h.waits⟩

/-- The length of a container does not depend on what is before it. -/
theorem length_within (c : Container) :
    (f.within host).buffer.size + 1 - (c.shift host.buffer.size).header =
      f.bytes.length + 1 - c.header := by
  rw [buffer_within, Buffer.size_append, Container.header_shift, Nat.add_assoc,
    Nat.add_sub_add_left]

/-- A length field in the fragment is still here. -/
theorem patch_length_eq_ok_iff {c : Container} {b : Buffer} :
    ((f.within host).buffer.append [endOfDocument]).patch (c.shift host.buffer.size).header
        (lengthField (f.bytes.length + 1 - c.header)) = .ok b ↔
      c.header + 4 ≤ f.bytes.length + 1 ∧
        b = host.buffer.append (Buffer.overwrite (f.bytes ++ [endOfDocument]) c.header
          (lengthField (f.bytes.length + 1 - c.header))) := by
  rw [buffer_within, Buffer.append_append, Container.header_shift, Buffer.patch_append_eq_ok_iff,
    length_lengthField, List.length_append, List.length_singleton]

/-- In an open container something is expected. -/
theorem Nested.exists_cons (h : f.Nested (n + 1)) : ∃ e rest c outer,
    f.expectations = e :: rest ∧ f.containers = c :: outer ∧ Container.Expects e c ∧
      List.Forall₂ Container.Expects rest outer ∧ outer.length = n := by
  have hcount := h.count
  have haligned := h.aligned
  cases hc : f.containers with
  | nil =>
    rw [hc] at hcount
    cases hcount
  | cons c outer =>
    rw [hc] at haligned hcount
    obtain ⟨e, rest, hexpects, hrest, he⟩ := List.forall₂_cons_right_iff.mp haligned
    exact ⟨e, rest, c, outer, he, rfl, hexpects, hrest, Nat.succ.inj hcount⟩

theorem Nested.slot_eq_none (h : f.Nested n) {e : Expectation} {rest : List Expectation}
    (he : f.expectations = e :: rest) (hv : e ≠ .value) : f.slot = none := by
  cases hs : f.slot with
  | none => rfl
  | some start =>
    obtain ⟨outer, hvalue⟩ := h.waits start hs
    rw [he] at hvalue
    cases hvalue
    exact absurd rfl hv

end Fragment

namespace Action

variable {α β : Type} {f : Fragment} {n : Nat}

/-- The action may know its session, but does the same to the fragment in all of them, or
fails in all of them. -/
def Uniform (a : Writer → Action α) (f : Fragment) (Q : (Writer → α) → Fragment → Prop) : Prop :=
  (∃ x g, Q x g ∧ ∀ host : Writer, host.Hosts →
    (a host).run (f.within host) = .ok (x host) (g.within host)) ∨
  ∀ host : Writer, host.Hosts → ∃ e w, (a host).run (f.within host) = .error e w

theorem exists_error {a : Action α} {w : Writer} (h : ∀ x w', a.run w ≠ .ok x w') :
    ∃ e w', a.run w = .error e w' := by
  cases hr : a.run w with
  | ok x w' => exact absurd hr (h x w')
  | error e w' => exact ⟨e, w', rfl⟩

namespace Uniform

variable {Q : (Writer → α) → Fragment → Prop}

theorem mono {a : Writer → Action α} (h : Uniform a f Q)
    {Q' : (Writer → α) → Fragment → Prop} (hq : ∀ x g, Q x g → Q' x g) : Uniform a f Q' := by
  rcases h with ⟨x, g, hg, hrun⟩ | herror
  · exact .inl ⟨x, g, hq x g hg, hrun⟩
  · exact .inr herror

theorem andThen {a : Writer → Action β} {b : Writer → β → Action α}
    (h : Uniform a f fun y g => Uniform (fun host => b host (y host)) g Q) :
    Uniform (fun host => a host >>= b host) f Q := by
  rcases h with ⟨y, g, ⟨x, k, hk, hb⟩ | hb, ha⟩ | ha
  · left
    use x, k, hk
    intro host hh
    rw [run_andThen, ha host hh]
    exact hb host hh
  · right
    intro host hh
    rw [run_andThen, ha host hh]
    exact hb host hh
  · right
    intro host hh
    obtain ⟨e, w, he⟩ := ha host hh
    use e, w
    rw [run_andThen, he]

theorem tracked {a : Writer → Action α} (h : Uniform a f Q) :
    Uniform (fun host => Action.tracked (a host)) f Q := by
  rcases h with ⟨x, g, hg, hrun⟩ | herror
  · left
    use x, g, hg
    intro host hh
    rw [run_tracked, hrun host hh]
  · right
    intro host hh
    obtain ⟨e, w, he⟩ := herror host hh
    use e, w.fail
    rw [run_tracked, he]

end Uniform

theorem uniform_pure {Q : (Writer → α) → Fragment → Prop} {x : Writer → α} (h : Q x f) :
    Uniform (fun host => pure (x host)) f Q := .inl ⟨x, f, h, fun _ _ => rfl⟩

theorem uniform_raise {Q : (Writer → α) → Fragment → Prop} (cause : Cause) :
    Uniform (fun _ => raise cause) f Q := .inr fun _ _ => ⟨_, _, rfl⟩

/-! ## Names and type bytes -/

theorem uniform_fieldName (hf : f.Nested (n + 1)) (name : String) :
    Uniform (fun _ => fieldName name) f fun _ g => g.Nested (n + 1) := by
  obtain ⟨e, rest, c, outer, he, hc, hexpects, hrest, hcount⟩ := hf.exists_cons
  by_cases hname : e = .name ∧ '\x00' ∉ name.toList
  · obtain ⟨rfl, hn⟩ := hname
    left
    use fun _ => (), ⟨f.bytes ++ 0 :: terminated name, .value :: rest, f.containers,
      some f.bytes.length⟩
    constructor
    · constructor
      · rw [hc]
        exact Container.expects_other (.cons hexpects hrest) (by simp) (by simp)
      · exact hf.count
      · exact fun _ _ => ⟨rest, rfl⟩
    · intro host hh
      have hexpects : (f.within host).expectations = .name :: (rest ++ host.expectations) := by
        simp [he]
      have hkey : writtenName (f.within host).escapes name = some name := by
        rw [Fragment.escapes_within, hh.escapes]
        exact writtenName_plain hn
      rw [run_fieldName (w := f.within host) hh.running hexpects hkey]
      simp [Fragment.within]
  · right
    intro host hh
    apply exists_error
    intro _ w' hrun
    apply hname
    obtain ⟨rest', key, hexpects, hkey⟩ := fieldName_eq_ok (w := f.within host) hh.running hrun
    rw [Fragment.expectations_within, he] at hexpects
    rw [Fragment.escapes_within, hh.escapes] at hkey
    obtain rfl : name = key := Option.some.inj (Option.filter_eq_some_iff.mp hkey).1
    exact ⟨(List.cons.inj hexpects).1, notMem_of_writtenName hkey⟩

/-- A value takes the type byte that waits, or in an array one of its own. -/
theorem uniform_takePosition (hf : f.Nested (n + 1)) (kind : ValueKind) (activity : Activity) :
    Uniform (fun _ => takePosition kind activity) f fun x g =>
      g.Nested (n + 1) ∧ g.slot = none ∧ ∃ slot : Option Nat,
        x = fun host => slot.map (host.buffer.size + ·) := by
  obtain ⟨e, rest, c, outer, he, hc, hexpects, hrest, hcount⟩ := hf.exists_cons
  have haligned : List.Forall₂ Container.Expects (e :: rest) (c :: outer) := .cons hexpects hrest
  cases e with
  | name =>
    right
    intro host hh
    apply exists_error
    intro slot w' hrun
    obtain ⟨expectations, hadmit, -⟩ :=
      takePosition_eq_ok (w := f.within host) hh.running hrun
    rw [Fragment.expectations_within, he] at hadmit
    cases hadmit
  | value =>
    left
    use fun host => f.slot.map (host.buffer.size + ·), ⟨f.bytes, .name :: rest, f.containers, none⟩
    constructor
    · refine ⟨⟨?_, hf.count, by simp⟩, rfl, f.slot, rfl⟩
      rw [hc]
      exact Container.expects_other haligned (by simp) (by simp)
    · intro host hh
      have hnext : Container.nextElement (f.within host).containers = none := by
        rw [Fragment.containers_within, hc]
        exact @Container.nextElement_of_expects _ (c.shift host.buffer.size) _ hexpects (by simp)
      have hadmit : Expectation.admitValue kind activity (f.within host).expectations =
          .ok (.name :: rest ++ host.expectations) := by
        rw [Fragment.expectations_within, he]
        rfl
      exact run_takePosition_waiting hh.running hadmit hnext
  | element =>
    obtain ⟨header, nextIndex⟩ := c
    obtain ⟨index, rfl⟩ := Option.isSome_iff_exists.mp (hexpects.mp rfl)
    have hslot := hf.slot_eq_none he (by simp)
    left
    use fun host => some (host.buffer.size + f.bytes.length),
      ⟨f.bytes ++ 0 :: terminated index.repr, .element :: rest,
        ⟨header, some (index + 1)⟩ :: outer, none⟩
    constructor
    · refine ⟨⟨?_, by simp [hcount], by simp⟩, rfl, some f.bytes.length, rfl⟩
      exact .cons ⟨fun _ => rfl, fun _ => rfl⟩ hrest
    · intro host hh
      have hnext : Container.nextElement (f.within host).containers = some (index,
          ⟨host.buffer.size + header, some (index + 1)⟩ ::
            (outer.map (Container.shift host.buffer.size) ++ host.containers)) := by
        rw [Fragment.containers_within, hc]
        rfl
      have hadmit : Expectation.admitValue kind activity (f.within host).expectations =
          .ok (f.within host).expectations := by
        rw [Fragment.expectations_within, he]
        rfl
      have hkey : writtenName (f.within host).escapes index.repr = some index.repr := by
        rw [Fragment.escapes_within, hh.escapes]
        exact writtenName_plain (notMem_repr index)
      rw [run_takePosition_element (w := f.within host) hh.running hadmit hnext hkey]
      simp [Fragment.within, Container.shift, he, hslot]

/-! ## What a value is made of -/

/-- The fragment with more bytes. -/
theorem uniform_append {Q : (Writer → PUnit) → Fragment → Prop} (bs : Bytes)
    (h : Q (fun _ => ⟨⟩) { f with bytes := f.bytes ++ bs }) :
    Uniform (fun _ => append bs) f Q := by
  left
  use fun _ => ⟨⟩, { f with bytes := f.bytes ++ bs }, h
  intro host _
  rw [run_eq_ok_iff, yields_append]
  simp [Fragment.within]

theorem uniform_emit {Q : (Writer → Unit) → Fragment → Prop} (p : Payload)
    (h : Q (fun _ => ()) { f with bytes := f.bytes ++ p.written }) :
    Uniform (fun _ => emit p) f Q := by
  refine Uniform.andThen (uniform_append p.written ?_)
  cases p.failure with
  | none => exact uniform_pure h
  | some cause => exact uniform_raise cause

/-- Overwriting reaches the bytes of the fragment, and fails if it reaches past their end. -/
theorem uniform_patch {Q : (Writer → Unit) → Fragment → Prop} (start : Nat) (bs : Bytes)
    (h : Q (fun _ => ()) { f with bytes := Buffer.overwrite f.bytes start bs }) :
    Uniform (fun host => patch (host.buffer.size + start) bs) f Q := by
  by_cases hle : start + bs.length ≤ f.bytes.length
  · left
    use fun _ => (), { f with bytes := Buffer.overwrite f.bytes start bs }, h
    intro host _
    rw [run_eq_ok_iff, yields_patch, Fragment.buffer_within,
      Buffer.patch_append_eq_ok_iff.mpr ⟨hle, rfl⟩]
    exact ⟨rfl, rfl⟩
  · right
    intro host _
    apply exists_error
    intro _ w' hrun
    rw [run_eq_ok_iff, yields_patch, Fragment.buffer_within] at hrun
    cases hp : (host.buffer.append f.bytes).patch (host.buffer.size + start) bs with
    | ok b => exact hle (Buffer.patch_append_eq_ok_iff.mp hp).1
    | error cause => simp [hp] at hrun

/-- Where a type byte is, may depend on what is before the fragment. -/
theorem uniform_fill {Q : (Writer → Unit) → Fragment → Prop} (slot : Option Nat)
    (type : ElementType) (h : ∀ bytes, Q (fun _ => ()) { f with bytes }) :
    Uniform (fun host => fill (slot.map (host.buffer.size + ·)) type) f Q := by
  cases slot with
  | none => exact uniform_pure (h f.bytes)
  | some start => exact uniform_patch start _ (h _)

theorem uniform_fillScalar {Q : (Writer → Unit) → Fragment → Prop} (slot : Option Nat)
    (type : ElementType) (h : ∀ bytes, Q (fun _ => ()) { f with bytes }) :
    Uniform (fun host => fillScalar (slot.map (host.buffer.size + ·)) type) f Q := by
  cases slot with
  | none => exact uniform_raise _
  | some start => exact uniform_fill (some start) type h

theorem uniform_drainIfStreaming {Q : (Writer → Unit) → Fragment → Prop}
    (h : Q (fun _ => ()) f) : Uniform (fun _ => drainIfStreaming) f Q := by
  left
  use fun _ => (), f, h
  intro host hh
  rw [run_eq_ok_iff]
  simp [hh.keeps]

/-- What is read of the session may depend on what is before the fragment. -/
theorem uniform_get {Q : (Writer → α) → Fragment → Prop} {a : Writer → Writer → Action α}
    {b : Writer → Action α} (ha : ∀ host : Writer, host.Hosts → a host (f.within host) = b host)
    (h : Uniform b f Q) : Uniform (fun host => get >>= a host) f Q := by
  have hrun : ∀ host : Writer, host.Hosts →
      (get >>= a host : Action α).run (f.within host) = (b host).run (f.within host) := by
    intro host hh
    rw [← ha host hh]
    rfl
  rcases h with ⟨x, g, hg, hb⟩ | hb
  · left
    use x, g, hg
    intro host hh
    rw [hrun host hh, hb host hh]
  · right
    intro host hh
    rw [hrun host hh]
    exact hb host hh

/-! ## Calls -/

theorem uniform_writeTo {Q : (Writer → Unit) → Fragment → Prop} {value : Scalar}
    (hv : value.Fixed) (slot : Option Nat) (h : ∀ bytes, Q (fun _ => ()) { f with bytes }) :
    Uniform (fun host => writeTo value (slot.map (host.buffer.size + ·))) f Q := by
  have hwrite : Uniform (fun host => do
      fillScalar (slot.map (host.buffer.size + ·)) (value.primitive {}).type
      emit ((value.primitive {}).payload none)
      drainIfStreaming) f Q := by
    apply Uniform.andThen
    apply uniform_fillScalar
    intro bytes
    apply Uniform.andThen
    apply uniform_emit
    exact uniform_drainIfStreaming (h _)
  apply Uniform.tracked
  apply uniform_get _ hwrite
  intro host hh
  dsimp only
  rw [Fragment.options_within, Fragment.escapes_within, hv host.options, hh.escapes]

theorem uniform_write {value : Scalar} (hv : value.Fixed) (hf : f.Nested (n + 1)) :
    Uniform (fun _ => write .direct value) f fun _ g => g.Nested (n + 1) := by
  apply Uniform.andThen (b := fun _ => writeTo value)
  apply (uniform_takePosition hf _ _).mono
  rintro _ g ⟨hg, -, slot, rfl⟩
  exact uniform_writeTo hv slot fun bytes => hg.withBytes bytes

theorem uniform_openAt (hf : f.Nested n) (hs : f.slot = none) (slot : Option Nat) (shape : Shape) :
    Uniform (fun host => openAt shape (slot.map (host.buffer.size + ·))) f
      fun _ g => g.Nested (n + 1) := by
  apply Uniform.tracked
  apply Uniform.andThen
  apply uniform_fill
  intro bytes
  left
  use fun _ => ⟨⟩, ⟨bytes ++ lengthField 0, shape.expectation :: f.expectations,
    .start bytes.length shape :: f.containers, none⟩
  constructor
  · constructor
    · exact .cons (Container.expects_start _ shape) hf.aligned
    · simp [hf.count]
    · simp
  · intro host _
    rw [run_eq_ok_iff, yields_openContainer]
    simp [Fragment.within, hs, Container.start_add]

/-- A container begins in the fragment. -/
theorem uniform_beginContainer (hf : f.Nested (n + 1)) (shape : Shape) :
    Uniform (fun _ => beginContainer .direct shape) f fun _ g => g.Nested (n + 2) := by
  apply Uniform.andThen (b := fun _ => openAt shape)
  apply (uniform_takePosition hf _ _).mono
  rintro _ g ⟨hg, hslot, slot, rfl⟩
  exact uniform_openAt hg hslot slot shape

/-- The innermost container of the fragment ends. -/
theorem uniform_endContainer (hf : f.Nested (n + 1)) (shape : Shape) :
    Uniform (fun _ => endContainer shape) f fun _ g => g.Nested n := by
  obtain ⟨e, rest, c, outer, he, hc, -, hrest, hcount⟩ := hf.exists_cons
  have hcontainers : ∀ host : Writer, (f.within host).containers = c.shift host.buffer.size ::
      (outer.map (Container.shift host.buffer.size) ++ host.containers) := by
    intro host
    rw [Fragment.containers_within, hc]
    rfl
  -- All three conditions of an end read the fragment alone.
  by_cases hends : e = shape.expectation ∧ f.bytes.length + 1 - c.header < lengthBound ∧
      c.header + 4 ≤ f.bytes.length + 1
  · obtain ⟨rfl, hlength, hheader⟩ := hends
    have hslot : f.slot = none := hf.slot_eq_none he (by cases shape <;> simp [Shape.expectation])
    left
    use fun _ => (), ⟨Buffer.overwrite (f.bytes ++ [endOfDocument]) c.header
      (lengthField (f.bytes.length + 1 - c.header)), rest, outer, none⟩
    constructor
    · exact ⟨hrest, hcount, by simp⟩
    · intro host hh
      have hexpects : (f.within host).expectations =
          shape.expectation :: (rest ++ host.expectations) := by
        rw [Fragment.expectations_within, he]
        rfl
      have hpatch := (@Fragment.patch_length_eq_ok_iff f host c _).mpr ⟨hheader, rfl⟩
      rw [run_endContainer_of_patch (w := f.within host) hh.running hh.keeps hexpects
        (hcontainers host) (by rw [Fragment.length_within]; exact hlength)
        (by rw [Fragment.length_within]; exact hpatch)]
      simp [Fragment.within, hslot]
  · right
    intro host hh
    apply exists_error
    intro _ w' hrun
    apply hends
    obtain ⟨rest', container, containers, b, -, hexpects, hcs, hlength, hpatch, -⟩ :=
      endContainer_eq_ok (w := f.within host) hh.keeps hrun
    obtain ⟨rfl, -⟩ := List.cons.inj ((hcontainers host).symm.trans hcs)
    rw [Fragment.expectations_within, he] at hexpects
    rw [Fragment.length_within] at hlength hpatch
    exact ⟨(List.cons.inj hexpects).1, hlength, (Fragment.patch_length_eq_ok_iff.mp hpatch).1⟩

end Action

end BsonWriter
