import BsonWriter.Proofs.Output.Delivery
import BsonWriter.Proofs.Run.Consistent
import BsonWriter.Proofs.Run.Growth
import BsonWriter.Proofs.Tree.Basic
import BsonWriter.Proofs.Walk.Grammar

/-!
What a session answers to a call whose data can be written. Without an escape table
and with a sink that takes everything, the call goes well if the expectations admit
its token, and comes out of order if they do not; only the end of a container or of
a scope can fail otherwise, by a length that does not fit its field (`Answers`).
-/

namespace BsonWriter

/-- A running session without an escape table, whose sink takes everything. A type
byte that waits is still here, and unless the session streams, so is everything. -/
structure Writer.Ready (options : Options) (w : Writer) : Prop where
  consistent : w.Consistent
  configured : w.options = options
  running : w.phase = .running
  plain : w.escapes = none
  takes : w.sink.TakesAll
  whole : options.streaming = false → w.buffer.gone = 0
  waiting : ∀ start, w.slot = some start → w.buffer.gone ≤ start

namespace Writer.Ready

variable {options : Options} {w : Writer}

theorem start (options : Options) {sink : Sink} (hs : sink.TakesAll) (storage : Bytes) :
    (Writer.onStorage sink options storage).Ready options :=
  ⟨Writer.consistent_onStorage sink options storage, rfl, rfl, rfl, hs, fun _ => rfl, nofun⟩

/-- Nothing leaves, and what is here may change. -/
theorem withBuffer (h : w.Ready options) {b : Buffer} (hg : b.gone = w.buffer.gone)
    (hb : w.buffer.size ≤ b.size) : Writer.Ready options { w with buffer := b } :=
  ⟨h.consistent.withBuffer hb, h.configured, h.running, h.plain, h.takes,
    fun hs => hg.trans (h.whole hs), fun start hs => by rw [hg]; exact h.waiting start hs⟩

theorem append (h : w.Ready options) (bs : Bytes) :
    Writer.Ready options { w with buffer := w.buffer.append bs } :=
  h.withBuffer rfl (w.buffer.size_le_append bs)

/-- A container begins where no type byte waits. -/
theorem opened (h : w.Ready options) (hs : w.slot = none) (shape : Shape) :
    Writer.Ready options { w with
      buffer := w.buffer.append (lengthField 0)
      containers := .start w.buffer.size shape :: w.containers
      expectations := shape.expectation :: w.expectations } := by
  have hopen := Action.settled_openContainer shape w ⟨h.consistent, h.running, hs⟩
  rw [Action.yields_openContainer] at hopen
  exact ⟨hopen.consistent, h.configured, h.running, h.plain, h.takes, h.whole, h.waiting⟩

theorem depth (h : w.Ready options) : w.depth = w.expectations.length :=
  h.consistent.aligned.length_eq.symm

end Writer.Ready

/-- Whether a length did not fit its field. -/
def Error.isOverflow (e : Error) : Bool := match e.cause with
  | .lengthOverflow _ => true
  | _ => false

/-- A name without null characters is written in full. -/
theorem cstring_of_notMem {name : String} (h : '\x00' ∉ name.toList) :
    ∃ bs, Payload.cstring none name = ⟨bs, none⟩ := by
  simp [Payload.cstring, Payload.escaped, Payload.cstringVerbatim, h]

namespace Action

open Writer (Ready)

variable {α : Type} {options : Options} {w : Writer}

/-- The action ends well in a state with the given expectations; or there are none,
and the error says that it came out of order. Otherwise a length did not fit. -/
def Answers (a : Action α) (options : Options) (w : Writer) (next : Option (List Expectation)) :
    Prop :=
  a.Yields w (fun _ w' => w'.Ready options ∧ next = some w'.expectations)
    fun e _ => e.isOutOfOrder = true ∧ next = none ∨ e.isOverflow = true

/-- A type byte that has been taken can be filled, if there is one. -/
def Taken (slot : Option Nat) (w : Writer) : Prop :=
  ∀ start, slot = some start → w.buffer.gone ≤ start ∧ start < w.buffer.size

/-- A value takes a type byte exactly where the expectations admit it. -/
theorem ready_takePosition (h : w.Ready options) (kind : ValueKind) (activity : Activity) :
    (takePosition kind activity).Yields w
      (fun slot w' => w'.Ready options ∧ w'.slot = none ∧ Taken slot w' ∧
        (slot = none → w.expectations = []) ∧
        Expectation.admitValue kind activity w.expectations = .ok w'.expectations)
      (fun e _ => e.isOutOfOrder = true ∧
        ∃ violation, Expectation.admitValue kind activity w.expectations = .error violation) := by
  have hsettled := @settled_takePosition w h.consistent kind activity
  obtain ⟨hc, hoptions, hr, hp, ht, hwhole, hwaiting⟩ := h
  unfold takePosition at hsettled ⊢
  simp only [yields_tracked, yields_andThen, yields_checkRunning, hr, yields_advance,
    yields_get] at hsettled ⊢
  cases ha : Expectation.admitValue kind activity w.expectations with
  | error violation => exact ⟨rfl, violation, rfl⟩
  | ok expectations =>
    rw [ha] at hsettled
    dsimp only at hsettled ⊢
    cases hn : Container.nextElement w.containers with
    | none =>
      rw [hn] at hsettled
      refine ⟨⟨hsettled.consistent, hoptions, rfl, hp, ht, hwhole, fun start hs => by cases hs⟩,
        rfl, fun start hs => ⟨hwaiting start hs, hc.slot_lt start hs⟩, fun hs => ?_, rfl⟩
      cases he : w.expectations with
      | nil => rfl
      | cons e rest =>
        have haligned := hc.aligned
        rw [he] at ha haligned
        cases e with
        | name => cases ha
        | element => exact absurd hn (Container.nextElement_ne_none haligned)
        | value =>
          have hsome := (hc.waits hr).mpr ⟨rest, he⟩
          rw [hs] at hsome
          cases hsome
    | some next =>
      obtain ⟨index, containers⟩ := next
      rw [hn] at hsettled
      obtain ⟨bs, hbs⟩ := cstring_of_notMem (notMem_repr index)
      simp only [yields_andThen, yields_set, yields_reserve, yields_pure, hp, hbs]
        at hsettled ⊢
      have hslot : w.slot = none := hsettled.slotless
      refine ⟨⟨hsettled.consistent, hoptions, rfl, rfl, ht, hwhole, fun start hs => ?_⟩,
        hslot, fun start hs => ?_, fun hs => (by cases hs), trivial⟩
      · exact hwaiting start hs
      · cases hs
        refine ⟨w.buffer.gone_le_size, ?_⟩
        simp only [Buffer.size_append, List.length_cons]
        omega

/-- A type byte that is here can be filled, which moves nothing. -/
theorem yields_fill_of_taken {slot : Option Nat} (ht : Taken slot w) (type : ElementType)
    {Q : Unit → Writer → Prop} {E : Error → Writer → Prop}
    (h : ∀ b : Buffer, b.gone = w.buffer.gone → b.size = w.buffer.size →
      Q () { w with buffer := b }) : (fill slot type).Yields w Q E := by
  cases slot with
  | none => exact h w.buffer rfl rfl
  | some start =>
    obtain ⟨hg, hlt⟩ := ht start rfl
    obtain ⟨b, hb⟩ := @Buffer.patch_of_le w.buffer start [type.tag] hg hlt
    rw [fill, yields_patch, hb]
    exact h b (Buffer.gone_of_patch hb) (Buffer.size_of_patch hb)

/-- Between two values, where no type byte waits. -/
structure Between (options : Options) (es : List Expectation) (size : Nat) (w : Writer) : Prop where
  ready : w.Ready options
  slotless : w.slot = none
  expectations : w.expectations = es
  written : size ≤ w.buffer.size

/-- Everything may leave where no type byte waits. -/
theorem between_drainIfStreaming {es : List Expectation} {size : Nat}
    (h : Between options es size w) : drainIfStreaming.Yields w
      (fun _ => Between options es size) (fun _ _ => False) := by
  obtain ⟨h, hs, he, hsize⟩ := h
  rw [yields_drainIfStreaming]
  split
  · rename_i hstreaming
    obtain ⟨sink, hall, hok, -⟩ := Sink.handOver_of_takesAll h.takes w.buffer.held
    rw [yields_drain, hok]
    have hc := (h.consistent.withBuffer (b := w.buffer.drained)
      (Nat.le_of_eq (Buffer.size_discard ..).symm)).withSink sink
    refine ⟨⟨hc, h.configured, h.running, h.plain, hall, fun hk => ?_, fun start hw => ?_⟩, hs, he,
      by rwa [Buffer.size_discard]⟩
    · rw [h.configured, hk] at hstreaming
      cases hstreaming
    · rw [hs] at hw
      cases hw
  · exact ⟨h, hs, he, hsize⟩

/-- A length field that has been written is filled, unless the length does not fit. -/
theorem between_patchLength {es : List Expectation} {size start : Nat}
    (h : Between options es size w) (hk : options.streaming = false) (hstart : start + 4 ≤ size) :
    (patchLength start).Yields w (fun _ => Between options es size)
      (fun e _ => e.isOverflow = true) := by
  obtain ⟨h, hs, he, hsize⟩ := h
  rw [yields_patchLength]
  split
  · obtain ⟨b, hb⟩ := @Buffer.patch_of_le w.buffer start (lengthField (w.buffer.size - start))
      (by rw [h.whole hk]; omega) (Nat.le_trans hstart hsize)
    rw [hb]
    exact ⟨h.withBuffer (Buffer.gone_of_patch hb) (Nat.le_of_eq (Buffer.size_of_patch hb).symm),
      hs, he, by rwa [Buffer.size_of_patch hb]⟩
  · exact rfl

/-! ## Single calls -/

theorem answers_beginContainer (h : w.Ready options) (shape : Shape) :
    (beginContainer .direct shape).Answers options w
      (Token.next (.begins shape) w.expectations) := by
  rw [Answers, beginContainer, take, yields_andThen]
  refine (ready_takePosition h _ _).mono (fun slot u hu => ?_) fun e _ he => ?_
  · obtain ⟨hready, hs, htaken, -, hadmit⟩ := hu
    rw [yields_tracked, yields_andThen]
    refine yields_fill_of_taken htaken _ fun b hg hb => ?_
    have hv := hready.withBuffer hg (Nat.le_of_eq hb.symm)
    rw [yields_openContainer]
    exact ⟨hv.opened hs shape, by rw [Token.next, hadmit]; rfl⟩
  · obtain ⟨hout, violation, hadmit⟩ := he
    refine .inl ⟨hout, ?_⟩
    rw [Token.next, hadmit]
    rfl

theorem answers_fieldName (h : w.Ready options) {name : String} (hn : '\x00' ∉ name.toList) :
    (fieldName name).Answers options w (Token.next .name w.expectations) := by
  have hc := consistent_fieldName name w h.consistent
  obtain ⟨bs, hbs⟩ := cstring_of_notMem hn
  unfold Answers
  unfold fieldName at hc ⊢
  simp only [yields_tracked, yields_andThen, yields_checkRunning, h.running, yields_atKey,
    yields_advance, yields_reserve, yields_modify] at hc ⊢
  cases ha : Expectation.admitName w.expectations with
  | error violation => exact .inl ⟨rfl, by rw [Token.next, ha]; rfl⟩
  | ok expectations =>
    simp only [ha, h.plain, hbs] at hc ⊢
    refine ⟨⟨hc, h.configured, rfl, rfl, h.takes, h.whole, fun start hs => ?_⟩,
      by rw [Token.next, ha]; rfl⟩
    cases hs
    exact w.buffer.gone_le_size

/-- A scalar takes a type byte exactly where the expectations admit it. -/
theorem ready_takeScalar (h : w.Ready options) (activity : Activity) :
    (takePosition .scalar activity).Yields w
      (fun slot w' => w'.Ready options ∧ w'.slot = none ∧ Taken slot w' ∧ slot.isNone = false ∧
        Token.next .scalar w.expectations = some w'.expectations)
      (fun e _ => e.isOutOfOrder = true ∧ Token.next .scalar w.expectations = none) := by
  have hnext := Expectation.toOption_admitValue .scalar .value activity w.expectations
  refine (ready_takePosition h .scalar activity).mono (fun slot u hu => ?_) fun e _ he => ?_
  · obtain ⟨hready, hs, htaken, hnone, hadmit⟩ := hu
    refine ⟨hready, hs, htaken, ?_, by rw [Token.next, hnext, hadmit]; rfl⟩
    cases slot with
    | some start => rfl
    | none =>
      rw [hnone rfl] at hadmit
      cases hadmit
  · obtain ⟨hout, violation, hadmit⟩ := he
    exact ⟨hout, by rw [Token.next, hnext, hadmit]; rfl⟩

theorem yields_fillScalar_of_taken {slot : Option Nat} (ht : Taken slot w)
    (hsome : slot.isNone = false) (type : ElementType) {Q : Unit → Writer → Prop}
    {E : Error → Writer → Prop} (h : ∀ b : Buffer, b.gone = w.buffer.gone →
      b.size = w.buffer.size → Q () { w with buffer := b }) :
    (fillScalar slot type).Yields w Q E := by
  unfold fillScalar
  simp only [hsome, Bool.false_eq_true, if_false]
  exact yields_fill_of_taken ht type h

/-- A scalar whose payload can be written. -/
theorem answers_write (h : w.Ready options) {value : Scalar}
    (hp : ((value.primitive options).payload none).failure = none) :
    (write .direct value).Answers options w (Token.next .scalar w.expectations) := by
  rw [Answers, write, take, yields_andThen]
  refine (ready_takeScalar h _).mono (fun slot u hu => ?_) fun e _ he => .inl he
  obtain ⟨hready, hs, htaken, hsome, hnext⟩ := hu
  simp only [yields_tracked, yields_andThen, yields_get, hready.configured, hready.plain]
  refine yields_fillScalar_of_taken htaken hsome _ fun b hg hb => ?_
  have hv := hready.withBuffer hg (Nat.le_of_eq hb.symm)
  simp only [yields_emit, hp]
  exact (between_drainIfStreaming ⟨hv.append _, hs, rfl, Nat.zero_le _⟩).mono
    (fun _ v hw => ⟨hw.ready, by rw [hw.expectations]; exact hnext⟩) fun _ _ hf => hf.elim

/-- What follows an end marker: everything leaves, or the length field is filled. -/
theorem between_drainOrPatchLength {es : List Expectation} {size start : Nat}
    (h : Between options es size w) (hstart : start + 4 ≤ size) :
    (if w.options.streaming then drain else patchLength start).Yields w
      (fun _ => Between options es size) (fun e _ => e.isOverflow = true) := by
  have hoptions := h.ready.configured
  cases hk : options.streaming with
  | true =>
    have hd := between_drainIfStreaming h
    rw [yields_drainIfStreaming, hoptions, hk] at hd
    rw [hoptions, hk]
    exact hd.mono (fun _ _ hw => hw) fun _ _ hf => hf.elim
  | false =>
    rw [hoptions, hk]
    exact between_patchLength h hk hstart

/-- The end of a container, whose length field has been written. -/
theorem between_endContainer (h : w.Ready options) (shape : Shape) :
    (endContainer shape).Yields w
      (fun _ w' => ∃ es, Token.next (.ends shape) w.expectations = some es ∧
        Between options es w.buffer.size w')
      fun e _ => e.isOutOfOrder = true ∧ Token.next (.ends shape) w.expectations = none ∨
        e.isOverflow = true := by
  rw [endContainer_eq]
  simp only [yields_tracked, yields_andThen, yields_checkRunning, h.running, yields_advance,
    yields_closeContainer]
  cases hl : leave shape w.expectations with
  | error violation => exact .inl ⟨rfl, by rw [Token.next, hl]; rfl⟩
  | ok expectations =>
    obtain ⟨container, containers, hc⟩ := exists_container h.consistent hl
    have hsettled := settled_leave h.consistent h.running hl hc
    have hstart := h.consistent.written container (by rw [hc]; exact List.mem_cons_self)
    let u : Writer := { w with
      expectations, containers, buffer := w.buffer.append [endOfDocument] }
    have hu : u.Ready options := ⟨hsettled.consistent, h.configured, h.running, h.plain, h.takes,
      h.whole, h.waiting⟩
    have hend := between_drainOrPatchLength (w := u)
      ⟨hu, hsettled.slotless, rfl, w.buffer.size_le_append _⟩ hstart
    have hnext : Token.next (.ends shape) w.expectations = some expectations := by
      rw [Token.next, hl]
      rfl
    simp only [u, h.running, hc] at hend ⊢
    exact hend.mono (fun _ v hv => ⟨expectations, hnext, hv⟩) fun e _ he => .inr he

theorem answers_endContainer (h : w.Ready options) (shape : Shape) :
    (endContainer shape).Answers options w (Token.next (.ends shape) w.expectations) := by
  refine (between_endContainer h shape).mono (fun _ v hv => ?_) fun _ _ he => he
  obtain ⟨es, hnext, hv⟩ := hv
  exact ⟨hv.ready, by rw [hv.expectations]; exact hnext⟩

/-! ## Code with a scope -/

/-- A scope begins where a scalar may come, and its document expects names. -/
theorem ready_beginScope (h : w.Ready options) {code : String}
    (hp : (Payload.string none code).failure = none) :
    (beginScope .direct code).Yields w
      (fun mark w' => w'.Ready options ∧ mark.start + 4 ≤ w'.buffer.size ∧
        ∃ es, Token.next .scalar w.expectations = some es ∧ w'.expectations = .name :: es ∧
          mark.depth = es.length + 1)
      (fun e _ => e.isOutOfOrder = true ∧ Token.next .scalar w.expectations = none) := by
  rw [beginScope, take, yields_andThen]
  refine (ready_takeScalar h _).mono (fun slot u hu => ?_) fun e _ he => he
  obtain ⟨hready, hs, htaken, hsome, hnext⟩ := hu
  simp only [yields_tracked, yields_andThen]
  refine yields_fillScalar_of_taken htaken hsome _ fun b hg hb => ?_
  have hp : (Payload.string u.escapes code).failure = none := by
    rw [hready.plain]
    exact hp
  have hv := ((hready.withBuffer hg (Nat.le_of_eq hb.symm)).append (lengthField 0)).append
    (Payload.string u.escapes code).written
  simp only [yields_offset, yields_append, yields_get, yields_emit, hp, yields_openContainer,
    yields_pure]
  refine ⟨hv.opened hs .document, ?_, u.expectations, hnext, rfl, rfl⟩
  have hl : (lengthField 0).length = 4 := rfl
  simp only [Buffer.size_append, hl]
  omega

/-- A scope ends where its document ends. -/
theorem ready_endScope (h : w.Ready options) {mark : ScopeMark} {es : List Expectation}
    (he : w.expectations = .name :: es) (hd : mark.depth = es.length + 1)
    (hm : mark.start + 4 ≤ w.buffer.size) :
    (endScope mark).Yields w (fun _ w' => w'.Ready options ∧ w'.expectations = es)
      (fun e _ => e.isOverflow = true) := by
  have hlength : w.expectations.length = mark.depth := by rw [he, hd, List.length_cons]
  have hnext : Token.next (.ends .document) w.expectations = some es := by rw [he]; rfl
  unfold endScope
  simp only [yields_tracked, yields_andThen, yields_get, if_pos hlength]
  refine (between_endContainer h .document).mono (fun _ v hv => ?_) fun e _ hf => ?_
  · obtain ⟨es', hes, hv⟩ := hv
    obtain rfl : es' = es := Option.some.inj (hes.symm.trans hnext)
    rw [hv.ready.configured]
    cases hk : options.streaming with
    | true =>
      simp only [if_true]
      exact (between_drainIfStreaming hv).mono (fun _ u hu => ⟨hu.ready, hu.expectations⟩)
        fun _ _ hf => hf.elim
    | false =>
      simp only [Bool.false_eq_true, if_false, yields_andThen]
      refine (between_patchLength hv hk hm).mono (fun _ u hu => ?_) fun _ _ hf => hf
      exact (between_drainIfStreaming hu).mono (fun _ u hu => ⟨hu.ready, hu.expectations⟩)
        fun _ _ hf => hf.elim
  · rcases hf with ⟨-, hnone⟩ | hf
    · rw [hnext] at hnone
      cases hnone
    · exact hf

/-- Code with a scope is a scalar, if the scope writes the content of a document. -/
theorem answers_codeWithScope (h : w.Ready options) {code : String}
    (hp : (Payload.string none code).failure = none) {scope : Action Unit} (hi : scope.Issues)
    (hs : ∀ v es, Writer.Ready options v → v.expectations = .name :: es →
      scope.Answers options v (some (.name :: es))) :
    (codeWithScope .direct code scope).Answers options w (Token.next .scalar w.expectations) := by
  rw [Answers, codeWithScope, yields_andThen]
  refine (ready_beginScope h hp).mono (fun mark v hv => ?_) fun e _ he => .inl he
  obtain ⟨hready, hstart, es, hnext, he, hd⟩ := hv
  have hscope := (hs v es hready he).and (hi.reaches v (Nat.le_refl _))
  simp only [yields_andThen, yields_tracked]
  refine hscope.mono (fun _ u hu => ?_) fun e _ hf => ?_
  · obtain ⟨⟨hu, hes⟩, hle⟩ := hu
    refine (ready_endScope hu (Option.some.inj hes).symm hd (Nat.le_trans hstart hle)).mono
      (fun _ x hx => ⟨hx.1, by rw [hx.2]; exact hnext⟩) fun _ _ hf => .inr hf
  · rcases hf with ⟨⟨-, hnone⟩ | hf, -⟩
    · cases hnone
    · exact .inr hf

end Action

end BsonWriter
