import BsonWriter.Proofs.Closing.Draft
import BsonWriter.Proofs.Run.Consistent
import BsonWriter.Proofs.Run.Inversion
import BsonWriter.Proofs.Tree.Reading

/-!
A session that keeps its output writes a draft. Between two values it has the draft and
nothing else (`Draft.Rests`), after a field name that name as well (`Draft.Waits`). A
value becomes one more field, a container one more frame, and the end of a container
turns its frame into a field of the frame around it.
-/

namespace BsonWriter

open BsonWriter.Action
open WireValue (content element encodings ReadableFields)

namespace Draft

variable {d : Draft} {w w' : Writer}

/-- The session has the draft here, and some bytes after it. -/
structure Describes (d : Draft) (tail : Bytes) (w : Writer) : Prop where
  keeps : w.options.streaming = false
  closes : w.options.autoClose = true
  running : w.phase = .running
  sink : w.sink.held = d.delivered
  buffer : w.buffer = d.buffer.append tail
  headers : w.containers.map Container.header = headers d.base d.frames

/-- The session is between two values. -/
structure Rests (d : Draft) (w : Writer) : Prop extends d.Describes [] w where
  expects : w.expectations = d.expectations
  slotless : w.slot = none

/-- The session has a name after the draft, and its type byte waits for a value. -/
structure Waits (d : Draft) (key : String) (w : Writer) : Prop
    extends d.Describes (0 :: terminated key) w where
  expects : ∃ rest, d.expectations = .name :: rest ∧ w.expectations = .value :: rest
  slot : w.slot = some d.buffer.size

/-- The session has a name with its type after the draft. -/
structure Takes (d : Draft) (key : String) (type : ElementType) (w : Writer) : Prop
    extends d.Describes (type.tag :: terminated key) w where
  expects : w.expectations = d.expectations
  slotless : w.slot = none

/-- The session writes the draft: it is between two values, or after a field name. -/
def Stands (d : Draft) (w : Writer) : Prop :=
  d.Rests w ∨ ∃ key, '\x00' ∉ key.toList ∧ d.Waits key w

namespace Describes

variable {tail : Bytes}

theorem length_containers (h : d.Describes tail w) : w.containers.length = d.frames.length := by
  have hl := congrArg List.length h.headers
  rwa [List.length_map, length_headers] at hl

theorem frames_eq_nil (h : d.Describes tail w) (hc : w.containers = []) : d.frames = [] := by
  have hl := h.length_containers
  rw [hc] at hl
  exact List.eq_nil_of_length_eq_zero hl.symm

/-- A field that stands after the draft is a field of the draft. -/
theorem put {key : String} {v : WireValue} (h : d.Describes (element key v) w)
    (hf : d.frames ≠ []) : (d.put key v).Describes [] w := by
  refine ⟨h.keeps, h.closes, h.running, h.sink.trans (delivered_put key v).symm, ?_, ?_⟩
  · rw [buffer_put hf, Buffer.append_nil]
    exact h.buffer
  · rw [headers_base_put hf]
    exact h.headers

/-- A container that begins after what leads to it is a frame of the draft. -/
theorem push {f : Frame} (h : d.Describes f.lead w) (hf : f.fields = []) :
    (d.push f).Describes [] (w.opened f.shape) := by
  have hbuffer : (d.push f).buffer = w.buffer.append (lengthField 0) := by
    rw [h.buffer, Buffer.append_append]
    simp only [Draft.buffer, Draft.push, layout, hf, content, List.append_nil, Buffer.append,
      List.append_assoc]
  have hsize : w.buffer.size = d.base + (layout d.frames).length + f.lead.length := by
    simp only [h.buffer, Draft.buffer, Draft.base, Buffer.size, Buffer.append, List.length_append]
    omega
  refine ⟨h.keeps, h.closes, h.running, h.sink, ?_, ?_⟩
  · rw [hbuffer, Buffer.append_nil]
    rfl
  · rw [Writer.opened, List.map_cons, Container.header_start, h.headers, hsize]
    rfl

end Describes

/-! ## Names and type bytes -/

theorem Stands.waits {name : String} (h : d.Stands w)
    (hrun : (fieldName name).run w = .ok () w') :
    ∃ key, '\x00' ∉ key.toList ∧ d.Waits key w' := by
  rcases h with h | ⟨other, -, h⟩
  · obtain ⟨rest, key, he, hkey⟩ := fieldName_eq_ok h.running hrun
    rw [run_fieldName h.running he hkey] at hrun
    cases hrun
    have hbuffer : w.buffer = d.buffer := by rw [h.buffer, Buffer.append_nil]
    refine ⟨key, notMem_of_writtenName hkey, ⟨h.keeps, h.closes, h.running, h.sink, ?_, h.headers⟩,
      ⟨rest, by rw [← h.expects, he], rfl⟩, ?_⟩
    · rw [hbuffer]
    · rw [hbuffer]
  · obtain ⟨rest, key, he, -⟩ := fieldName_eq_ok h.running hrun
    obtain ⟨rest', -, he'⟩ := h.expects
    rw [he] at he'
    cases he'

/-- What is known when a value has taken its position: it is a container outside of all
others, or its type byte waits after the draft. -/
inductive Positioned (d : Draft) (u : Writer) : Option Nat → Prop
  | outside (frames : d.frames = []) (rests : d.Rests u) : Positioned d u none
  | inside (start : Nat) (key : String) (frames : d.frames ≠ []) (readable : '\x00' ∉ key.toList)
    (filled : ∀ type : ElementType, ∃ b, u.buffer.patch start [type.tag] = .ok b ∧
      d.Takes key type { u with buffer := b }) : Positioned d u (some start)

/-- A type byte after the draft can be filled. -/
theorem Describes.takes {key : String} {start : Nat} (h : d.Describes (0 :: terminated key) w)
    (hs : start = d.buffer.size) (he : w.expectations = d.expectations) (hslot : w.slot = none)
    (type : ElementType) : ∃ b, w.buffer.patch start [type.tag] = .ok b ∧
      d.Takes key type { w with buffer := b } := by
  have hp : w.buffer.patch start [type.tag] =
      .ok (d.buffer.append (type.tag :: terminated key)) := by
    rw [h.buffer, hs]
    exact @Buffer.patch_append d.buffer [0] [type.tag] rfl (terminated key)
  exact ⟨_, hp, ⟨h.keeps, h.closes, h.running, h.sink, rfl, h.headers⟩, he, hslot⟩

theorem Rests.positioned {kind : ValueKind} {activity : Activity} {slot : Option Nat} {u : Writer}
    (h : d.Rests w) (hc : w.Consistent)
    (hrun : (takePosition kind activity).run w = .ok slot u) : d.Positioned u slot := by
  obtain ⟨expectations, ha, hcase⟩ := takePosition_eq_ok h.running hrun
  have he := h.expects
  have haligned := hc.aligned
  cases hf : d.frames with
  | nil =>
    have hcontainers : w.containers = [] := by
      apply List.eq_nil_of_length_eq_zero
      rw [h.length_containers, hf, List.length_nil]
    have hexpect : d.expectations = [] := by rw [Draft.expectations, hf]; rfl
    rw [he, hexpect] at ha
    have hadmit : expectations = [] := by
      cases kind with
      | container => cases ha; rfl
      | scalar => cases ha
    rcases hcase with ⟨-, rfl, rfl⟩ | ⟨index, containers, key, hn, -⟩
    · rw [h.slotless]
      refine .outside hf ⟨⟨h.keeps, h.closes, h.running, h.sink, h.buffer, h.headers⟩, ?_, rfl⟩
      rw [hexpect, ← hadmit]
    · rw [hcontainers] at hn
      cases hn
  | cons f outer =>
    have hexpect : d.expectations =
        f.shape.expectation :: outer.map fun f => f.shape.expectation := by
      rw [Draft.expectations, hf]
      rfl
    rw [he, hexpect] at ha haligned
    cases hshape : f.shape with
    | document =>
      rw [hshape] at ha
      cases ha
    | array =>
      rw [hshape] at ha haligned
      have hadmit : expectations = d.expectations := by
        rw [hexpect, hshape]
        exact (Except.ok.inj ha).symm
      rcases hcase with ⟨hn, -⟩ | ⟨index, containers, key, hn, hkey, rfl, rfl⟩
      · exact absurd hn (Container.nextElement_ne_none haligned)
      · have hbuffer : w.buffer = d.buffer := by rw [h.buffer, Buffer.append_nil]
        have hframes : d.frames ≠ [] := by rw [hf]; exact List.cons_ne_nil _ _
        refine .inside _ key hframes (notMem_of_writtenName hkey) ?_
        refine Describes.takes ⟨h.keeps, h.closes, h.running, h.sink, ?_, ?_⟩ ?_ hadmit h.slotless
        · rw [hbuffer]
        · rw [← h.headers]
          exact Container.header_nextElement hn
        · rw [hbuffer]

theorem Waits.positioned {kind : ValueKind} {activity : Activity} {slot : Option Nat} {u : Writer}
    {key : String} (h : d.Waits key w) (hk : '\x00' ∉ key.toList) (hc : w.Consistent)
    (hrun : (takePosition kind activity).run w = .ok slot u) : d.Positioned u slot := by
  obtain ⟨expectations, ha, hcase⟩ := takePosition_eq_ok h.running hrun
  obtain ⟨rest, hexpect, he⟩ := h.expects
  have haligned := hc.aligned
  rw [he] at ha haligned
  have hadmit : expectations = d.expectations := by
    rw [hexpect]
    exact (Except.ok.inj ha).symm
  have hframes : d.frames ≠ [] := by
    intro hf
    rw [Draft.expectations, hf] at hexpect
    cases hexpect
  obtain ⟨container, containers, hexpects, -, hcontainers⟩ := List.forall₂_cons_left_iff.mp haligned
  have hn : Container.nextElement w.containers = none := by
    rw [hcontainers]
    exact Container.nextElement_of_expects hexpects (by simp)
  rcases hcase with ⟨-, rfl, rfl⟩ | ⟨index, containers, key, hn', -⟩
  · rw [h.slot]
    refine .inside _ key hframes hk ?_
    exact Describes.takes ⟨h.keeps, h.closes, h.running, h.sink, h.buffer, h.headers⟩ rfl hadmit rfl
  · rw [hn] at hn'
    cases hn'

/-- A container can only end between two values. -/
theorem Stands.rests_of_end {shape : Shape} {rest : List Expectation} (h : d.Stands w)
    (he : w.expectations = shape.expectation :: rest) : d.Rests w := by
  rcases h with h | ⟨key, -, h⟩
  · exact h
  · obtain ⟨rest', -, he'⟩ := h.expects
    rw [he] at he'
    cases shape <;> cases he'

theorem Stands.positioned {kind : ValueKind} {activity : Activity} {slot : Option Nat} {u : Writer}
    (h : d.Stands w) (hc : w.Consistent)
    (hrun : (takePosition kind activity).run w = .ok slot u) : d.Positioned u slot := by
  rcases h with h | ⟨key, hk, h⟩
  · exact h.positioned hc hrun
  · exact h.positioned hk hc hrun

/-! ## Values -/

/-- A value whose type has been written is one more field. -/
theorem Takes.put {key : String} {v : WireValue} (h : d.Takes key v.type w)
    (hf : d.frames ≠ []) : (d.put key v).Rests (w.put v.payload) := by
  have helement : d.Describes (element key v) (w.put v.payload) := by
    refine ⟨h.keeps, h.closes, h.running, h.sink, ?_, h.headers⟩
    rw [Writer.put, h.buffer, Buffer.append_append]
    rfl
  refine ⟨helement.put hf, ?_, h.slotless⟩
  rw [expectations_put hf]
  exact h.expects

theorem Takes.push {f : Frame} {key : String} {type : ElementType} (h : d.Takes key type w)
    (hlead : f.lead = type.tag :: terminated key) (hfields : f.fields = []) :
    (d.push f).Rests (w.opened f.shape) := by
  have hdescribes : d.Describes f.lead w := by
    rw [hlead]
    exact h.toDescribes
  refine ⟨hdescribes.push hfields, ?_, h.slotless⟩
  rw [Writer.opened, h.expects]
  rfl

theorem rests_writeTo {value : Scalar} {slot : Option Nat} (h : d.Positioned w slot)
    (hu : value.Unclipped) (hrun : (writeTo value slot).run w = .ok () w') :
    ∃ key v, '\x00' ∉ key.toList ∧ v.Readable ∧ d.frames ≠ [] ∧ (d.put key v).Rests w' := by
  have hy := run_eq_ok_iff.mp hrun
  cases h with
  | outside hframes h => simp [writeTo, fillScalar] at hy
  | inside start key hframes hk hfilled =>
    obtain ⟨b, hb, htakes⟩ := hfilled (value.primitive w.options).type
    have hkeeps : w.options.streaming = false := htakes.keeps
    simp only [writeTo, yields_tracked, yields_andThen, yields_get, fillScalar, fill,
      Option.isNone_some, Bool.false_eq_true, if_false, yields_patch, hb, yields_emit,
      yields_drainIfStreaming, hkeeps] at hy
    cases hp : ((value.primitive w.options).payload w.escapes).failure with
    | some cause => simp [hp] at hy
    | none =>
      obtain ⟨v, hv, hwrites, htype⟩ := Scalar.image_of_payload hp
      rw [hwrites] at hy
      rw [htype] at htakes
      refine ⟨key, v, hk, readable_scalar hv hu, hframes, ?_⟩
      rw [← hy.2]
      exact htakes.put hframes

/-! ## Beginnings -/

theorem rests_openAt {shape : Shape} {slot : Option Nat} (h : d.Positioned w slot)
    (hd : d.Valid) (hrun : (openAt shape slot).run w = .ok () w') :
    ∃ f : Frame, marks d.base (f :: d.frames) = marks d.base d.frames ∧ (d.push f).Valid ∧
      (d.push f).Rests w' := by
  have hy := run_eq_ok_iff.mp hrun
  cases h with
  | outside hframes h =>
    simp only [openAt, yields_tracked, yields_andThen, fill, yields_pure, yields_openContainer]
      at hy
    let f : Frame := .root shape []
    have hlead : d.Describes f.lead w := h.toDescribes
    refine ⟨f, rfl, hd.push (iff_of_true trivial hframes) trivial, ?_⟩
    rw [← hy.2]
    refine ⟨hlead.push rfl, ?_, h.slotless⟩
    show shape.expectation :: w.expectations = _
    rw [h.expects]
    rfl
  | inside start key hframes hk hfilled =>
    obtain ⟨b, hb, htakes⟩ := hfilled shape.elementType
    simp only [openAt, yields_tracked, yields_andThen, fill, yields_patch, hb,
      yields_openContainer] at hy
    refine ⟨.nested key shape [], rfl, hd.push (iff_of_false id hframes) ⟨hk, trivial⟩, ?_⟩
    rw [← hy.2]
    exact htakes.push rfl rfl

/-- The output up to where the value of a scope after the draft begins. -/
def beforeScope (d : Draft) (key : String) : Buffer :=
  d.buffer.append (ElementType.javaScriptCodeWithScope.tag :: terminated key)

theorem size_beforeScope (d : Draft) (key : String) :
    (d.beforeScope key).size = d.base + (layout d.frames).length + 1 + (terminated key).length := by
  simp only [beforeScope, Draft.buffer, Draft.base, Buffer.size, Buffer.append, List.length_append,
    List.length_cons]
  omega

theorem append_lead_scope (d : Draft) (key text : String) (fields : Fields) :
    d.buffer.append (Frame.scope key text fields).lead =
      (d.beforeScope key).append (lengthField 0 ++ prefixed text) := by
  rw [beforeScope, Buffer.append_append, Frame.lead, List.cons_append]

theorem rests_openScopeAt {code : String} {slot : Option Nat} {mark : ScopeMark}
    (h : d.Positioned w slot) (hd : d.Valid)
    (hrun : (openScopeAt code slot).run w = .ok mark w') :
    ∃ f : Frame, marks d.base (f :: d.frames) = mark :: marks d.base d.frames ∧
      (d.push f).Valid ∧ (d.push f).Rests w' := by
  obtain ⟨start, text, b, rfl, hp, -, rfl, rfl⟩ := openScopeAt_eq_ok hrun
  cases h with
  | inside start key hframes hk hfilled =>
    obtain ⟨b', hb, htakes⟩ := hfilled .javaScriptCodeWithScope
    obtain rfl : b = b' := Except.ok.inj (hp.symm.trans hb)
    have hbuffer : b = d.beforeScope key := htakes.buffer
    have hexpects : w.expectations = d.expectations := htakes.expects
    let f : Frame := .scope key text []
    have hlead : d.Describes f.lead
        { w with buffer := b.append (lengthField 0 ++ prefixed text) } := by
      refine ⟨htakes.keeps, htakes.closes, htakes.running, htakes.sink, ?_, htakes.headers⟩
      rw [append_lead_scope, hbuffer]
    refine ⟨f, ?_, hd.push (iff_of_false id hframes) ⟨hk, trivial⟩, hlead.push rfl, ?_,
      htakes.slotless⟩
    · rw [hbuffer, size_beforeScope, hexpects, Draft.expectations, List.length_map]
      rfl
    · show Expectation.name :: w.expectations = _
      rw [hexpects]
      rfl

/-! ## Ends -/

section Innermost

variable {tail : Bytes} {f : Frame} {outer : List Frame}

/-- Where the length field of the innermost frame lies, and what stands before it. -/
theorem Describes.innermost (h : d.Describes tail w) (hf : d.frames = f :: outer)
    {container : Container} {containers : List Container}
    (hc : w.containers = container :: containers) :
    w.buffer = ((d.around outer).buffer.append f.lead).append
        (lengthField 0 ++ (content f.fields ++ tail)) ∧
      container.header = ((d.around outer).buffer.append f.lead).size ∧
      containers.map Container.header = Draft.headers d.base outer := by
  have hheaders := h.headers
  rw [hf, hc, List.map_cons, Draft.headers] at hheaders
  obtain ⟨hheader, hrest⟩ := List.cons.inj hheaders
  refine ⟨?_, ?_, hrest⟩
  · rw [h.buffer]
    simp only [Draft.buffer, around, hf, layout, Buffer.append, List.append_assoc]
  · rw [hheader]
    simp only [Draft.buffer, around, Buffer.size, Buffer.append, Draft.base, List.length_append]
    omega

/-- The end of a container turns the innermost frame into bytes. -/
theorem Describes.ended {shape : Shape} (h : d.Describes tail w) (hf : d.frames = f :: outer)
    (hrun : (endContainer shape).run w = .ok () w') :
    (d.around outer).Describes (f.lead ++ enclosed (content f.fields ++ tail)) w' ∧
      (enclosed (content f.fields ++ tail)).length < lengthBound ∧
      w.expectations = shape.expectation :: w'.expectations ∧ w'.slot = w.slot := by
  obtain ⟨rest, container, containers, b, hr, he, hc, hlt, -, -⟩ := endContainer_eq_ok h.keeps hrun
  obtain ⟨hbuffer, hheader, hrest⟩ := h.innermost hf hc
  have hsize : w.buffer.size + 1 - container.header =
      (enclosed (content f.fields ++ tail)).length := by
    rw [hbuffer, hheader, Buffer.size_append, List.length_append, length_lengthField,
      length_enclosed]
    omega
  rw [hsize] at hlt
  rw [run_endContainer hr h.keeps he hc hheader hbuffer hlt] at hrun
  cases hrun
  refine ⟨⟨h.keeps, h.closes, h.running, h.sink, ?_, hrest⟩, hlt, he, rfl⟩
  rw [Buffer.append_append]

/-- What is left of the draft when its innermost frame is a finished value. -/
theorem Describes.finished {key : String} {v : WireValue}
    (h : (d.around outer).Describes (element key v) w) (hf : d.frames = f :: outer)
    (ho : outer ≠ []) {shape : Shape} (he : d.expectations = shape.expectation :: w.expectations)
    (hs : w.slot = none) : ((d.around outer).put key v).Rests w := by
  refine ⟨h.put ho, ?_, hs⟩
  rw [Draft.expectations, hf, List.map_cons] at he
  rw [expectations_put ho]
  exact (List.cons.inj he).2.symm

end Innermost

/-- The end of a container that is no scope. -/
theorem Rests.endContainer {shape : Shape} (h : d.Rests w) (hd : d.Valid)
    (hscope : ∀ mark ∈ (marks d.base d.frames).head?, mark.depth < w.expectations.length)
    (hrun : (Action.endContainer shape).run w = .ok () w') :
    marks d.finish.base d.finish.frames = marks d.base d.frames ∧ d.finish.Valid ∧
      d.finish.Rests w' := by
  have hlength := h.length_containers
  obtain ⟨rest, container, containers, b, -, -, hc, -⟩ := endContainer_eq_ok h.keeps hrun
  rw [hc, List.length_cons] at hlength
  obtain ⟨f, outer, hf⟩ := List.exists_cons_of_length_eq_add_one hlength.symm
  obtain ⟨hended, hlt, he, hslot⟩ := h.ended hf hrun
  rw [List.append_nil] at hended hlt
  rw [h.expects] at he hscope
  rw [h.slotless] at hslot
  have hnested := hd.nested
  have hreadable := hd.readable f (by rw [hf]; exact List.mem_cons_self)
  have haround := hd.around hf
  rw [hf] at hnested
  cases f with
  | root shape' fields =>
    have houter : outer = [] := hnested.1.mp trivial
    subst houter
    have hfinish : d.finish = { d with done := d.done ++ [fields], frames := [] } := by
      rw [finish, hf]
    refine ⟨by rw [hfinish, hf]; rfl, hd.finish_root hf hlt, ?_⟩
    rw [hfinish]
    refine ⟨⟨hended.keeps, hended.closes, hended.running, hended.sink, ?_, hended.headers⟩, ?_,
      hslot⟩
    · rw [hended.buffer]
      simp [Draft.buffer, around, encodings, layout, Buffer.append, Frame.lead, Frame.fields]
    · rw [Draft.expectations, hf, List.map_cons] at he
      exact (List.cons.inj he).2.symm
  | nested key shape' fields =>
    have houter : outer ≠ [] := fun ho => hnested.1.mpr ho
    have hvalue : (shape'.value fields).Readable := Shape.readable_value.mpr hreadable.2
    have helement : (Frame.nested key shape' fields).lead ++ enclosed (content fields) =
        element key (shape'.value fields) := by
      rw [element, Shape.type_value, Shape.payload_value, Frame.lead, List.cons_append]
    have hfinish : d.finish = (d.around outer).put key (shape'.value fields) := by
      rw [finish, hf]
    rw [show (Frame.nested key shape' fields).fields = fields from rfl, helement] at hended
    rw [hfinish, marks_base_put houter, hf]
    exact ⟨rfl, haround.put houter key _ hreadable.1 hvalue, hended.finished hf houter he hslot⟩
  | scope key text fields =>
    have hmark := hscope _ (by rw [hf]; rfl)
    rw [Draft.expectations, hf, List.length_map, List.length_cons] at hmark
    exact absurd hmark (Nat.lt_irrefl _)

/-- The end of a scope, when its document is the innermost container. -/
theorem Rests.endScope {mark : ScopeMark} {scopes : List ScopeMark} (h : d.Rests w) (hd : d.Valid)
    (hmarks : marks d.base d.frames = mark :: scopes)
    (hrun : (Action.endScope mark).run w = .ok () w') :
    marks d.finish.base d.finish.frames = scopes ∧ d.finish.Valid ∧ d.finish.Rests w' := by
  obtain ⟨rest, container, containers, b, c, hr, he, hdepth, hc, hlt, -, -, -⟩ :=
    endScope_eq_ok h.keeps hrun
  have hlength := h.length_containers
  rw [hc, List.length_cons] at hlength
  obtain ⟨f, outer, hf⟩ := List.exists_cons_of_length_eq_add_one hlength.symm
  obtain ⟨hbuffer, hheader, hrest⟩ := h.innermost hf hc
  have hcount : rest.length = outer.length := by
    have hl := congrArg List.length (he.symm.trans h.expects)
    rw [Draft.expectations, hf, List.length_map, List.length_cons, List.length_cons] at hl
    omega
  have hnested := hd.nested
  have hreadable := hd.readable f (by rw [hf]; exact List.mem_cons_self)
  have haround := hd.around hf
  rw [hf] at hnested hmarks
  -- A mark further out would be less deep.
  have hinner : mark ∉ marks d.base outer := fun hm => by
    have hle := depth_le_of_mem_marks hm
    omega
  cases f with
  | root shape fields => exact absurd (hmarks ▸ List.mem_cons_self) hinner
  | nested key shape fields => exact absurd (hmarks ▸ List.mem_cons_self) hinner
  | scope key text fields =>
    obtain ⟨rfl, rfl⟩ := List.cons.inj hmarks
    have houter : outer ≠ [] := fun ho => hnested.1.mpr ho
    let front := (d.around outer).beforeScope key
    have hstart : d.base + (layout outer).length + 1 + (terminated key).length = front.size :=
      ((d.around outer).size_beforeScope key).symm
    rw [append_lead_scope] at hheader hbuffer
    have hheader' : container.header = front.size + 4 + (prefixed text).length := by
      rw [hheader, Buffer.size_append, List.length_append, length_lengthField, Nat.add_assoc]
    have hbuffer' : w.buffer = front.append
        (lengthField 0 ++ prefixed text ++ (lengthField 0 ++ content fields)) := by
      rw [hbuffer, List.append_nil, Buffer.append_append]
      rfl
    have hbound : 4 + (prefixed text).length + (enclosed (content fields)).length <
        lengthBound := by
      rw [hbuffer', hstart] at hlt
      simp only [Buffer.size_append, List.length_append, length_lengthField, length_enclosed]
        at hlt ⊢
      omega
    rw [run_endScope hr h.keeps he hdepth hc hstart hheader' hbuffer' hbound] at hrun
    cases hrun
    have hfinish : d.finish = (d.around outer).put key (.codeWithScope text fields) := by
      rw [finish, hf]
    rw [hfinish, marks_base_put houter]
    refine ⟨rfl, haround.put houter key _ hreadable.1 hreadable.2, ?_⟩
    have hexpects : d.expectations = Shape.document.expectation :: rest := h.expects.symm.trans he
    refine Describes.finished ⟨h.keeps, h.closes, h.running, h.sink, ?_, hrest⟩ hf houter hexpects
      h.slotless
    simp only [front, beforeScope, Buffer.append_append, element, WireValue.payload,
      WireValue.type, List.cons_append]

end Draft

end BsonWriter
