import BsonWriter.Proofs.Action.Yields
import BsonWriter.Proofs.Output.Delivery
import BsonWriter.Proofs.Session.Success
import BsonWriter.Proofs.Tree.Basic

/-!
What a session without streaming writes for trees. A value may come next in three
places: after a field name, in an array, and outside of all containers if it is a
container itself. `Admits` says what these have in common, so that one induction
over trees serves for all three (`succeeds_tree`). The main statement is
`forest_encoding_exact`.
-/

namespace BsonWriter

open BsonWriter.Action
open WireValue (content payload content_cons element)

/-- The state after some bytes. -/
def Writer.put (w : Writer) (bs : Bytes) : Writer := { w with buffer := w.buffer.append bs }

/-- The state after the length field of a new container. -/
def Writer.opened (w : Writer) (shape : Shape) : Writer := { w with
  buffer := w.buffer.append (lengthField 0)
  containers := .start w.buffer.size shape :: w.containers
  expectations := shape.expectation :: w.expectations }

/-- A session between two values: it runs, keeps its output to its end, and no
type byte waits for a value. -/
structure Writer.Steady (options : Options) (table : Option EscapeTable) (w : Writer) : Prop where
  configured : w.options = options
  keeps : options.streaming = false
  escapes : w.escapes = table
  running : w.phase = .running
  slotless : w.slot = none

namespace Writer

variable {options : Options} {table : Option EscapeTable} {w : Writer}

@[simp] theorem put_put (bs cs : Bytes) : (w.put bs).put cs = w.put (bs ++ cs) := by
  simp [put]

@[simp] theorem put_nil : w.put [] = w := by simp [put]

theorem Steady.put (h : w.Steady options table) (bs : Bytes) :
    (w.put bs).Steady options table := ⟨h.configured, h.keeps, h.escapes, h.running, h.slotless⟩

theorem Steady.opened (h : w.Steady options table) (shape : Shape) :
    (w.opened shape).Steady options table :=
  ⟨h.configured, h.keeps, h.escapes, h.running, h.slotless⟩

theorem Steady.streaming (h : w.Steady options table) : w.options.streaming = false := by
  rw [h.configured, h.keeps]

end Writer

/-! ## Where a value may come -/

/-- A value of the given kind and type may come next in state `w`, and `w'` is the
state when its type is written and its payload is not. -/
def Admits (kind : ValueKind) (type : ElementType) (w w' : Writer) : Prop :=
  ∀ activity, ∃ slot v, (takePosition kind activity).run w = .ok slot v ∧
    (kind = .scalar → slot.isSome = true) ∧ (fill slot type).run v = .ok () w'

/-- A value takes the type byte that waits. -/
theorem run_takePosition_waiting {w : Writer} {kind : ValueKind} {activity : Activity}
    {expectations : List Expectation} (hr : w.phase = .running)
    (ha : Expectation.admitValue kind activity w.expectations = .ok expectations)
    (hn : Container.nextElement w.containers = none) :
    (takePosition kind activity).run w = .ok w.slot { w with expectations, slot := none } := by
  rw [run_eq_ok_iff]
  simp [takePosition, hr, ha, hn]

/-- In an array a value takes a type byte of its own, with the index behind it. -/
theorem run_takePosition_element {w : Writer} {kind : ValueKind} {activity : Activity}
    {expectations : List Expectation} {index : Nat} {containers : List Container} {key : String}
    (hr : w.phase = .running)
    (ha : Expectation.admitValue kind activity w.expectations = .ok expectations)
    (hn : Container.nextElement w.containers = some (index, containers))
    (hk : writtenName w.escapes index.repr = some key) :
    (takePosition kind activity).run w = .ok (some w.buffer.size) { w with
      expectations, containers, buffer := w.buffer.append (0 :: terminated key) } := by
  rw [run_eq_ok_iff]
  simp [takePosition, hr, ha, hn, cstring_of_writtenName hk]

theorem run_fill {w : Writer} {b : Buffer} {bs : Bytes} {start : Nat}
    (hb : w.buffer = b.append (0 :: bs)) (hs : start = b.size) (type : ElementType) :
    (fill (some start) type).run w = .ok () { w with buffer := b.append (type.tag :: bs) } := by
  have hp : w.buffer.patch start [type.tag] = .ok (b.append (type.tag :: bs)) := by
    rw [hb, hs]
    exact @Buffer.patch_append b [0] [type.tag] rfl bs
  rw [run_eq_ok_iff, fill, yields_patch, hp]
  exact ⟨rfl, rfl⟩

/-- After a field name. -/
theorem admits_field {w : Writer} {b : Buffer} {bs : Bytes} {start : Nat}
    {rest : List Expectation} (hr : w.phase = .running) (he : w.expectations = .value :: rest)
    (hn : Container.nextElement w.containers = none) (hs : w.slot = some start)
    (hb : w.buffer = b.append (0 :: bs)) (hst : start = b.size) (kind : ValueKind)
    (type : ElementType) : Admits kind type w { w with
      buffer := b.append (type.tag :: bs), expectations := .name :: rest, slot := none } := by
  intro activity
  let u := { w with expectations := .name :: rest, slot := none }
  have ht : (takePosition kind activity).run w = .ok (some start) u := by
    rw [run_takePosition_waiting hr (by rw [he]; rfl) hn, hs]
  exact ⟨some start, u, ht, fun _ => rfl, @run_fill u b bs start hb hst type⟩

/-- In an array. -/
theorem admits_element {w : Writer} {rest : List Expectation} {header index : Nat}
    {containers : List Container} {key : String} (hr : w.phase = .running)
    (he : w.expectations = .element :: rest)
    (hc : w.containers = ⟨header, some index⟩ :: containers)
    (hk : writtenName w.escapes index.repr = some key) (kind : ValueKind) (type : ElementType) :
    Admits kind type w { w with
      buffer := w.buffer.append (type.tag :: terminated key)
      containers := ⟨header, some (index + 1)⟩ :: containers } := by
  intro activity
  let u := { w with
    buffer := w.buffer.append (0 :: terminated key)
    containers := ⟨header, some (index + 1)⟩ :: containers }
  have ha : Expectation.admitValue kind activity w.expectations = .ok w.expectations := by
    rw [he]
    rfl
  have ht : (takePosition kind activity).run w = .ok (some w.buffer.size) u :=
    run_takePosition_element hr ha (by rw [hc]; rfl) hk
  exact ⟨some w.buffer.size, u, ht, fun _ => rfl, run_fill rfl rfl type⟩

/-- Outside of all containers. -/
theorem admits_root {w : Writer} (hr : w.phase = .running) (he : w.expectations = [])
    (hc : w.containers = []) (hs : w.slot = none) (type : ElementType) :
    Admits .container type w w := by
  intro activity
  have hw : { w with expectations := [], slot := none } = w := by rw [← he, ← hs]
  have ht : (takePosition .container activity).run w = .ok none w := by
    rw [run_takePosition_waiting hr (by rw [he]; rfl) (by rw [hc]; rfl), hw, hs]
  exact ⟨none, w, ht, by simp, rfl⟩

/-! ## Single calls -/

theorem run_fieldName {w : Writer} {rest : List Expectation} {name key : String}
    (hr : w.phase = .running) (he : w.expectations = .name :: rest)
    (hk : writtenName w.escapes name = some key) :
    (fieldName name).run w = .ok () { w with
      buffer := w.buffer.append (0 :: terminated key)
      expectations := .value :: rest
      slot := some w.buffer.size } := by
  rw [run_eq_ok_iff]
  simp [fieldName, hr, he, Expectation.admitName, cstring_of_writtenName hk]

/-- Filling a type byte changes nothing but the buffer. -/
theorem eq_of_run_fill {w w' : Writer} {slot : Option Nat} {type : ElementType}
    (h : (fill slot type).run w = .ok () w') : ∃ buffer, w' = { w with buffer } := by
  cases slot with
  | none =>
    cases h
    exact ⟨w.buffer, rfl⟩
  | some start =>
    rw [run_eq_ok_iff, fill, yields_patch] at h
    cases hp : w.buffer.patch start [type.tag] with
    | error cause => simp [hp] at h
    | ok buffer =>
      rw [hp] at h
      exact ⟨buffer, h.2.symm⟩

/-- A scalar with an image is written in full behind its type, and then the sink is offered
what there is if the session streams. -/
theorem run_write_draining {w w' : Writer} {value : Scalar} {v : WireValue}
    (h : value.wire? w'.options w'.escapes = some v) (ha : Admits .scalar v.type w w')
    (hl : v.payload.length < lengthBound) :
    (write .direct value).run w = (tracked drainIfStreaming).run (w'.put v.payload) := by
  obtain ⟨slot, u, ht, hslot, hf⟩ := ha value.activity
  have hp := Scalar.writes_of_wire? h hl
  obtain ⟨buffer, rfl⟩ := eq_of_run_fill hf
  have hsome : slot.isNone = false := by simpa using hslot rfl
  apply run_eq_of_yields
  intro Q E
  rw [write, take, yields_andThen, yields_iff_of_ok ht]
  simp only [yields_tracked, yields_andThen, yields_get, fillScalar, hsome, hp.2, hp.1,
    Bool.false_eq_true, if_false]
  rw [yields_iff_of_ok hf, yields_emit]
  rfl

theorem run_write {options : Options} {table : Option EscapeTable} {w w' : Writer}
    {value : Scalar} {v : WireValue} (h : value.wire? options table = some v)
    (ha : Admits .scalar v.type w w') (hw : w'.Steady options table)
    (hl : v.payload.length < lengthBound) :
    (write .direct value).run w = .ok () (w'.put v.payload) := by
  rw [← hw.configured, ← hw.escapes] at h
  rw [run_write_draining h ha hl, run_eq_ok_iff]
  simp [Writer.put, hw.streaming]

theorem run_beginContainer {w w' : Writer} {shape : Shape}
    (ha : Admits .container shape.elementType w w') :
    (beginContainer .direct shape).run w = .ok () (w'.opened shape) := by
  obtain ⟨slot, u, ht, -, hf⟩ := ha shape.activity
  rw [run_eq_ok_iff, beginContainer, take, yields_andThen, yields_iff_of_ok ht]
  simp only [yields_tracked, yields_andThen]
  rw [yields_iff_of_ok hf]
  simp [Writer.opened]

/-- The length field that was written first gets the number of bytes from there
on. -/
theorem run_patchLength {w : Writer} {b : Buffer} {bs : Bytes} {start : Nat}
    (hb : w.buffer = b.append (lengthField 0 ++ bs)) (hs : start = b.size)
    (hl : bs.length + 4 < lengthBound) : (patchLength start).run w =
      .ok () { w with buffer := b.append (lengthField (bs.length + 4) ++ bs) } := by
  have hsize : w.buffer.size - start = bs.length + 4 := by
    rw [hb, hs, Buffer.size_append, List.length_append, length_lengthField]
    omega
  have hp : w.buffer.patch start (lengthField (bs.length + 4)) =
      .ok (b.append (lengthField (bs.length + 4) ++ bs)) := by
    rw [hb, hs]
    exact @Buffer.patch_append b (lengthField 0) (lengthField (bs.length + 4)) rfl bs
  rw [run_eq_ok_iff, yields_patchLength, hsize, if_pos hl, hp]
  exact ⟨rfl, rfl⟩

/-- The end of a container whose length field is still here. -/
theorem run_endContainer_of_patch {w : Writer} {shape : Shape} {rest : List Expectation}
    {container : Container} {containers : List Container} {b : Buffer}
    (hr : w.phase = .running) (hs : w.options.streaming = false)
    (he : w.expectations = shape.expectation :: rest)
    (hc : w.containers = container :: containers)
    (hl : w.buffer.size + 1 - container.header < lengthBound)
    (hp : (w.buffer.append [endOfDocument]).patch container.header
      (lengthField (w.buffer.size + 1 - container.header)) = .ok b) :
    (endContainer shape).run w = .ok () { w with
      expectations := rest, containers := containers, buffer := b } := by
  rw [run_eq_ok_iff, endContainer_eq]
  simp [hr, he, hc, hs, hl, hp]

/-- The end of a container, whose length field gets the number of its bytes. -/
theorem run_endContainer {w : Writer} {b : Buffer} {content : Bytes} {shape : Shape}
    {rest : List Expectation} {container : Container} {containers : List Container}
    (hr : w.phase = .running) (hs : w.options.streaming = false)
    (he : w.expectations = shape.expectation :: rest)
    (hc : w.containers = container :: containers) (hh : container.header = b.size)
    (hb : w.buffer = b.append (lengthField 0 ++ content))
    (hl : (enclosed content).length < lengthBound) :
    (endContainer shape).run w = .ok () { w with
      buffer := b.append (enclosed content), expectations := rest, containers := containers } := by
  rw [length_enclosed] at hl
  have hlength : w.buffer.size + 1 - container.header = content.length + 5 := by
    rw [hb, hh, Buffer.size_append, List.length_append, length_lengthField]
    omega
  have hp : (w.buffer.append [endOfDocument]).patch container.header
      (lengthField (w.buffer.size + 1 - container.header)) = .ok (b.append (enclosed content)) := by
    rw [hlength, hb, hh, Buffer.append_append, List.append_assoc, enclosed, List.append_assoc]
    exact Buffer.patch_append b (by rw [length_lengthField, length_lengthField]) _
  exact run_endContainer_of_patch hr hs he hc (by rw [hlength]; exact hl) hp

theorem run_beginScope {w w' : Writer} {table : Option EscapeTable} {code text : String}
    (ha : Admits .scalar .javaScriptCodeWithScope w w') (he : w'.escapes = table)
    (ht : writtenText table code = some text) (hl : (prefixed text).length < lengthBound) :
    (beginScope .direct code).run w = .ok ⟨w'.buffer.size, w'.expectations.length + 1⟩
      ((w'.put (lengthField 0 ++ prefixed text)).opened .document) := by
  obtain ⟨slot, u, hu, hslot, hf⟩ := ha .javaScript
  have hsome : slot.isNone = false := by simpa using hslot rfl
  rw [run_eq_ok_iff, beginScope, take, yields_andThen, yields_iff_of_ok hu]
  simp only [yields_tracked, yields_andThen, fillScalar, hsome, Bool.false_eq_true, if_false]
  rw [yields_iff_of_ok hf]
  simp [he, string_of_writtenText ht hl, Writer.opened, Writer.put, Nat.add_assoc]

/-- The end of a scope document and of the value that holds it. -/
theorem run_endScope {w : Writer} {b : Buffer} {text : String} {content : Bytes} {start depth : Nat}
    {rest : List Expectation} {container : Container} {containers : List Container}
    (hr : w.phase = .running) (hs : w.options.streaming = false)
    (he : w.expectations = .name :: rest) (hd : depth = rest.length + 1)
    (hc : w.containers = container :: containers)
    (hst : start = b.size) (hh : container.header = b.size + 4 + (prefixed text).length)
    (hb : w.buffer = b.append (lengthField 0 ++ prefixed text ++ (lengthField 0 ++ content)))
    (hl : 4 + (prefixed text).length + (enclosed content).length < lengthBound) :
    (endScope ⟨start, depth⟩).run w = .ok () { w with
      buffer := b.append (lengthField (4 + (prefixed text).length + (enclosed content).length) ++
        (prefixed text ++ enclosed content))
      expectations := rest, containers := containers } := by
  have hb' : w.buffer =
      (b.append (lengthField 0 ++ prefixed text)).append (lengthField 0 ++ content) := by
    rw [hb, Buffer.append_append]
  have hh' : container.header = (b.append (lengthField 0 ++ prefixed text)).size := by
    rw [hh, Buffer.size_append, List.length_append, length_lengthField]
    omega
  have hend := @run_endContainer w _ content .document _ _ _ hr hs he hc hh' hb' (by omega)
  let u : Writer := { w with
    buffer := b.append (lengthField 0 ++ (prefixed text ++ enclosed content))
    expectations := rest, containers := containers }
  have hu : endDocument.run w = .ok () u := by
    rw [show endDocument = endContainer .document from rfl, hend, Buffer.append_append,
      List.append_assoc]
  have hp := @run_patchLength u b (prefixed text ++ enclosed content) start rfl hst
    (by rw [List.length_append]; omega)
  have hlen : (prefixed text ++ enclosed content).length + 4 =
      4 + (prefixed text).length + (enclosed content).length := by
    rw [List.length_append]
    omega
  rw [hlen] at hp
  rw [run_eq_ok_iff, endScope]
  simp only [yields_tracked, yields_andThen, yields_get, he, hd, List.length_cons, yields_ite,
    if_true]
  rw [yields_iff_of_ok hu]
  simp only [u, hs, Bool.false_eq_true, if_false]
  rw [yields_iff_of_ok hp]
  simp [u, hs]

/-! ## Trees -/

/-- Whether a tree is a container for the position it goes to. Code with its scope
is not. -/
def Tree.kind : Tree → ValueKind
  | .leaf _ => .scalar
  | .document _ => .container
  | .array _ => .container
  | .codeWithScope .. => .scalar

section Trees

variable {options : Options} {table : Option EscapeTable} {w w' : Writer}

open Call (Succeeds)

/-- A container, if its content can be written. An array comes out of it with
another next index. -/
theorem succeeds_container {shape : Shape} {calls : List Call} {content : Bytes}
    {nextIndex : Option Nat} (ha : Admits .container shape.elementType w w')
    (hw : w'.Steady options table) (hl : (enclosed content).length < lengthBound)
    (h : Succeeds (w'.opened shape) calls { (w'.opened shape).put content with
      containers := ⟨w'.buffer.size, nextIndex⟩ :: w'.containers }) :
    Succeeds w (.beginContainer .direct shape :: (calls ++ [.endContainer shape]))
      (w'.put (enclosed content)) := by
  have hbegin : Succeeds w [.beginContainer .direct shape] (w'.opened shape) :=
    Succeeds.of_run rfl (run_beginContainer ha)
  let u : Writer := { (w'.opened shape).put content with
    containers := ⟨w'.buffer.size, nextIndex⟩ :: w'.containers }
  have hub : u.buffer = w'.buffer.append (lengthField 0 ++ content) := Buffer.append_append ..
  have hend : (endContainer shape).run u = .ok () (w'.put (enclosed content)) :=
    run_endContainer hw.running hw.streaming rfl rfl rfl hub hl
  exact hbegin.append (h.append (Succeeds.of_run rfl hend))

mutual

/-- A tree with an image is written as its image says, wherever it may come. -/
theorem succeeds_tree {w w' : Writer} {v : WireValue} : (tree : Tree) →
    tree.wire? options table = some v → Admits tree.kind v.type w w' → w'.Steady options table →
    v.payload.length < lengthBound → Succeeds w tree.calls (w'.put v.payload)
  | .leaf value, h, ha, hw, hl => Succeeds.of_run rfl (run_write h ha hw hl)
  | .document fields, h, ha, hw, hl => by
    obtain ⟨fs, hf, rfl⟩ := Option.map_eq_some_iff.mp h
    rw [payload] at hl ⊢
    have hc : (content fs).length < lengthBound := by
      rw [length_enclosed] at hl
      omega
    exact succeeds_container ha hw hl (succeeds_fields fields hf (hw.opened .document) rfl rfl hc)
  | .array items, h, ha, hw, hl => by
    obtain ⟨es, he, rfl⟩ := Option.map_eq_some_iff.mp h
    rw [payload] at hl ⊢
    have hc : (content es).length < lengthBound := by
      rw [length_enclosed] at hl
      omega
    exact succeeds_container ha hw hl (succeeds_items items he (hw.opened .array) rfl rfl hc)
  | .codeWithScope code scope, h, ha, hw, hl => by
    obtain ⟨text, ht, h⟩ := Option.bind_eq_some_iff.mp h
    obtain ⟨fs, hf, h⟩ := Option.bind_eq_some_iff.mp h
    cases h
    rw [payload] at hl ⊢
    simp only [List.length_append, length_lengthField] at hl
    have hlp : (prefixed text).length < lengthBound := by omega
    have hlc : (content fs).length < lengthBound := by
      rw [length_enclosed] at hl
      omega
    let u := (w'.put (lengthField 0 ++ prefixed text)).opened .document
    have hu : u.Steady options table := (hw.put _).opened .document
    have hub : (u.put (content fs)).buffer = w'.buffer.append
        (lengthField 0 ++ prefixed text ++ (lengthField 0 ++ content fs)) := by
      simp [u, Writer.put, Writer.opened]
    have hhead : (w'.put (lengthField 0 ++ prefixed text)).buffer.size =
        w'.buffer.size + 4 + (prefixed text).length := by
      simp [Writer.put]
      omega
    have hend := @run_endScope (u.put (content fs)) _ text (content fs) _ _ _ _ _ hu.running
      hu.streaming rfl rfl rfl rfl hhead hub (by omega)
    exact Succeeds.codeWithCalls (run_beginScope ha hw.escapes ht hlp)
      (succeeds_fields scope hf hu rfl rfl hlc) hend

theorem succeeds_fields {w : Writer} {fs : Fields} {rest : List Expectation} :
    (fields : List (String × Tree)) → Tree.wireFields? options table fields = some fs →
    w.Steady options table → w.expectations = .name :: rest →
    Container.nextElement w.containers = none → (content fs).length < lengthBound →
    Succeeds w (Tree.fieldCalls fields) (w.put (content fs))
  | [], h, _, _, _, _ => by
    cases h
    rw [content, Writer.put_nil]
    exact Succeeds.nil w
  | (name, tree) :: fields, h, hw, he, hc, hl => by
    obtain ⟨key, hk, h⟩ := Option.bind_eq_some_iff.mp h
    obtain ⟨v, hv, h⟩ := Option.bind_eq_some_iff.mp h
    obtain ⟨gs, hg, h⟩ := Option.bind_eq_some_iff.mp h
    cases h
    rw [content_cons] at hl ⊢
    simp only [List.length_append, element, List.length_cons] at hl
    let u : Writer := { w with
      buffer := w.buffer.append (0 :: terminated key)
      expectations := .value :: rest
      slot := some w.buffer.size }
    have hname : (fieldName name).run w = .ok () u :=
      run_fieldName hw.running he (by rw [hw.escapes]; exact hk)
    have ha : Admits tree.kind v.type u (w.put (v.type.tag :: terminated key)) := by
      have ha := @admits_field u w.buffer (terminated key) _ rest hw.running rfl hc rfl rfl rfl
        tree.kind v.type
      simpa only [u, Writer.put, ← he, ← hw.slotless] using ha
    have hvalue := succeeds_tree tree hv ha (hw.put _) (by omega)
    have hrest := succeeds_fields fields hg (hw.put (element key v)) he hc (by omega)
    rw [Writer.put_put] at hvalue hrest
    exact (Succeeds.of_run rfl hname).append (hvalue.append hrest)

theorem succeeds_items {w : Writer} {es : Fields} {index header : Nat} {rest : List Expectation}
    {containers : List Container} : (items : List Tree) →
    Tree.wireItems? options table index items = some es → w.Steady options table →
    w.expectations = .element :: rest → w.containers = ⟨header, some index⟩ :: containers →
    (content es).length < lengthBound → Succeeds w (Tree.itemCalls items)
      { w.put (content es) with containers := ⟨header, some (index + items.length)⟩ :: containers }
  | [], h, _, _, hc, _ => by
    cases h
    have hw : { w.put (content []) with containers := ⟨header, some (index + 0)⟩ :: containers } =
        w := by
      rw [content, Writer.put_nil, Nat.add_zero, ← hc]
    rw [List.length_nil, hw]
    exact Succeeds.nil w
  | tree :: items, h, hw, he, hc, hl => by
    obtain ⟨key, hk, h⟩ := Option.bind_eq_some_iff.mp h
    obtain ⟨v, hv, h⟩ := Option.bind_eq_some_iff.mp h
    obtain ⟨gs, hg, h⟩ := Option.bind_eq_some_iff.mp h
    cases h
    rw [content_cons] at hl ⊢
    simp only [List.length_append, element, List.length_cons] at hl
    let u : Writer := { w.put (v.type.tag :: terminated key) with
      containers := ⟨header, some (index + 1)⟩ :: containers }
    have hu : u.Steady options table :=
      ⟨hw.configured, hw.keeps, hw.escapes, hw.running, hw.slotless⟩
    have ha : Admits tree.kind v.type w u :=
      admits_element hw.running he hc (by rw [hw.escapes]; exact hk) tree.kind v.type
    have hvalue := succeeds_tree tree hv ha hu (by omega)
    have hrest := succeeds_items items hg (hu.put v.payload) he rfl (by omega)
    have hput : (w.put (v.type.tag :: terminated key)).put v.payload = w.put (element key v) :=
      Writer.put_put ..
    rw [List.length_cons, show index + (items.length + 1) = index + 1 + items.length by omega,
      ← Writer.put_put, ← hput]
    exact hvalue.append hrest

end

end Trees

end BsonWriter
