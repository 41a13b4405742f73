import BsonWriter.Proofs.Datum.Parts
import BsonWriter.Proofs.Run.Moves
import BsonWriter.Proofs.Walk.Grammar

/-!
A datum that is written without an error is one value at the place where it is written,
whatever its maps go through (`writesValue_datum`). The calls that write it spell one value
of the grammar of walks, and of what was open before nothing changes but that a value has
come.
-/

namespace BsonWriter

/-! ## What has changed -/

theorem Container.exists_taken_cons (c : Container) (containers : List Container) :
    ∃ d, taken (c :: containers) = d :: containers := by
  obtain ⟨header, nextIndex⟩ := c
  cases nextIndex with
  | none => exact ⟨_, rfl⟩
  | some index => exact ⟨_, rfl⟩

namespace Writer

/-- One value has been written where a value may come. The expectations say so, and in an
array the index of the next element; no type byte waits. -/
def WroteValue (w w' : Writer) : Prop :=
  ∃ expectations, Expectation.admitValue .container .value w.expectations = .ok expectations ∧
    Extends { w with expectations, containers := Container.taken w.containers, slot := none } w'

/-- Nothing has changed outside of the innermost container. -/
def Within (w w' : Writer) : Prop :=
  ∃ e c slot, Extends { w with
    expectations := e :: w.expectations.tail
    containers := c :: w.containers.tail
    slot := slot } w'

theorem Consistent.within {w : Writer} (h : w.Consistent) {e : Expectation}
    {rest : List Expectation} (he : w.expectations = e :: rest) : w.Within w := by
  obtain ⟨c, containers, hc, -⟩ := h.exists_cons he
  refine ⟨e, c, w.slot, ?_⟩
  rw [he, hc, List.tail_cons, List.tail_cons, ← he, ← hc]
  exact .refl w

namespace Within

variable {u v w : Writer}

theorem expectations (h : u.Within v) : v.expectations.tail = u.expectations.tail := by
  obtain ⟨e, c, slot, hv⟩ := h
  have htail := congrArg List.tail hv.expectations
  exact htail

theorem containers (h : u.Within v) : v.containers.tail = u.containers.tail := by
  obtain ⟨e, c, slot, hv⟩ := h
  have htail := congrArg List.tail hv.containers
  exact htail

theorem trans (h : u.Within v) (h' : v.Within w) : u.Within w := by
  obtain ⟨e, c, slot, ⟨buffer, sink, rfl⟩, hsize, hstays⟩ := h
  obtain ⟨e', c', slot', ⟨buffer', sink', rfl⟩, hsize', hstays'⟩ := h'
  exact ⟨e', c', slot', ⟨buffer', sink', rfl⟩, Nat.le_trans hsize hsize',
    fun hk => (hstays' hk).trans (hstays hk)⟩

end Within

/-- A value in a container changes nothing outside of it. -/
theorem WroteValue.within {w w' : Writer} (h : w.WroteValue w') (hc : w.Consistent)
    {e : Expectation} {rest : List Expectation} (he : w.expectations = e :: rest) :
    w.Within w' ∧ ∃ next, w'.expectations = next :: rest := by
  obtain ⟨expectations, ha, hw⟩ := h
  obtain ⟨c, containers, hcs, -⟩ := hc.exists_cons he
  obtain ⟨d, hd⟩ := Container.exists_taken_cons c containers
  obtain ⟨next, hnext⟩ : ∃ next, expectations = next :: rest := by
    rw [he] at ha
    cases e <;> cases ha <;> exact ⟨_, rfl⟩
  refine ⟨⟨next, d, none, ?_⟩, next, hw.expectations.trans hnext⟩
  rw [hcs, hd, hnext] at hw
  rw [he, hcs]
  exact hw

/-- A container begins, its content is written and it ends. -/
theorem Extends.inside {u t v w : Writer} {shape : Shape} (ht : u.Extends t)
    (hv : (t.opened shape).Within v)
    (hw : Extends { v with expectations := t.expectations, containers := t.containers } w)
    (hs : w.slot = u.slot) : u.Extends w := by
  obtain ⟨⟨buffer, sink, rfl⟩, hsize, hstays⟩ := ht
  obtain ⟨e, c, slot, ⟨buffer', sink', rfl⟩, hsize', hstays'⟩ := hv
  obtain ⟨⟨buffer'', sink'', rfl⟩, hsize'', hstays''⟩ := hw
  obtain rfl : slot = u.slot := hs
  have hbegin := buffer.size_le_append (lengthField 0)
  exact ⟨⟨buffer'', sink'', rfl⟩,
    Nat.le_trans hsize (Nat.le_trans hbegin (Nat.le_trans hsize' hsize'')),
    fun hk => (hstays'' hk).trans ((hstays' hk).trans (hstays hk))⟩

end Writer

/-! ## Tokens -/

/-- The part is a call of the grammar. A fault is none. -/
def Part.Spells : Part → Token → Prop
  | call (.beginContainer _ shape), token => token = .begins shape
  | call (.endContainer shape), token => token = .ends shape
  | call (.fieldName _), token => token = .name
  | call (.write ..), token => token = .scalar
  | _, _ => False

/-- What may still come in a container that expects `e`. -/
def Continues (shape : Shape) : Expectation → List Token → Prop
  | .value, tokens => shape = .document ∧ ∃ a b, tokens = a ++ b ∧ Derives .value a ∧
      Derives (.content .document) b
  | e, tokens => e = shape.expectation ∧ Derives (.content shape) tokens

theorem continues_nothing (shape : Shape) : Continues shape shape.expectation [] := by
  cases shape with
  | document => exact ⟨rfl, .nothing .document⟩
  | array => exact ⟨rfl, .nothing .array⟩

theorem Continues.content {shape : Shape} {tokens : List Token}
    (h : Continues shape shape.expectation tokens) : Derives (.content shape) tokens := by
  cases shape with
  | document => exact h.2
  | array => exact h.2

/-- After a name comes its value. -/
theorem Continues.name {shape : Shape} {tokens : List Token} (h : Continues shape .value tokens) :
    Continues shape .name (.name :: tokens) := by
  obtain ⟨rfl, a, b, rfl, ha, hb⟩ := h
  exact ⟨rfl, .field ha hb⟩

/-- A value is due after a name, or comes as an element. -/
theorem Continues.value {shape : Shape} {activity : Activity} {e next : Expectation}
    {rest : List Expectation} {a b : List Token}
    (he : Expectation.admitValue .container activity (e :: rest) = .ok (next :: rest))
    (ha : Derives .value a) (h : Continues shape next b) : Continues shape e (a ++ b) := by
  cases e with
  | name => cases he
  | value =>
    cases he
    obtain ⟨hs, hb⟩ := h
    cases shape with
    | document => exact ⟨rfl, a, b, rfl, ha, hb⟩
    | array => cases hs
  | element =>
    cases he
    obtain ⟨hs, hb⟩ := h
    cases shape with
    | document => cases hs
    | array => exact ⟨rfl, .item ha hb⟩

namespace Action

open Writer (Consistent)

variable {a b : Action Unit} {ps qs : List Part}

/-- Where the action goes well, it has written one value, which the parts spell. -/
def WritesValue (a : Action Unit) (parts : List Part) : Prop :=
  ∀ w w' : Writer, w.Consistent → a.run w = .ok () w' → w'.Consistent ∧ w.WroteValue w' ∧
    ∃ tokens, List.Forall₂ Part.Spells parts tokens ∧ Derives .value tokens

/-- Where the action goes well in a container, it has changed nothing outside of it, and
its parts spell what leads to the end of the container. -/
def WritesContent (a : Action Unit) (parts : List Part) : Prop :=
  ∀ (w w' : Writer) e rest, w.Consistent → w.expectations = e :: rest → a.run w = .ok () w' →
    w'.Consistent ∧ w.Within w' ∧ ∀ shape : Shape, w'.expectations = shape.expectation :: rest →
      ∃ tokens, List.Forall₂ Part.Spells parts tokens ∧ Continues shape e tokens

theorem writesContent_nothing : WritesContent (pure ()) [] := by
  intro w w' e rest hc he hrun
  cases hrun
  refine ⟨hc, hc.within he, fun shape hs => ⟨[], .nil, ?_⟩⟩
  obtain rfl : shape.expectation = e := (List.cons.inj (hs.symm.trans he)).1
  exact continues_nothing shape

theorem writesValue_raise (cause : Cause) (parts : List Part) :
    WritesValue (raise cause) parts := by
  intro w w' _ hrun
  cases hrun

theorem writesValue_write (value : Scalar) : WritesValue (write .direct value) [.scalar value] := by
  intro w w' hc hrun
  have hconsistent := (consistent_step (.write value.activity value) w hc).of_ok hrun
  obtain ⟨slot, u, htake, hwrite⟩ := run_andThen_eq_ok hrun
  obtain ⟨expectations, ha, hu⟩ := extends_of_takePosition hc htake
  exact ⟨hconsistent, ⟨expectations, Expectation.admitValue_container ha _,
    hu.trans (extends_of_writeTo hwrite)⟩, [.scalar], .cons rfl .nil, .scalar⟩

/-- A value, and then what comes after it in the same container. -/
theorem WritesValue.andThen (ha : WritesValue a ps) (hb : WritesContent b qs) :
    WritesContent (do a; b) (ps ++ qs) := by
  intro w w' e rest hc he hrun
  obtain ⟨_, u, hfirst, hrest⟩ := run_andThen_eq_ok hrun
  obtain ⟨hcu, hvalue, s, hs, hsv⟩ := ha w u hc hfirst
  obtain ⟨hwithin, next, hnext⟩ := hvalue.within hc he
  obtain ⟨hcw, hwithin', hcontent⟩ := hb u w' next rest hcu hnext hrest
  refine ⟨hcw, hwithin.trans hwithin', fun shape hshape => ?_⟩
  obtain ⟨t, ht, htc⟩ := hcontent shape hshape
  obtain ⟨expectations, hadmit, hu⟩ := hvalue
  obtain rfl : expectations = next :: rest := hu.expectations.symm.trans hnext
  rw [he] at hadmit
  exact ⟨s ++ t, List.rel_append hs ht, .value hadmit hsv htc⟩

/-- A name, and then what comes after it in the same document. -/
theorem WritesContent.named (hb : WritesContent b qs) (name : String) :
    WritesContent (do fieldName name; b) (.name name :: qs) := by
  intro w w' e rest hc he hrun
  obtain ⟨_, u, hfirst, hrest⟩ := run_andThen_eq_ok hrun
  have hcu := (consistent_fieldName name w hc).of_ok hfirst
  obtain ⟨outer, hname, hu⟩ := extends_of_fieldName hfirst
  obtain ⟨c, containers, hcs, -⟩ := hc.exists_cons he
  obtain ⟨rfl, rfl⟩ := List.cons.inj (he.symm.trans hname)
  have hwithin : w.Within u := by
    refine ⟨.value, c, some w.buffer.size, ?_⟩
    rw [he, List.tail_cons, show c :: w.containers.tail = w.containers by rw [hcs, List.tail_cons]]
    exact hu
  obtain ⟨hcw, hwithin', hcontent⟩ := hb u w' .value rest hcu hu.expectations hrest
  refine ⟨hcw, hwithin.trans hwithin', fun shape hshape => ?_⟩
  obtain ⟨t, ht, htc⟩ := hcontent shape hshape
  exact ⟨.name :: t, .cons rfl ht, htc.name⟩

/-- A container with its content is one value. -/
theorem WritesContent.container (hb : WritesContent b qs) (shape : Shape) :
    WritesValue (do beginContainer .direct shape; b; endContainer shape)
      (Part.container shape qs) := by
  intro w w' hc hrun
  obtain ⟨_, u, hbegin, hrest⟩ := run_andThen_eq_ok hrun
  obtain ⟨_, v, hcontent, hend⟩ := run_andThen_eq_ok hrest
  have hcu := (consistent_step (.begin .container shape.activity shape) w hc).of_ok hbegin
  obtain ⟨slot, t, htake, hopen⟩ := run_andThen_eq_ok hbegin
  obtain ⟨expectations, ha, ht⟩ := extends_of_takePosition hc htake
  obtain ⟨t', ht', rfl⟩ := extends_of_openAt hopen
  have hopened := ht.trans ht'
  obtain ⟨hcv, hwithin, htokens⟩ := hb _ v shape.expectation t'.expectations hcu rfl hcontent
  obtain ⟨rest, c, containers, he, hcs, hw⟩ := extends_of_endContainer hend
  have hcw := ((settled_endContainer hcv shape).of_ok hend)
  have hrest : rest = t'.expectations := by
    have htail := hwithin.expectations
    rw [he] at htail
    exact htail
  have hcontainers : containers = t'.containers := by
    have htail := hwithin.containers
    rw [hcs] at htail
    exact htail
  subst hrest hcontainers
  obtain ⟨tokens, hspells, hcontinues⟩ := htokens shape he
  refine ⟨hcw.consistent, ⟨expectations, Expectation.admitValue_activity ha _, ?_⟩, ?_⟩
  · exact hopened.inside hwithin hw hcw.slotless
  · have hend : Part.Spells (.call (.endContainer shape)) (.ends shape) := rfl
    exact ⟨.begins shape :: (tokens ++ [.ends shape]),
      .cons rfl (List.rel_append hspells (.cons hend .nil)),
      .nested (.container hcontinues.content)⟩

end Action

/-! ## Data -/

namespace Datum

open BsonWriter.Action

/-- Only a scope goes on with fields of a document that is open already. -/
theorem inside_ne_fields {reading : Reading} (hr : reading ≠ .fields) (name : String) :
    reading.inside name ≠ .fields := by
  unfold Reading.inside
  split
  · exact Reading.noConfusion
  · split
    · exact Reading.noConfusion
    · exact hr

theorem writesValue_writeInteger (reading : Reading) (v : TypedInteger) :
    WritesValue (writeInteger reading v) [integerPart reading v] := by
  unfold writeInteger integerPart
  split
  · exact writesValue_write _
  · exact writesValue_write _

theorem writesValue_writeText (reading : Reading) (s : String) :
    WritesValue (writeText reading s) [textPart reading s] := by
  unfold writeText textPart
  split
  · cases ObjectId.parse s with
    | ok id => exact writesValue_write _
    | error fault => exact writesValue_raise _ _
  · exact writesValue_write _

/-- A key, and then what comes after it. A datum that is no key stops it. -/
theorem writesContent_key {rest : Action Unit} {qs : List Part} (h : WritesContent rest qs)
    (d : Datum) : WritesContent (do d.writeKey; rest) (d.keyPart :: qs) := by
  unfold writeKey keyPart
  cases d.keyText with
  | ok key => exact h.named key
  | error cause =>
    intro w w' e es _ _ hrun
    cases hrun

/-- A document of one field around a value. -/
theorem writesValue_alternative {inner : Action Unit} {content : List Part}
    (h : WritesValue inner content) (name : String) :
    WritesValue (do beginDocument; fieldName name; inner; endDocument)
      (Part.container .document (.name name :: content)) := by
  have hd := ((h.andThen writesContent_nothing).named name).container .document
  rw [bind_assoc, bind_pure, List.append_nil] at hd
  exact hd

mutual

/-- A datum that is written without an error is one value. -/
theorem writesValue_datum {reading : Reading} (hr : reading ≠ .fields) :
    (d : Datum) → WritesValue (d.write reading) (d.parts reading)
  | boolean _ | single _ | double _ | bytes _ | empty _ | audience => writesValue_write _
  | integer v => writesValue_writeInteger reading v
  | character c => writesValue_writeText reading c.toString
  | text s => writesValue_writeText reading s
  | choice name => writesValue_writeText reading name
  | refusal _ => writesValue_raise _ _
  | present d => by
    rw [write, parts]
    exact writesValue_datum hr d
  | wrapper name d => by
    rw [write, parts]
    exact writesValue_datum (inside_ne_fields hr name) d
  | tagged _ name d => by
    rw [write, parts]
    exact writesValue_alternative (writesValue_datum Reading.noConfusion d) name
  | sequence _ items => by
    rw [write, parts]
    exact (writesContent_items items).container .array
  | taggedSequence _ name items => by
    rw [write, parts]
    have h := writesValue_alternative ((writesContent_items items).container .array) name
    simp only [bind_assoc] at h
    exact h
  | map steps => by
    rw [write, parts, if_neg hr, if_neg hr]
    exact (writesContent_steps steps).container .document
  | record _ fields => by
    rw [write, parts, if_neg hr, if_neg hr]
    exact (writesContent_fields fields).container .document
  | taggedRecord _ name fields => by
    rw [write, parts]
    have h := writesValue_alternative ((writesContent_fields fields).container .document) name
    simp only [bind_assoc] at h
    exact h

theorem writesContent_items :
    (items : List Datum) → WritesContent (writeItems items) (itemParts items)
  | [] => writesContent_nothing
  | d :: rest => by
    rw [writeItems, itemParts]
    exact (writesValue_datum Reading.noConfusion d).andThen (writesContent_items rest)

/-- The keys and values of a map may come in any order. Those that go well alternate. -/
theorem writesContent_steps :
    (steps : List (MapStep × Datum)) → WritesContent (writeSteps steps) (stepParts steps)
  | [] => writesContent_nothing
  | (.key, d) :: rest => by
    rw [writeSteps, stepParts]
    exact writesContent_key (writesContent_steps rest) d
  | (.value, d) :: rest => by
    rw [writeSteps, stepParts]
    exact (writesValue_datum Reading.noConfusion d).andThen (writesContent_steps rest)

theorem writesContent_fields :
    (fields : List (String × Datum)) → WritesContent (writeFields fields) (fieldParts fields)
  | [] => writesContent_nothing
  | (name, d) :: rest => by
    rw [writeFields, fieldParts]
    exact ((writesValue_datum Reading.noConfusion d).andThen (writesContent_fields rest)).named name

end

end Datum

end BsonWriter
