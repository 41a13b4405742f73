import BsonWriter.Proofs.Datum.Image
import BsonWriter.Proofs.Tree.Reading

/-!
The document of a datum. A session of its own writes a datum exactly if the datum holds
other data and is sound, and what it then delivers is one document, from which the strict
reader gets the image of the datum back (`one_document_or_error`).
-/

namespace BsonWriter

open BsonWriter.Action
open WireValue (content payload readDocument readLength)

/-! ## What has been written is sound -/

/-- A running session that replaces no characters. -/
structure Writer.Plain (w : Writer) : Prop where
  consistent : w.Consistent
  running : w.phase = .running
  escapes : w.escapes = none

namespace Writer.Plain

variable {w w' : Writer}

/-- The state has kept its phase and its table. -/
theorem mono (h : w.Plain) (hc : w'.Consistent) {expectations : List Expectation}
    {containers : List Container} {slot : Option Nat}
    (hw : Extends { w with expectations, containers, slot } w') : w'.Plain := by
  obtain ⟨⟨buffer, sink, rfl⟩, -⟩ := hw
  exact ⟨hc, h.running, h.escapes⟩

theorem named (h : w.Plain) {name : String} (hrun : (fieldName name).run w = .ok () w') :
    w'.Plain ∧ '\x00' ∉ name.toList ∧
      ∃ rest, w.expectations = .name :: rest ∧ w'.expectations = .value :: rest := by
  obtain ⟨rest, he, hw⟩ := extends_of_fieldName hrun
  obtain ⟨-, key, -, hkey⟩ := fieldName_eq_ok h.running hrun
  refine ⟨h.mono ((consistent_fieldName name w h.consistent).of_ok hrun) hw, ?_, rest, he,
    hw.expectations⟩
  rw [h.escapes] at hkey
  obtain rfl : name = key := Option.some.inj (Option.filter_eq_some_iff.mp hkey).1
  exact notMem_of_writtenName hkey

theorem begun (h : w.Plain) {shape : Shape}
    (hrun : (beginContainer .direct shape).run w = .ok () w') :
    w'.Plain ∧ ∃ outer, w'.expectations = shape.expectation :: outer := by
  have hc := (consistent_step (.begin .container shape.activity shape) w h.consistent).of_ok hrun
  obtain ⟨slot, u, htake, hopen⟩ := run_andThen_eq_ok hrun
  obtain ⟨expectations, -, hu⟩ := extends_of_takePosition h.consistent htake
  obtain ⟨v, hv, rfl⟩ := extends_of_openAt hopen
  obtain ⟨⟨buffer, sink, rfl⟩, -⟩ := hu.trans hv
  exact ⟨⟨hc, h.running, h.escapes⟩, expectations, rfl⟩

/-- A key that has been written is a field name, and came where a name may come. -/
theorem keyed (h : w.Plain) {key : Datum} (hrun : key.writeKey.run w = .ok () w') :
    w'.Plain ∧ (∃ name, key.name? = some name ∧ '\x00' ∉ name.toList) ∧
      ∃ rest, w.expectations = .name :: rest ∧ w'.expectations = .value :: rest := by
  unfold Datum.writeKey at hrun
  cases hname : key.keyText with
  | error cause =>
    rw [hname] at hrun
    cases hrun
  | ok name =>
    rw [hname] at hrun
    obtain ⟨hw, hn, he⟩ := h.named hrun
    exact ⟨hw, ⟨name, (Datum.keyText_eq_ok key).mp hname, hn⟩, he⟩

theorem wrote (h : w.Plain) {reading : Reading} (hr : reading ≠ .fields) {d : Datum}
    (hrun : (d.write reading).run w = .ok () w') : w'.Plain ∧
      Expectation.admitValue .container .value w.expectations = .ok w'.expectations := by
  obtain ⟨hc, ⟨expectations, ha, hw⟩, -⟩ := Datum.writesValue_datum hr d w w' h.consistent hrun
  refine ⟨h.mono hc hw, ?_⟩
  rw [ha, ← show w'.expectations = expectations from hw.expectations]

end Writer.Plain

namespace Datum

/-- A document of one field that has been written has a field name and a value. -/
theorem alternative_eq_ok {w w' : Writer} (h : w.Plain) {name : String} {inner : Action Unit}
    (hrun : (do beginDocument; fieldName name; inner : Action Unit).run w = .ok () w') :
    '\x00' ∉ name.toList ∧ ∃ v : Writer, v.Plain ∧ inner.run v = .ok () w' := by
  obtain ⟨_, u, hbegin, hrun⟩ := run_andThen_eq_ok hrun
  obtain ⟨_, v, hname, hinner⟩ := run_andThen_eq_ok hrun
  obtain ⟨hv, hn, -⟩ := (h.begun hbegin).1.named hname
  exact ⟨hn, v, hv, hinner⟩

mutual

/-- A datum that has been written is sound. -/
theorem sound_of_write {w w' : Writer} {reading : Reading} (hr : reading ≠ .fields) :
    (d : Datum) → w.Plain → (d.write reading).run w = .ok () w' → d.Sound
  | boolean _, _, _ | integer _, _, _ | single _, _, _ | double _, _, _ | character _, _, _
  | text _, _, _ | bytes _, _, _ | empty _, _, _ | choice _, _, _ | audience, _, _ => trivial
  | refusal _, _, hrun => by cases hrun
  | present d, h, hrun => by
    rw [write] at hrun
    exact sound_of_write hr d h hrun
  | wrapper name d, h, hrun => by
    rw [write] at hrun
    exact sound_of_write (inside_ne_fields hr name) d h hrun
  | tagged _ name d, h, hrun => by
    rw [write] at hrun
    obtain ⟨hn, v, hv, hrun⟩ := alternative_eq_ok h hrun
    obtain ⟨_, x, hd, -⟩ := run_andThen_eq_ok hrun
    exact ⟨hn, sound_of_write Reading.noConfusion d hv hd⟩
  | sequence _ items, h, hrun => by
    rw [write] at hrun
    obtain ⟨_, u, hbegin, hrun⟩ := run_andThen_eq_ok hrun
    obtain ⟨_, v, hitems, -⟩ := run_andThen_eq_ok hrun
    exact sound_of_items items (h.begun hbegin).1 hitems
  | taggedSequence _ name items, h, hrun => by
    rw [write] at hrun
    obtain ⟨hn, v, hv, hrun⟩ := alternative_eq_ok h hrun
    obtain ⟨_, u, hbegin, hrun⟩ := run_andThen_eq_ok hrun
    obtain ⟨_, x, hitems, -⟩ := run_andThen_eq_ok hrun
    exact ⟨hn, sound_of_items items (hv.begun hbegin).1 hitems⟩
  | map steps, h, hrun => by
    rw [write, if_neg hr] at hrun
    obtain ⟨_, u, hbegin, hrun⟩ := run_andThen_eq_ok hrun
    obtain ⟨_, v, hsteps, hend⟩ := run_andThen_eq_ok hrun
    obtain ⟨hu, outer, he⟩ := h.begun hbegin
    obtain ⟨rest, -, -, hlast, -⟩ := @extends_of_endContainer _ _ .document hend
    exact sound_of_steps steps hu he hsteps hlast
  | record _ fields, h, hrun => by
    rw [write, if_neg hr] at hrun
    obtain ⟨_, u, hbegin, hrun⟩ := run_andThen_eq_ok hrun
    obtain ⟨_, v, hfields, -⟩ := run_andThen_eq_ok hrun
    exact sound_of_fields fields (h.begun hbegin).1 hfields
  | taggedRecord _ name fields, h, hrun => by
    rw [write] at hrun
    obtain ⟨hn, v, hv, hrun⟩ := alternative_eq_ok h hrun
    obtain ⟨_, u, hbegin, hrun⟩ := run_andThen_eq_ok hrun
    obtain ⟨_, x, hfields, -⟩ := run_andThen_eq_ok hrun
    exact ⟨hn, sound_of_fields fields (hv.begun hbegin).1 hfields⟩

theorem sound_of_items {w w' : Writer} : (items : List Datum) → w.Plain →
    (writeItems items).run w = .ok () w' → SoundItems items
  | [], _, _ => trivial
  | d :: rest, h, hrun => by
    rw [writeItems] at hrun
    obtain ⟨_, u, hd, hrest⟩ := run_andThen_eq_ok hrun
    exact ⟨sound_of_write Reading.noConfusion d h hd,
      sound_of_items rest (h.wrote Reading.noConfusion hd).1 hrest⟩

/-- Where a name may come next, the steps of a map that end in such a place again are
entries. -/
theorem sound_of_steps {w w' : Writer} {outer last : List Expectation} :
    (steps : List (MapStep × Datum)) → w.Plain → w.expectations = .name :: outer →
    (writeSteps steps).run w = .ok () w' → w'.expectations = .name :: last → SoundEntries steps
  | [], _, _, _, _ => trivial
  | (.value, d) :: _, h, he, hrun, _ => by
    rw [writeSteps] at hrun
    obtain ⟨_, u, hd, -⟩ := run_andThen_eq_ok hrun
    have ha := (h.wrote Reading.noConfusion hd).2
    rw [he] at ha
    cases ha
  | [(.key, key)], h, _, hrun, hlast => by
    rw [writeSteps, writeSteps] at hrun
    obtain ⟨_, u, hkey, hrun⟩ := run_andThen_eq_ok hrun
    cases hrun
    obtain ⟨-, -, rest, -, hu⟩ := h.keyed hkey
    rw [hu] at hlast
    cases hlast
  | (.key, key) :: (.key, next) :: _, h, _, hrun, _ => by
    rw [writeSteps, writeSteps] at hrun
    obtain ⟨_, u, hkey, hrun⟩ := run_andThen_eq_ok hrun
    obtain ⟨_, v, hnext, -⟩ := run_andThen_eq_ok hrun
    obtain ⟨hu, -, rest, -, heu⟩ := h.keyed hkey
    obtain ⟨-, -, rest', heu', -⟩ := hu.keyed hnext
    rw [heu] at heu'
    cases heu'
  | (.key, key) :: (.value, d) :: rest, h, _, hrun, hlast => by
    rw [writeSteps, writeSteps] at hrun
    obtain ⟨_, u, hkey, hrun⟩ := run_andThen_eq_ok hrun
    obtain ⟨_, v, hd, hrest⟩ := run_andThen_eq_ok hrun
    obtain ⟨hu, hname, outer', -, heu⟩ := h.keyed hkey
    obtain ⟨hv, ha⟩ := hu.wrote Reading.noConfusion hd
    rw [heu] at ha
    have hev : v.expectations = .name :: outer' := (Except.ok.inj ha).symm
    exact ⟨hname, sound_of_write Reading.noConfusion d hu hd,
      sound_of_steps rest hv hev hrest hlast⟩

theorem sound_of_fields {w w' : Writer} : (fields : List (String × Datum)) → w.Plain →
    (writeFields fields).run w = .ok () w' → SoundFields fields
  | [], _, _ => trivial
  | (name, d) :: rest, h, hrun => by
    rw [writeFields] at hrun
    obtain ⟨_, u, hname, hrun⟩ := run_andThen_eq_ok hrun
    obtain ⟨_, v, hd, hrest⟩ := run_andThen_eq_ok hrun
    obtain ⟨hu, hn, -⟩ := h.named hname
    exact ⟨hn, sound_of_write Reading.noConfusion d hu hd,
      sound_of_fields rest (hu.wrote Reading.noConfusion hd).1 hrest⟩

end

/-- Outside of all containers no scalar is written. -/
theorem not_write_scalar {w w' : Writer} (hc : w.Consistent) (he : w.expectations = [])
    {value : Scalar} : ¬(Action.write .direct value).run w = .ok () w' := by
  intro hrun
  obtain ⟨slot, u, htake, -⟩ := run_andThen_eq_ok hrun
  obtain ⟨expectations, ha, -⟩ := extends_of_takePosition hc htake
  rw [he] at ha
  cases ha

/-- What has been written outside of all containers holds other data. -/
theorem holdsData_of_write {w w' : Writer} (hc : w.Consistent) (he : w.expectations = [])
    {reading : Reading} : (d : Datum) → (d.write reading).run w = .ok () w' → d.bare.HoldsData
  | tagged .., _ | sequence .., _ | taggedSequence .., _ | map _, _ | record .., _
  | taggedRecord .., _ => trivial
  | present d, hrun => by
    rw [write] at hrun
    exact holdsData_of_write hc he d hrun
  | wrapper name d, hrun => by
    rw [write] at hrun
    exact holdsData_of_write hc he d hrun
  | boolean _, hrun | single _, hrun | double _, hrun | bytes _, hrun | empty _, hrun
  | audience, hrun => absurd hrun (not_write_scalar hc he)
  | integer v, hrun => by
    rw [write, writeInteger] at hrun
    split at hrun
    · exact absurd hrun (not_write_scalar hc he)
    · exact absurd hrun (not_write_scalar hc he)
  | character _, hrun | text _, hrun | choice _, hrun => by
    rw [write, writeText] at hrun
    split at hrun
    · split at hrun
      · exact absurd hrun (not_write_scalar hc he)
      · cases hrun
    · exact absurd hrun (not_write_scalar hc he)
  | refusal _, hrun => by cases hrun

/-! ## What is sound is written -/

theorem payload_of_fields {v : WireValue} {fields : Fields} (h : v.fields? = some fields) :
    v.payload = enclosed (content fields) := by
  cases v with
  | document | array =>
    cases h
    rw [payload]
  | double | string | binary | objectId | boolean | dateTime | null | regex | code | symbol
  | codeWithScope | int32 | timestamp | int64 => cases h

theorem readable_of_fields {v : WireValue} {fields : Fields} (h : v.fields? = some fields)
    (hv : v.Readable) : WireValue.ReadableFields fields := by
  cases v with
  | document | array =>
    cases h
    exact hv
  | double | string | binary | objectId | boolean | dateTime | null | regex | code | symbol
  | codeWithScope | int32 | timestamp | int64 => cases h

/-- Only a container stands for a document or an array. -/
theorem kind_of_fields {tree : Tree} {v : WireValue} {fields : Fields}
    (h : tree.wire? {} none = some v) (hf : v.fields? = some fields) : tree.kind = .container := by
  cases tree with
  | document | array => rfl
  | leaf value =>
    obtain hv | ⟨_, _, rfl, -⟩ | ⟨_, _, _, rfl, -⟩ := Scalar.image_cases h
    · cases v with
      | document | array => exact hv.elim
      | double | string | binary | objectId | boolean | dateTime | null | regex | code | symbol
      | codeWithScope | int32 | timestamp | int64 => cases hf
    · cases hf
    · cases hf
  | codeWithScope code scope =>
    rw [Tree.wire?] at h
    obtain ⟨text, -, h⟩ := Option.bind_eq_some_iff.mp h
    obtain ⟨fs, -, h⟩ := Option.bind_eq_some_iff.mp h
    cases h
    cases hf

/-- Outside of all containers a sound datum that stands for a document is written in full. -/
theorem run_serialize {w : Writer} (hw : w.Steady {} none) (he : w.expectations = [])
    (hc : w.containers = []) {d : Datum} (hg : d.Genuine) (hs : d.Sound) {fields : Fields}
    (hd : d.document? = some fields) (hl : (enclosed (content fields)).length < lengthBound) :
    (serialize d).run w = .ok () (w.put (enclosed (content fields))) ∧
      WireValue.ReadableFields fields := by
  obtain ⟨v, hv, hf⟩ := Option.bind_eq_some_iff.mp hd
  have hpayload := payload_of_fields hf
  obtain ⟨tree, hparts, hwire, hu⟩ := writesTree_datum d hg hs hv (by rw [hpayload]; exact hl)
  have ha : Admits tree.kind v.type w w := by
    rw [kind_of_fields hwire hf]
    exact admits_root hw.running he hc hw.slotless v.type
  have hcalls := succeeds_tree tree hwire ha hw (by rw [hpayload]; exact hl)
  refine ⟨?_, readable_of_fields hf (readable_tree tree hwire hu)⟩
  have hrun := Call.scopeOutcome_runScope false w tree.calls
  rw [Call.runScope_of_clean hcalls.1, Report.scopeOutcome,
    Call.scopeResult_of_clean hcalls.1, hcalls.2, hpayload] at hrun
  rw [show serialize d = Part.carryOut (d.parts .plain) from madeOf_datum .plain d, hparts,
    Part.carryOut_calls]
  exact hrun.symm

/-- The document of a datum comes about in a session of its own, which ends without a
complaint about what is open. -/
theorem toBytes_of_run {d : Datum} {bs : Bytes}
    (h : (serialize d).run {} = .ok () (Writer.put {} bs)) : d.toBytes {} = .ok bs := by
  have htakes : ({} : Sink).TakesAll := ⟨rfl, by decide, rfl⟩
  obtain ⟨w, hclose, hheld⟩ := @run_close (Writer.put {} bs) rfl rfl htakes
  have hrun : (serialize d >>= fun _ => close).run {} = .ok () w := by
    rw [run_andThen, h]
    exact hclose
  unfold toBytes
  dsimp only
  rw [show ({ options := {} } : Writer) = {} from rfl, hrun]
  dsimp only
  rw [hheld]
  rfl

theorem run_of_toBytes {d : Datum} {bs : Bytes} (h : d.toBytes {} = .ok bs) :
    ∃ w, (serialize d).run {} = .ok () w := by
  unfold toBytes at h
  dsimp only at h
  rw [run_andThen] at h
  cases hrun : (serialize d).run {} with
  | ok u w => exact ⟨w, rfl⟩
  | error e w =>
    rw [show ({ options := {} } : Writer) = {} from rfl, hrun] at h
    cases h

/-! ## The document of a datum -/

/-- What the datum stands for is shorter than a length field can say, if it can be written at
all. -/
def Fits (d : Datum) : Prop :=
  d.Sound → ∀ fields, d.document? = some fields → (enclosed (content fields)).length < lengthBound

end Datum

open Datum in
/-- A datum whose reserved wrappers are genuine and that fits is written in a session of its
own exactly if it holds other data and is sound: apart from its wrappers it is a sequence, a
map, a record or an alternative with data, nothing in it refuses to be written, every map
goes from keys to values in turn and ends after a value, keys are texts, characters, integers
or alternatives without data, and no field name holds a null character. The result is one
document, which says how many bytes it has, and from which the strict reader gets the image
of the datum: the entries in order, each under the text of its key. Integers have kept their
values. -/
theorem one_document_or_error {d : Datum} (hg : d.Genuine) (hl : d.Fits) :
    ((∃ bs, d.toBytes {} = .ok bs) ↔ d.bare.HoldsData ∧ d.Sound) ∧
      (∀ bs, d.toBytes {} = .ok bs → ∃ fields, d.document? = some fields ∧
        bs = enclosed (content fields) ∧ (∃ rest, readLength bs = some (bs.length, rest)) ∧
        readDocument bs = some (fields, [])) ∧
      ∀ v : TypedInteger, ∃ x, (integer v).image? = some x ∧ x.integer? = some v.value := by
  have hstart : ({} : Writer).Consistent := Writer.consistent_onStorage {} {} []
  have hsound : ∀ bs, d.toBytes {} = .ok bs → d.bare.HoldsData ∧ d.Sound := by
    intro bs hbs
    obtain ⟨w, hrun⟩ := run_of_toBytes hbs
    have hwrite := tracked_eq_ok hrun
    exact ⟨holdsData_of_write hstart rfl d hwrite,
      sound_of_write Reading.noConfusion d ⟨hstart, rfl, rfl⟩ hwrite⟩
  have hwrites : d.bare.HoldsData → d.Sound → ∃ fields, d.document? = some fields ∧
      WireValue.ReadableFields fields ∧ d.toBytes {} = .ok (enclosed (content fields)) := by
    intro hd hs
    obtain ⟨v, hv⟩ := exists_image d hg hs
    obtain ⟨fields, hf⟩ := exists_document d hg hv hd
    have hdocument : d.document? = some fields := Option.bind_eq_some_iff.mpr ⟨v, hv, hf⟩
    obtain ⟨hrun, hread⟩ := @run_serialize {} ⟨rfl, rfl, rfl, rfl, rfl⟩ rfl rfl d hg hs fields
      hdocument (hl hs fields hdocument)
    exact ⟨fields, hdocument, hread, toBytes_of_run hrun⟩
  refine ⟨⟨fun ⟨bs, hbs⟩ => hsound bs hbs, fun ⟨hd, hs⟩ => ?_⟩, fun bs hbs => ?_,
    integer_of_image⟩
  · obtain ⟨fields, -, -, hbytes⟩ := hwrites hd hs
    exact ⟨_, hbytes⟩
  · obtain ⟨hd, hs⟩ := hsound bs hbs
    obtain ⟨fields, hdocument, hread, hbytes⟩ := hwrites hd hs
    obtain rfl : enclosed (content fields) = bs := Except.ok.inj (hbytes.symm.trans hbs)
    have hlength := hl hs fields hdocument
    refine ⟨fields, hdocument, rfl, ⟨content fields ++ [0], ?_⟩, ?_⟩
    · rw [length_enclosed] at hlength ⊢
      rw [enclosed, List.append_assoc]
      exact WireValue.readLength_append hlength _
    · have h := WireValue.readDocument_enclosed hread hlength []
      rwa [List.append_nil] at h

/-- A map in a wrapper with a key that comes twice, an integer beyond 64 bits with a sign and
an object id. With another key at its end the map is not written. -/
theorem one_document_or_error_twice :
    let id := ObjectId.ofParts 1 2 3
    let large : TypedInteger := ⟨.nat64, 0x8000000000000000, by decide, by decide⟩
    let steps := [(MapStep.key, Datum.text "a"), (.value, .integer large),
      (.key, .present (.choice "a")), (.value, .sequence "sequence" [.ofObjectId id])]
    (∃ bs, (Datum.wrapper "Any" (.map steps)).toBytes {} = .ok bs ∧ bs.length = 55 ∧
      readDocument bs = some ([("a", .string "9223372036854775808"),
        ("a", .array [("0", .objectId 1 2 3)])], [])) ∧
      ∀ bs, (Datum.map (steps ++ [(.key, .character 'x')])).toBytes {} ≠ .ok bs := by
  intro id large steps
  let fields : Fields := [("a", .string "9223372036854775808"),
    ("a", .array [("0", .objectId 1 2 3)])]
  have hany : (Datum.wrapper "Any" (.map steps)).document? = some fields := by
    have hid : (Datum.ofObjectId id).image? = some (.objectId 1 2 3) := Datum.image_ofObjectId id
    have hlarge : (Datum.integerScalar large).wire? {} none =
        some (.string "9223372036854775808") := by
      have htext : Integer.text large.value = "9223372036854775808" := by decide +kernel
      rw [← htext]
      rfl
    have hmark : "Any" ≠ Datum.objectIdMark ∧ "Any" ≠ Datum.dateTimeMark := by decide
    rw [Datum.document?, Datum.image?, if_neg hmark.1, if_neg hmark.2]
    simp only [steps, Datum.image?, Datum.entryImages?, Datum.itemImages?, hid, hlarge]
    rfl
  have hgenuine : (Datum.wrapper "Any" (.map steps)).Genuine :=
    .inr (.inr ⟨by decide, by decide, trivial, ⟨.inl ⟨id, rfl⟩, trivial⟩, trivial⟩)
  have hsound : (Datum.wrapper "Any" (.map steps)).Sound :=
    ⟨⟨"a", rfl, by decide⟩, trivial, ⟨"a", rfl, by decide⟩, ⟨trivial, trivial⟩, trivial⟩
  have hfits : (Datum.wrapper "Any" (.map steps)).Fits := by
    intro _ fields' hf
    obtain rfl : fields = fields' := Option.some.inj (hany.symm.trans hf)
    decide
  obtain ⟨hiff, hread, -⟩ := one_document_or_error hgenuine hfits
  obtain ⟨bs, hbs⟩ := hiff.mpr ⟨trivial, hsound⟩
  obtain ⟨fields', hf, hlength, -, hdocument⟩ := hread bs hbs
  obtain rfl : fields = fields' := Option.some.inj (hany.symm.trans hf)
  refine ⟨⟨bs, hbs, by rw [hlength]; decide, hdocument⟩, fun bs hbs => ?_⟩
  have hopen : (Datum.map (steps ++ [(.key, .character 'x')])).Genuine :=
    ⟨trivial, ⟨.inl ⟨id, rfl⟩, trivial⟩, trivial⟩
  have hnot : ¬(Datum.map (steps ++ [(.key, .character 'x')])).Sound := fun h => h.2.2.2.2
  exact hnot ((one_document_or_error hopen fun h => absurd h hnot).1.mp ⟨bs, hbs⟩).2

end BsonWriter
