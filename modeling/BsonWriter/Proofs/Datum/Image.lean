import BsonWriter.Proofs.Datum.Serialization
import BsonWriter.Proofs.Tree.Encoding

/-!
What a datum stands for on the wire, said of the datum alone. The entries of a map come in
the order in which they are handed over, each under the text of its key, and nothing is
left out where a key comes twice. Where nothing in the datum stands in the way, its parts
are the calls of a tree with this image (`writesTree_datum`).
-/

namespace BsonWriter

open WireValue (content payload content_cons element)

/-- The integer that a value on the wire stands for, as a number or as its digits. -/
def WireValue.integer? : WireValue → Option Int
  | int32 x => some x.toInt
  | int64 x => some x.toInt
  | string s => Integer.parse? s
  | _ => none

/-- What a document or an array on the wire holds. -/
def WireValue.fields? : WireValue → Option Fields
  | document fields => some fields
  | array elements => some elements
  | _ => none

namespace Datum

/-! ## Names and images -/

/-- The field name that a datum stands for: a text, a character, the digits of an integer or
an alternative without data, also if it is a present value or in wrappers. -/
def name? : Datum → Option String
  | text s => some s
  | character c => some c.toString
  | integer v => some (Integer.text v.value)
  | choice name => some name
  | present d => d.name?
  | wrapper _ d => d.name?
  | _ => none

/-- What stands on the wire for the digits of an object id. -/
def objectIdImage? : Datum → Option WireValue
  | text s => (ObjectId.parse s).toOption.map fun id => .objectId id.time id.machine id.increment
  | _ => none

/-- What stands on the wire for the milliseconds of an instant. -/
def dateTimeImage? : Datum → Option WireValue
  | integer v => some (.dateTime (Int64.ofInt v.value))
  | _ => none

mutual

/-- What stands on the wire for a datum. -/
def image? : Datum → Option WireValue
  | boolean b => some (.boolean b)
  | integer v => (integerScalar v).wire? {} none
  | single x => some (.double x.toDouble.bits)
  | double x => some (.double x.bits)
  | character c => some (.string c.toString)
  | text s => some (.string s)
  | bytes bs => some (.binary BinarySubtype.generic.byte bs.length bs)
  | empty _ => some .null
  | present d => d.image?
  | wrapper name d =>
    if name = objectIdMark then d.objectIdImage?
    else if name = dateTimeMark then d.dateTimeImage?
    else d.image?
  | choice name => some (.string name)
  | tagged _ name d => d.image?.map fun v => .document [(name, v)]
  | sequence _ items => (itemImages? 0 items).map .array
  | taggedSequence _ name items =>
    (itemImages? 0 items).map fun elements => .document [(name, .array elements)]
  | map steps => (entryImages? steps).map .document
  | record _ fields => (fieldImages? fields).map .document
  | taggedRecord _ name fields =>
    (fieldImages? fields).map fun inner => .document [(name, .document inner)]
  | audience => some (.boolean false)
  | refusal _ => none

/-- The elements of a sequence from an index on. -/
def itemImages? (index : Nat) : List Datum → Option Fields
  | [] => some []
  | d :: rest => do
    let value ← d.image?
    let elements ← itemImages? (index + 1) rest
    return (index.repr, value) :: elements

/-- The entries of a map whose keys and values come in turn. -/
def entryImages? : List (MapStep × Datum) → Option Fields
  | [] => some []
  | (.key, key) :: (.value, d) :: rest => do
    let name ← key.name?
    let value ← d.image?
    let fields ← entryImages? rest
    return (name, value) :: fields
  | _ => none

def fieldImages? : List (String × Datum) → Option Fields
  | [] => some []
  | (name, d) :: rest => do
    let value ← d.image?
    let fields ← fieldImages? rest
    return (name, value) :: fields

end

/-- What the document holds that a datum stands for, if it stands for a document or an
array. -/
def document? (d : Datum) : Option Fields := d.image?.bind WireValue.fields?

/-! ## Which data have images -/

/-- A datum without the wrappers around it, present values included. -/
def bare : Datum → Datum
  | present d => d.bare
  | wrapper _ d => d.bare
  | d => d

/-- The datum is a sequence, a map, a record or an alternative with data. -/
def HoldsData : Datum → Prop
  | tagged .. | sequence .. | taggedSequence .. | map _ | record .. | taggedRecord .. => True
  | _ => False

mutual

/-- Nothing in the datum stands in the way of writing it: nothing refuses to be written, every
map starts with a key, goes from keys to values in turn and ends after a value, its keys are
field names, and no field name holds a null character. -/
def Sound : Datum → Prop
  | refusal _ => False
  | present d => d.Sound
  | wrapper _ d => d.Sound
  | tagged _ name d => '\x00' ∉ name.toList ∧ d.Sound
  | sequence _ items => SoundItems items
  | taggedSequence _ name items => '\x00' ∉ name.toList ∧ SoundItems items
  | map steps => SoundEntries steps
  | record _ fields => SoundFields fields
  | taggedRecord _ name fields => '\x00' ∉ name.toList ∧ SoundFields fields
  | _ => True

def SoundItems : List Datum → Prop
  | [] => True
  | d :: rest => d.Sound ∧ SoundItems rest

def SoundEntries : List (MapStep × Datum) → Prop
  | [] => True
  | (.key, key) :: (.value, d) :: rest =>
    (∃ name, key.name? = some name ∧ '\x00' ∉ name.toList) ∧ d.Sound ∧ SoundEntries rest
  | _ => False

def SoundFields : List (String × Datum) → Prop
  | [] => True
  | (name, d) :: rest => '\x00' ∉ name.toList ∧ d.Sound ∧ SoundFields rest

end

mutual

/-- The two reserved wrappers are around object ids and instants only. What is around a key
does not matter. -/
def Genuine : Datum → Prop
  | present d => d.Genuine
  | wrapper name d =>
    (∃ id, wrapper name d = ofObjectId id) ∨ (∃ t, wrapper name d = ofDateTime t) ∨
      (name ≠ objectIdMark ∧ name ≠ dateTimeMark ∧ d.Genuine)
  | tagged _ _ d => d.Genuine
  | sequence _ items => GenuineItems items
  | taggedSequence _ _ items => GenuineItems items
  | map steps => GenuineValues steps
  | record _ fields => GenuineFields fields
  | taggedRecord _ _ fields => GenuineFields fields
  | _ => True

def GenuineItems : List Datum → Prop
  | [] => True
  | d :: rest => d.Genuine ∧ GenuineItems rest

def GenuineValues : List (MapStep × Datum) → Prop
  | [] => True
  | (.key, _) :: rest => GenuineValues rest
  | (.value, d) :: rest => d.Genuine ∧ GenuineValues rest

def GenuineFields : List (String × Datum) → Prop
  | [] => True
  | (_, d) :: rest => d.Genuine ∧ GenuineFields rest

end

/-- A datum has the name that its writing as a key takes. -/
theorem keyText_eq_ok {name : String} : (d : Datum) → d.keyText = .ok name ↔ d.name? = some name
  | text _ | character _ | integer _ | choice _ => by
    rw [keyText, name?, Except.ok.injEq, Option.some.injEq]
  | present d => by
    rw [keyText, name?]
    exact keyText_eq_ok d
  | wrapper _ d => by
    rw [keyText, name?]
    exact keyText_eq_ok d
  | boolean _ | single _ | double _ | bytes _ | empty _ | tagged .. | sequence .. |
    taggedSequence .. | map _ | record .. | taggedRecord .. | audience | refusal _ =>
    ⟨nofun, nofun⟩

/-! ## Images of scalars -/

theorem image_ofObjectId (id : ObjectId) :
    (ofObjectId id).image? = some (.objectId id.time id.machine id.increment) := by
  rw [ofObjectId, image?, if_pos rfl, objectIdImage?, ObjectId.parse_hex]
  rfl

theorem image_ofDateTime (t : DateTime) : (ofDateTime t).image? = some (.dateTime t.millis) := by
  have hmark : dateTimeMark ≠ objectIdMark := by decide
  rw [ofDateTime, image?, if_neg hmark, if_pos rfl, dateTimeImage?]
  simp only [TypedInteger.ofInt64, Int64.ofInt_toInt]

/-- An integer of any size stands on the wire with its value. -/
theorem integer_of_integerWire (v : Int) :
    ∃ x, integerWire? none v = some x ∧ x.integer? = some v := by
  unfold integerWire?
  split
  · rename_i x h
    unfold Integer.toInt32? at h
    split at h <;> cases h
    rename_i hrange
    exact ⟨_, rfl, congrArg some (Int32.toInt_ofInt_of_le hrange.1 hrange.2)⟩
  · rename_i x _ h
    unfold Integer.toInt64? at h
    split at h <;> cases h
    rename_i hrange
    exact ⟨_, rfl, congrArg some (Int64.toInt_ofInt_of_le hrange.1 hrange.2)⟩
  · exact ⟨_, rfl, Integer.parse?_text v⟩

/-- An integer of a type stands on the wire with its value. -/
theorem integer_of_image (v : TypedInteger) :
    ∃ x, (integer v).image? = some x ∧ x.integer? = some v.value := by
  obtain ⟨type, value, hl, hg⟩ := v
  have hsmall : -0x80000000 ≤ value → value ≤ 0x7fffffff →
      (Int32.ofInt value).toInt = value := fun hl hg =>
    Int32.toInt_ofInt_of_le hl (Int.lt_add_one_of_le hg)
  have hlarge : -0x8000000000000000 ≤ value → value < 0x8000000000000000 →
      (Int64.ofInt value).toInt = value := Int64.toInt_ofInt_of_le
  rw [image?, integerScalar]
  cases type with
  | int8 | int16 | int32 | nat8 | nat16 =>
    simp only [IntegerType.least, IntegerType.greatest] at hl hg
    exact ⟨_, rfl, congrArg some (hsmall (by omega) (by omega))⟩
  | int64 | nat32 =>
    simp only [IntegerType.least, IntegerType.greatest] at hl hg
    exact ⟨_, rfl, congrArg some (hlarge (by omega) (by omega))⟩
  | nat64 =>
    simp only [IntegerType.least] at hl
    dsimp only
    split
    · rename_i hlt
      exact ⟨_, rfl, congrArg some (hlarge (by omega) hlt)⟩
    · exact integer_of_integerWire value
  | int128 | nat128 => exact integer_of_integerWire value

mutual

/-- A sound datum has an image. -/
theorem exists_image : (d : Datum) → d.Genuine → d.Sound → ∃ v, d.image? = some v
  | boolean _, _, _ | single _, _, _ | double _, _, _ | character _, _, _ | text _, _, _
  | bytes _, _, _ | empty _, _, _ | choice _, _, _ | audience, _, _ => ⟨_, rfl⟩
  | integer v, _, _ => by
    obtain ⟨x, hx, -⟩ := integer_of_image v
    exact ⟨x, hx⟩
  | present d, hg, hs => by
    rw [image?]
    exact exists_image d hg hs
  | wrapper name d, hg, hs => by
    obtain ⟨id, hid⟩ | ⟨t, ht⟩ | ⟨hid, ht, hd⟩ := hg
    · exact ⟨_, hid ▸ image_ofObjectId id⟩
    · exact ⟨_, ht ▸ image_ofDateTime t⟩
    · rw [image?, if_neg hid, if_neg ht]
      exact exists_image d hd hs
  | tagged _ _ d, hg, hs => by
    obtain ⟨v, hv⟩ := exists_image d hg hs.2
    exact ⟨_, by rw [image?, hv]; rfl⟩
  | sequence _ items, hg, hs => by
    obtain ⟨es, he⟩ := exists_itemImages items hg hs 0
    exact ⟨_, by rw [image?, he]; rfl⟩
  | taggedSequence _ _ items, hg, hs => by
    obtain ⟨es, he⟩ := exists_itemImages items hg hs.2 0
    exact ⟨_, by rw [image?, he]; rfl⟩
  | map steps, hg, hs => by
    obtain ⟨fs, hf⟩ := exists_entryImages steps hg hs
    exact ⟨_, by rw [image?, hf]; rfl⟩
  | record _ fields, hg, hs => by
    obtain ⟨fs, hf⟩ := exists_fieldImages fields hg hs
    exact ⟨_, by rw [image?, hf]; rfl⟩
  | taggedRecord _ _ fields, hg, hs => by
    obtain ⟨fs, hf⟩ := exists_fieldImages fields hg hs.2
    exact ⟨_, by rw [image?, hf]; rfl⟩
  | refusal _, _, hs => hs.elim

theorem exists_itemImages : (items : List Datum) → GenuineItems items → SoundItems items →
    (index : Nat) → ∃ es, itemImages? index items = some es
  | [], _, _, _ => ⟨_, rfl⟩
  | d :: rest, hg, hs, index => by
    obtain ⟨v, hv⟩ := exists_image d hg.1 hs.1
    obtain ⟨es, he⟩ := exists_itemImages rest hg.2 hs.2 (index + 1)
    exact ⟨_, by rw [itemImages?, hv, he]; rfl⟩

theorem exists_entryImages : (steps : List (MapStep × Datum)) → GenuineValues steps →
    SoundEntries steps → ∃ fs, entryImages? steps = some fs
  | [], _, _ => ⟨_, rfl⟩
  | (.key, key) :: (.value, d) :: rest, hg, hs => by
    obtain ⟨⟨name, hname, -⟩, hd, hrest⟩ := hs
    obtain ⟨v, hv⟩ := exists_image d hg.1 hd
    obtain ⟨fs, hf⟩ := exists_entryImages rest hg.2 hrest
    exact ⟨_, by rw [entryImages?, hname, hv, hf]; rfl⟩
  | [(.key, _)], _, hs | (.key, _) :: (.key, _) :: _, _, hs | (.value, _) :: _, _, hs => hs.elim

theorem exists_fieldImages : (fields : List (String × Datum)) → GenuineFields fields →
    SoundFields fields → ∃ fs, fieldImages? fields = some fs
  | [], _, _ => ⟨_, rfl⟩
  | (name, d) :: rest, hg, hs => by
    obtain ⟨v, hv⟩ := exists_image d hg.1 hs.2.1
    obtain ⟨fs, hf⟩ := exists_fieldImages rest hg.2 hs.2.2
    exact ⟨_, by rw [fieldImages?, hv, hf]; rfl⟩

end

/-! ## Trees -/

/-- A datum that holds data stands for a document or an array. -/
theorem exists_document {v : WireValue} : (d : Datum) → d.Genuine → d.image? = some v →
    d.bare.HoldsData → ∃ fields, v.fields? = some fields
  | present d, hg, h, hd => by
    rw [image?] at h
    exact exists_document d hg h hd
  | wrapper name d, hg, h, hd => by
    rw [bare] at hd
    obtain ⟨id, hid⟩ | ⟨t, ht⟩ | ⟨hid, ht, hg⟩ := hg
    · cases hid
      exact hd.elim
    · cases ht
      exact hd.elim
    · rw [image?, if_neg hid, if_neg ht] at h
      exact exists_document d hg h hd
  | tagged .., _, h, _ | sequence .., _, h, _ | taggedSequence .., _, h, _ | map _, _, h, _
  | record .., _, h, _ | taggedRecord .., _, h, _ => by
    rw [image?] at h
    obtain ⟨_, -, rfl⟩ := Option.map_eq_some_iff.mp h
    exact ⟨_, rfl⟩
  | boolean _, _, _, hd | integer _, _, _, hd | single _, _, _, hd | double _, _, _, hd
  | character _, _, _, hd | text _, _, _, hd | bytes _, _, _, hd | empty _, _, _, hd
  | choice _, _, _, hd | audience, _, _, hd | refusal _, _, _, hd => hd.elim

/-- The parts are the calls of a tree that clips no range and stands for the value on the
wire. -/
def WritesTree (parts : List Part) (v : WireValue) : Prop :=
  ∃ tree : Tree, parts = tree.calls.map .call ∧ tree.wire? {} none = some v ∧ tree.Unclipped

/-- The same for the fields of a document. -/
def WritesFields (parts : List Part) (fs : Fields) : Prop :=
  ∃ fields, parts = (Tree.fieldCalls fields).map .call ∧
    Tree.wireFields? {} none fields = some fs ∧ Tree.UnclippedFields fields

/-- The same for the elements of an array from an index on. -/
def WritesItems (index : Nat) (parts : List Part) (es : Fields) : Prop :=
  ∃ items, parts = (Tree.itemCalls items).map .call ∧
    Tree.wireItems? {} none index items = some es ∧ Tree.UnclippedItems items

theorem writesTree_leaf {value : Scalar} {v : WireValue} (h : value.wire? {} none = some v)
    (hu : value.Unclipped) : WritesTree [.scalar value] v := ⟨.leaf value, rfl, h, hu⟩

theorem unclipped_integerScalar (v : TypedInteger) : (integerScalar v).Unclipped := by
  obtain ⟨type, value, -, -⟩ := v
  cases type with
  | nat64 =>
    dsimp only [integerScalar]
    split <;> trivial
  | int8 | int16 | int32 | int64 | int128 | nat8 | nat16 | nat32 | nat128 => trivial

theorem WritesFields.document {parts : List Part} {fs : Fields} (h : WritesFields parts fs) :
    WritesTree (Part.container .document parts) (.document fs) := by
  obtain ⟨fields, rfl, hf, hu⟩ := h
  refine ⟨.document fields, ?_, by rw [Tree.wire?, hf]; rfl, hu⟩
  rw [Tree.calls, List.map_cons, List.map_append]
  rfl

theorem WritesItems.array {parts : List Part} {es : Fields} (h : WritesItems 0 parts es) :
    WritesTree (Part.container .array parts) (.array es) := by
  obtain ⟨items, rfl, he, hu⟩ := h
  refine ⟨.array items, ?_, by rw [Tree.wire?, he]; rfl, hu⟩
  rw [Tree.calls, List.map_cons, List.map_append]
  rfl

theorem writesFields_nothing : WritesFields [] [] := ⟨[], rfl, rfl, trivial⟩

theorem WritesTree.field {name : String} {ps qs : List Part} {v : WireValue} {fs : Fields}
    (hn : '\x00' ∉ name.toList) (hv : WritesTree ps v) (hf : WritesFields qs fs) :
    WritesFields (.name name :: (ps ++ qs)) ((name, v) :: fs) := by
  obtain ⟨tree, rfl, hv, hu⟩ := hv
  obtain ⟨fields, rfl, hf, hr⟩ := hf
  refine ⟨(name, tree) :: fields, ?_, ?_, hu, hr⟩
  · rw [Tree.fieldCalls, List.map_cons, List.map_append]
    rfl
  · rw [Tree.wireFields?, writtenName_plain hn, hv, hf]
    rfl

theorem WritesTree.item {index : Nat} {ps qs : List Part} {v : WireValue} {es : Fields}
    (hv : WritesTree ps v) (he : WritesItems (index + 1) qs es) :
    WritesItems index (ps ++ qs) ((index.repr, v) :: es) := by
  obtain ⟨tree, rfl, hv, hu⟩ := hv
  obtain ⟨items, rfl, he, hr⟩ := he
  refine ⟨tree :: items, ?_, ?_, hu, hr⟩
  · rw [Tree.itemCalls, List.map_append]
  · rw [Tree.wireItems?, writtenName_plain (notMem_repr index), hv, he]
    rfl

/-- A document of one field. -/
theorem WritesTree.alternative {name : String} {ps : List Part} {v : WireValue}
    (hn : '\x00' ∉ name.toList) (hv : WritesTree ps v) :
    WritesTree (Part.container .document (.name name :: ps)) (.document [(name, v)]) := by
  have h := (hv.field hn writesFields_nothing).document
  rwa [List.append_nil] at h

theorem length_payload_lt {name : String} {v : WireValue} {fs : Fields}
    (h : (content ((name, v) :: fs)).length < lengthBound) :
    v.payload.length < lengthBound ∧ (content fs).length < lengthBound := by
  rw [content_cons, element, List.length_append, List.length_cons, List.length_append] at h
  omega

theorem length_content_lt {fs : Fields} (h : (enclosed (content fs)).length < lengthBound) :
    (content fs).length < lengthBound := by
  rw [length_enclosed] at h
  omega

mutual

/-- The parts of a sound datum are the calls of a tree with its image. -/
theorem writesTree_datum {v : WireValue} : (d : Datum) → d.Genuine → d.Sound →
    d.image? = some v → v.payload.length < lengthBound → WritesTree (d.parts .plain) v
  | boolean _, _, _, h, _ | single _, _, _, h, _ | double _, _, _, h, _ | empty _, _, _, h, _
  | audience, _, _, h, _ | character _, _, _, h, _ | text _, _, _, h, _ | choice _, _, _, h, _ =>
    writesTree_leaf h trivial
  | integer v, _, _, h, _ => writesTree_leaf h (unclipped_integerScalar v)
  | bytes bs, _, _, h, hl => by
    cases h
    simp only [payload, List.length_append, List.length_cons] at hl
    refine writesTree_leaf ?_ trivial
    rw [Scalar.wire?, binaryWire?, if_pos (by omega)]
  | present d, hg, hs, h, hl => by
    rw [image?] at h
    rw [parts]
    exact writesTree_datum d hg hs h hl
  | wrapper name d, hg, hs, h, hl => by
    obtain ⟨id, hid⟩ | ⟨t, ht⟩ | ⟨hid, ht, hd⟩ := hg
    · rw [hid, image_ofObjectId] at h
      rw [hid, parts_ofObjectId]
      exact writesTree_leaf h trivial
    · rw [ht, image_ofDateTime] at h
      rw [ht, parts_ofDateTime]
      exact writesTree_leaf h trivial
    · rw [image?, if_neg hid, if_neg ht] at h
      rw [parts, Reading.inside, if_neg hid, if_neg ht]
      exact writesTree_datum d hd hs h hl
  | tagged _ name d, hg, hs, h, hl => by
    rw [image?] at h
    obtain ⟨v, hv, rfl⟩ := Option.map_eq_some_iff.mp h
    rw [payload] at hl
    have hinner := (length_payload_lt (length_content_lt hl)).1
    exact (writesTree_datum d hg hs.2 hv hinner).alternative hs.1
  | sequence _ items, hg, hs, h, hl => by
    rw [image?] at h
    obtain ⟨es, he, rfl⟩ := Option.map_eq_some_iff.mp h
    rw [payload] at hl
    exact (writesItems_items items hg hs he (length_content_lt hl)).array
  | taggedSequence _ name items, hg, hs, h, hl => by
    rw [image?] at h
    obtain ⟨es, he, rfl⟩ := Option.map_eq_some_iff.mp h
    rw [payload] at hl
    have harray := (length_payload_lt (length_content_lt hl)).1
    rw [payload] at harray
    exact (writesItems_items items hg hs.2 he (length_content_lt harray)).array.alternative hs.1
  | map steps, hg, hs, h, hl => by
    rw [image?] at h
    obtain ⟨fs, hf, rfl⟩ := Option.map_eq_some_iff.mp h
    rw [payload] at hl
    rw [parts, if_neg Reading.noConfusion]
    exact (writesFields_entries steps hg hs hf (length_content_lt hl)).document
  | record _ fields, hg, hs, h, hl => by
    rw [image?] at h
    obtain ⟨fs, hf, rfl⟩ := Option.map_eq_some_iff.mp h
    rw [payload] at hl
    rw [parts, if_neg Reading.noConfusion]
    exact (writesFields_fields fields hg hs hf (length_content_lt hl)).document
  | taggedRecord _ name fields, hg, hs, h, hl => by
    rw [image?] at h
    obtain ⟨fs, hf, rfl⟩ := Option.map_eq_some_iff.mp h
    rw [payload] at hl
    have hdocument := (length_payload_lt (length_content_lt hl)).1
    rw [payload] at hdocument
    exact (writesFields_fields fields hg hs.2 hf (length_content_lt hdocument)).document.alternative
      hs.1
  | refusal _, _, hs, _, _ => hs.elim

theorem writesItems_items {index : Nat} {es : Fields} : (items : List Datum) →
    GenuineItems items → SoundItems items → itemImages? index items = some es →
    (content es).length < lengthBound → WritesItems index (itemParts items) es
  | [], _, _, h, _ => by
    cases h
    exact ⟨[], rfl, rfl, trivial⟩
  | d :: rest, hg, hs, h, hl => by
    obtain ⟨v, hv, h⟩ := Option.bind_eq_some_iff.mp h
    obtain ⟨es, he, h⟩ := Option.bind_eq_some_iff.mp h
    cases h
    obtain ⟨hlv, hlr⟩ := length_payload_lt hl
    exact (writesTree_datum d hg.1 hs.1 hv hlv).item (writesItems_items rest hg.2 hs.2 he hlr)

theorem writesFields_entries {fs : Fields} : (steps : List (MapStep × Datum)) →
    GenuineValues steps → SoundEntries steps → entryImages? steps = some fs →
    (content fs).length < lengthBound → WritesFields (stepParts steps) fs
  | [], _, _, h, _ => by
    cases h
    exact writesFields_nothing
  | (.key, key) :: (.value, d) :: rest, hg, hs, h, hl => by
    obtain ⟨⟨name, hname, hn⟩, hd, hrest⟩ := hs
    obtain ⟨name', hname', h⟩ := Option.bind_eq_some_iff.mp h
    obtain rfl : name = name' := Option.some.inj (hname.symm.trans hname')
    obtain ⟨v, hv, h⟩ := Option.bind_eq_some_iff.mp h
    obtain ⟨fs, hf, h⟩ := Option.bind_eq_some_iff.mp h
    cases h
    obtain ⟨hlv, hlr⟩ := length_payload_lt hl
    rw [stepParts, stepParts, keyPart, (keyText_eq_ok key).mpr hname]
    exact (writesTree_datum d hg.1 hd hv hlv).field hn
      (writesFields_entries rest hg.2 hrest hf hlr)
  | [(.key, _)], _, hs, _, _ | (.key, _) :: (.key, _) :: _, _, hs, _, _
  | (.value, _) :: _, _, hs, _, _ => hs.elim

theorem writesFields_fields {fs : Fields} : (fields : List (String × Datum)) →
    GenuineFields fields → SoundFields fields → fieldImages? fields = some fs →
    (content fs).length < lengthBound → WritesFields (fieldParts fields) fs
  | [], _, _, h, _ => by
    cases h
    exact writesFields_nothing
  | (name, d) :: rest, hg, hs, h, hl => by
    obtain ⟨hn, hd, hrest⟩ := hs
    obtain ⟨v, hv, h⟩ := Option.bind_eq_some_iff.mp h
    obtain ⟨fs, hf, h⟩ := Option.bind_eq_some_iff.mp h
    cases h
    obtain ⟨hlv, hlr⟩ := length_payload_lt hl
    exact (writesTree_datum d hg.1 hd hv hlv).field hn (writesFields_fields rest hg.2 hrest hf hlr)

end

end Datum

end BsonWriter
