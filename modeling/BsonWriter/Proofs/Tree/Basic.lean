import BsonWriter.Proofs.Bytes.Reading
import BsonWriter.Proofs.Number.Text
import BsonWriter.Proofs.Wire.Value
import BsonWriter.Session

/-!
Documents as trees. A tree says which calls write it, depth first, and what then
stands on the wire: texts and names as the escape table turns them out, numbers
in the type they are reduced to. A tree has no image on the wire if one of its
texts cannot be written, that is if a marked character has no sequence or a name
or pattern holds a null character after substitution.
-/

namespace BsonWriter

/-- What can be written at one position: a scalar, a container, or code with the
fields of its scope. -/
inductive Tree
  | leaf (value : Scalar)
  | document (fields : List (String × Tree))
  | array (items : List Tree)
  | codeWithScope (code : String) (scope : List (String × Tree))

/-- A document or an array outside of all others. -/
inductive Root
  | document (fields : List (String × Tree))
  | array (items : List Tree)

def Root.tree : Root → Tree
  | document fields => .document fields
  | array items => .array items

/-! ## Calls -/

namespace Tree

mutual

/-- The calls that write a tree, directly at the current position. -/
def calls : Tree → List Call
  | leaf value => [.write .direct value]
  | document fields =>
    .beginContainer .direct .document :: (fieldCalls fields ++ [.endContainer .document])
  | array items =>
    .beginContainer .direct .array :: (itemCalls items ++ [.endContainer .array])
  | codeWithScope code scope => [.codeWithCalls .direct code false (fieldCalls scope)]

def fieldCalls : List (String × Tree) → List Call
  | [] => []
  | (name, tree) :: rest => .fieldName name :: (tree.calls ++ fieldCalls rest)

def itemCalls : List Tree → List Call
  | [] => []
  | tree :: rest => tree.calls ++ itemCalls rest

end

end Tree

/-- The calls that write a sequence of documents. -/
def Root.calls (forest : List Root) : List Call := forest.flatMap fun root => root.tree.calls

/-! ## Images -/

/-- A text after substitution, if it can be written. -/
def writtenText (table : Option EscapeTable) (s : String) : Option String :=
  (escape table s).toOption

/-- A name or pattern after substitution, if it can be written. -/
def writtenName (table : Option EscapeTable) (s : String) : Option String :=
  (writtenText table s).filter fun t => !t.toList.contains '\x00'

/-- What stands on the wire for binary data. The length is what the caller says,
and must fit its field. -/
def binaryWire? (subtype : BinarySubtype) (length : Nat) (data : Bytes) : Option WireValue :=
  if length < lengthBound then some (.binary subtype.byte length data) else none

/-- What stands on the wire for an integer of any size: the narrower of the two
integer types that holds it, else its digits. -/
def integerWire? (table : Option EscapeTable) (v : Int) : Option WireValue :=
  match Integer.toInt32? v, Integer.toInt64? v with
  | some x, _ => some (.int32 x)
  | none, some x => some (.int64 x)
  | none, none => (writtenText table (Integer.text v)).map .string

/-- What stands on the wire for a decimal: the double of its single, else its
double, and its text if neither is finite or `asText` asks for it. -/
def decimalWire? (table : Option EscapeTable) (asText : Bool) (d : Decimal) : Option WireValue :=
  if !asText && d.toSingle.isFinite then some (.double d.toSingle.toDouble.bits)
  else if !asText && d.toDouble.isFinite then some (.double d.toDouble.bits)
  else (writtenText table d.text).map .string

/-- What stands on the wire for a scalar. -/
def Scalar.wire? (options : Options) (table : Option EscapeTable) : Scalar → Option WireValue
  | string s => (writtenText table s).map .string
  | utf8String bs => (decodeUtf8? bs).map .string
  | rawText s => binaryWire? .generic (utf16 s).length (utf16 s)
  | binary subtype bs => binaryWire? subtype bs.length bs
  | binaryRange subtype bs offset length =>
    binaryWire? subtype length ((bs.drop offset).take length)
  | int32 x => some (.int32 x)
  | int64 x => some (.int64 x)
  | single x => some (.double x.toDouble.bits)
  | double x => some (.double x.bits)
  | boolean b => some (.boolean b)
  | null => some .null
  | integer v => integerWire? table v
  | decimal d => decimalWire? table options.decimalsAsText d
  | numberText s => (writtenText table s).map .string
  | dateTime t => some (.dateTime t.millis)
  | objectId id => some (.objectId id.time id.machine id.increment)
  | regex r => do
    let pattern ← writtenName table r.pattern
    let flags ← writtenName table r.flags.letters
    return .regex pattern flags
  | timestamp t => some (.timestamp t.increment t.time)
  | symbol s => (writtenText table s).map .symbol
  | code s => (writtenText table s).map .code

/-- A range lies within its data. -/
def Scalar.Unclipped : Scalar → Prop
  | binaryRange _ bs offset length => length ≤ bs.length - offset
  | _ => True

instance (value : Scalar) : Decidable value.Unclipped := by
  unfold Scalar.Unclipped
  cases value <;> infer_instance

namespace Tree

variable (options : Options) (table : Option EscapeTable)

mutual

/-- What stands on the wire for a tree. -/
def wire? : Tree → Option WireValue
  | leaf value => value.wire? options table
  | document fields => (wireFields? fields).map .document
  | array items => (wireItems? 0 items).map .array
  | codeWithScope code scope => do
    let text ← writtenText table code
    let fields ← wireFields? scope
    return .codeWithScope text fields

def wireFields? : List (String × Tree) → Option Fields
  | [] => some []
  | (name, tree) :: rest => do
    let key ← writtenName table name
    let value ← tree.wire?
    let fields ← wireFields? rest
    return (key, value) :: fields

/-- The elements of an array from an index on; their names are the indexes. -/
def wireItems? (index : Nat) : List Tree → Option Fields
  | [] => some []
  | tree :: rest => do
    let key ← writtenName table index.repr
    let value ← tree.wire?
    let elements ← wireItems? (index + 1) rest
    return (key, value) :: elements

end

mutual

/-- All ranges in a tree lie within their data. -/
def Unclipped : Tree → Prop
  | leaf value => value.Unclipped
  | document fields => UnclippedFields fields
  | array items => UnclippedItems items
  | codeWithScope _ scope => UnclippedFields scope

def UnclippedFields : List (String × Tree) → Prop
  | [] => True
  | (_, tree) :: rest => tree.Unclipped ∧ UnclippedFields rest

def UnclippedItems : List Tree → Prop
  | [] => True
  | tree :: rest => tree.Unclipped ∧ UnclippedItems rest

end

end Tree

namespace Root

variable (options : Options) (table : Option EscapeTable)

/-- What stands on the wire for a document or an array outside of all others.
There is no type byte that tells the two apart. -/
def wire? : Root → Option Fields
  | document fields => Tree.wireFields? options table fields
  | array items => Tree.wireItems? options table 0 items

def wires? (forest : List Root) : Option (List Fields) := forest.mapM (wire? options table)

end Root

/-! ## What the image of a scalar can be -/

/-- A value that holds neither names nor other values nor data. -/
def WireValue.IsSimple : WireValue → Prop
  | document _ | array _ | binary .. | regex .. | codeWithScope .. => False
  | _ => True

/-- Without a table a name is written as it is. -/
theorem writtenName_plain {name : String} (h : '\x00' ∉ name.toList) :
    writtenName none name = some name := by
  rw [writtenName, show writtenText none name = some name from rfl, Option.filter]
  simp [h]

theorem notMem_of_writtenName {table : Option EscapeTable} {s t : String}
    (h : writtenName table s = some t) : '\x00' ∉ t.toList := by
  have h2 := (Option.filter_eq_some_iff.mp h).2
  simpa using h2

/-- The image of a scalar is simple, a regex without null characters, or binary
data that is as long as it says if the scalar is not a clipped range. -/
theorem Scalar.image_cases {options : Options} {table : Option EscapeTable} {value : Scalar}
    {v : WireValue} (h : value.wire? options table = some v) :
    v.IsSimple ∨
      (∃ pattern flags, v = .regex pattern flags ∧ '\x00' ∉ pattern.toList ∧
        '\x00' ∉ flags.toList) ∨
      ∃ subtype length data, v = .binary subtype length data ∧
        (value.Unclipped → data.length = length) := by
  have hmap : ∀ {α : Type} {o : Option α} {f : α → WireValue}, o.map f = some v →
      (∀ x, (f x).IsSimple) → v.IsSimple := by
    intro α o f ho hf
    obtain ⟨x, -, rfl⟩ := Option.map_eq_some_iff.mp ho
    exact hf x
  have hbinary : ∀ {subtype length data}, binaryWire? subtype length data = some v →
      v = .binary subtype.byte length data := by
    intro subtype length data hb
    unfold binaryWire? at hb
    split at hb <;> cases hb
    rfl
  cases value with
  | string | numberText | symbol | code => exact Or.inl (hmap h fun _ => trivial)
  | utf8String => exact Or.inl (hmap h fun _ => trivial)
  | rawText | binary => exact Or.inr (Or.inr ⟨_, _, _, hbinary h, fun _ => rfl⟩)
  | binaryRange subtype bs offset length =>
    refine Or.inr (Or.inr ⟨_, _, _, hbinary h, fun hu => ?_⟩)
    rw [List.length_take, List.length_drop]
    exact Nat.min_eq_left hu
  | integer n =>
    rw [wire?, integerWire?] at h
    split at h
    · cases h
      exact Or.inl trivial
    · cases h
      exact Or.inl trivial
    · exact Or.inl (hmap h fun _ => trivial)
  | decimal d =>
    rw [wire?, decimalWire?] at h
    split at h
    · cases h
      exact Or.inl trivial
    · split at h
      · cases h
        exact Or.inl trivial
      · exact Or.inl (hmap h fun _ => trivial)
  | regex r =>
    obtain ⟨pattern, hp, h⟩ := Option.bind_eq_some_iff.mp h
    obtain ⟨flags, hf, h⟩ := Option.bind_eq_some_iff.mp h
    cases h
    exact Or.inr (Or.inl ⟨_, _, rfl, notMem_of_writtenName hp, notMem_of_writtenName hf⟩)
  | int32 | int64 | single | double | boolean | null | dateTime | objectId | timestamp =>
    cases h
    exact Or.inl trivial

/-! ## Payloads of what can be written -/

theorem escape_of_writtenText {table : Option EscapeTable} {s t : String}
    (h : writtenText table s = some t) : escape table s = .ok t := by
  unfold writtenText at h
  cases he : escape table s with
  | error c => rw [he] at h; cases h
  | ok u => rw [he] at h; cases h; rfl

theorem cstring_of_writtenName {table : Option EscapeTable} {s t : String}
    (h : writtenName table s = some t) : Payload.cstring table s = ⟨terminated t, none⟩ := by
  have he := escape_of_writtenText (Option.filter_eq_some_iff.mp h).1
  have hn := notMem_of_writtenName h
  rw [Payload.cstring, Payload.escaped, he]
  simp [Payload.cstringVerbatim, hn, terminated, endOfString]

theorem sized_utf8 {s : String} (h : (utf8 s).length + 1 < lengthBound) :
    Payload.sized (utf8 s) = ⟨prefixed s, none⟩ := by
  rw [Payload.sized, if_pos h, prefixed, terminated, List.append_assoc]
  rfl

theorem sized_of_length {s : String} (h : (prefixed s).length < lengthBound) :
    Payload.sized (utf8 s) = ⟨prefixed s, none⟩ := by
  rw [length_prefixed] at h
  exact sized_utf8 (by omega)

theorem string_of_writtenText {table : Option EscapeTable} {s t : String}
    (h : writtenText table s = some t) (hl : (prefixed t).length < lengthBound) :
    Payload.string table s = ⟨prefixed t, none⟩ := by
  rw [Payload.string, Payload.escaped, escape_of_writtenText h]
  exact sized_of_length hl

/-- What is written without a fault is a text after its length. -/
theorem writtenText_of_string {table : Option EscapeTable} {s : String}
    (h : (Payload.string table s).failure = none) :
    ∃ t, writtenText table s = some t ∧ Payload.string table s = ⟨prefixed t, none⟩ := by
  rw [Payload.string, Payload.escaped] at h ⊢
  cases he : escape table s with
  | error c => simp [he, Payload.fault] at h
  | ok t =>
    rw [he] at h
    refine ⟨t, by rw [writtenText, he]; rfl, ?_⟩
    by_cases hl : (utf8 t).length + 1 < lengthBound
    · exact sized_utf8 hl
    · simp [Payload.sized, hl, Payload.fault] at h

theorem bitLength_lt_iff (v : Int) (n : Nat) :
    Integer.bitLength v < n + 1 ↔ -2 ^ n ≤ v ∧ v < 2 ^ n := by
  have hp : ((2 ^ n : Nat) : Int) = 2 ^ n := by push_cast; rfl
  have hpos : 0 < 2 ^ n := Nat.two_pow_pos n
  have key : ∀ m : Nat, (if m = 0 then 0 else m.log2 + 1) < n + 1 ↔ m < 2 ^ n := by
    intro m
    split
    · omega
    · rename_i hm
      rw [Nat.add_lt_add_iff_right, Nat.log2_lt hm]
  unfold Integer.bitLength
  rw [key]
  split <;> omega

/-- An integer is reduced to what its range says. -/
theorem Primitive.ofInteger_eq (v : Int) : ofInteger v =
    match Integer.toInt32? v, Integer.toInt64? v with
    | some x, _ => int32 x
    | none, some x => int64 x
    | none, none => string (Integer.text v) := by
  have h32 := bitLength_lt_iff v 31
  have h64 := bitLength_lt_iff v 63
  unfold ofInteger Integer.toInt32? Integer.toInt64?
  by_cases h1 : Integer.bitLength v < 32
  · rw [if_pos h1, if_pos (by have := h32.mp h1; omega)]
  · have hn : ¬(-0x80000000 ≤ v ∧ v < 0x80000000) := fun hr => h1 (h32.mpr (by omega))
    rw [if_neg h1, if_neg hn]
    by_cases h2 : Integer.bitLength v < 64
    · rw [if_pos h2, if_pos (by have := h64.mp h2; omega)]
    · have hn : ¬(-0x8000000000000000 ≤ v ∧ v < 0x8000000000000000) :=
        fun hr => h2 (h64.mpr (by omega))
      rw [if_neg h2, if_neg hn]

/-- A payload is written in full, under its type. -/
def Primitive.Writes (table : Option EscapeTable) (p : Primitive) (v : WireValue) : Prop :=
  p.payload table = ⟨v.payload, none⟩ ∧ p.type = v.type

namespace Primitive

variable {table : Option EscapeTable} {v : WireValue}

theorem writes_string {s : String} (h : (writtenText table s).map .string = some v)
    (hl : v.payload.length < lengthBound) : (string s).Writes table v := by
  obtain ⟨t, ht, rfl⟩ := Option.map_eq_some_iff.mp h
  rw [WireValue.payload] at hl
  rw [Writes, payload, WireValue.payload]
  exact ⟨string_of_writtenText ht hl, rfl⟩

theorem writes_binary {subtype : BinarySubtype} {length : Nat} {data : Bytes}
    (h : binaryWire? subtype length data = some v) :
    (binary subtype length data).Writes table v := by
  unfold binaryWire? at h
  split at h
  · rename_i hlen
    cases h
    rw [Writes, payload, Payload.binary, if_pos hlen]
    exact ⟨rfl, rfl⟩
  · cases h

theorem writes_utf8String {bs : Bytes} (h : (decodeUtf8? bs).map .string = some v)
    (hl : v.payload.length < lengthBound) : (utf8String bs).Writes table v := by
  obtain ⟨t, ht, rfl⟩ := Option.map_eq_some_iff.mp h
  rw [WireValue.payload] at hl
  rw [Writes, payload, WireValue.payload, eq_utf8_of_decodeUtf8? ht, Payload.utf8String,
    if_pos ((isUtf8_iff _).mpr ⟨t, rfl⟩)]
  exact ⟨sized_of_length hl, rfl⟩

theorem writes_ofInteger {n : Int} (h : integerWire? table n = some v)
    (hl : v.payload.length < lengthBound) : (ofInteger n).Writes table v := by
  rw [ofInteger_eq]
  unfold integerWire? at h
  split at h
  · cases h
    exact ⟨rfl, rfl⟩
  · cases h
    exact ⟨rfl, rfl⟩
  · exact writes_string h hl

theorem writes_ofDecimal {asText : Bool} {d : Decimal}
    (h : decimalWire? table asText d = some v) (hl : v.payload.length < lengthBound) :
    (ofDecimal asText d).Writes table v := by
  unfold decimalWire? at h
  unfold ofDecimal
  cases asText with
  | true => exact writes_string h hl
  | false =>
    simp only [Bool.not_false, Bool.true_and, Bool.false_eq_true, if_false] at h ⊢
    by_cases hs : d.toSingle.isFinite = true
    · rw [if_pos hs] at h ⊢
      cases h
      exact ⟨rfl, rfl⟩
    · rw [if_neg hs] at h ⊢
      by_cases hd : d.toDouble.isFinite = true
      · rw [if_pos hd] at h ⊢
        cases h
        exact ⟨rfl, rfl⟩
      · rw [if_neg hd] at h ⊢
        exact writes_string h hl

end Primitive

/-- A scalar with an image is written in full, under its type. -/
theorem Scalar.writes_of_wire? {options : Options} {table : Option EscapeTable} {value : Scalar}
    {v : WireValue} (h : value.wire? options table = some v)
    (hl : v.payload.length < lengthBound) : (value.primitive options).Writes table v := by
  cases value with
  | string s | numberText s => exact Primitive.writes_string h hl
  | symbol s | code s =>
    obtain ⟨t, ht, rfl⟩ := Option.map_eq_some_iff.mp h
    rw [WireValue.payload] at hl
    exact ⟨string_of_writtenText ht hl, rfl⟩
  | utf8String bs => exact Primitive.writes_utf8String h hl
  | rawText s | binary subtype bs | binaryRange subtype bs offset length =>
    exact Primitive.writes_binary h
  | integer n => exact Primitive.writes_ofInteger h hl
  | decimal d => exact Primitive.writes_ofDecimal h hl
  | regex r =>
    rw [wire?] at h
    obtain ⟨pattern, hp, h⟩ := Option.bind_eq_some_iff.mp h
    obtain ⟨flags, hf, h⟩ := Option.bind_eq_some_iff.mp h
    cases h
    rw [Primitive.Writes, primitive, Primitive.payload, cstring_of_writtenName hp,
      cstring_of_writtenName hf]
    exact ⟨rfl, rfl⟩
  | objectId id =>
    cases h
    simp [Primitive.Writes, primitive, Primitive.payload, Primitive.objectIdBytes,
      int32Bytes_swapBytes, WireValue.payload, Primitive.type, WireValue.type]
  | int32 | int64 | single | double | boolean | null | dateTime | timestamp =>
    cases h
    exact ⟨rfl, rfl⟩

/-! ## What is written without a fault has an image -/

theorem writtenName_of_cstring {table : Option EscapeTable} {s : String}
    (h : (Payload.cstring table s).failure = none) : ∃ t, writtenName table s = some t := by
  rw [Payload.cstring, Payload.escaped] at h
  cases he : escape table s with
  | error c => simp [he, Payload.fault] at h
  | ok t =>
    rw [he] at h
    have hn : t.toList.contains '\x00' = false := by
      cases hc : t.toList.contains '\x00' with
      | false => rfl
      | true => simp only [Payload.cstringVerbatim, hc, if_true, Payload.fault] at h; cases h
    refine ⟨t, ?_⟩
    rw [writtenName, writtenText, he, Except.toOption, Option.filter, hn]
    rfl

namespace Primitive

variable {table : Option EscapeTable}

theorem image_string {s : String} (h : ((string s).payload table).failure = none) :
    ∃ v, (writtenText table s).map .string = some v ∧ (string s).Writes table v := by
  obtain ⟨t, ht, hs⟩ := writtenText_of_string h
  exact ⟨.string t, by rw [ht]; rfl, hs, rfl⟩

theorem image_binary {subtype : BinarySubtype} {length : Nat} {data : Bytes}
    (h : ((binary subtype length data).payload table).failure = none) :
    ∃ v, binaryWire? subtype length data = some v ∧
      (binary subtype length data).Writes table v := by
  rw [payload, Payload.binary] at h
  split at h
  · rename_i hl
    have hv : binaryWire? subtype length data = some (.binary subtype.byte length data) := by
      rw [binaryWire?, if_pos hl]
    exact ⟨_, hv, writes_binary hv⟩
  · cases h

theorem image_utf8String {bs : Bytes} (h : ((utf8String bs).payload table).failure = none) :
    ∃ v, (decodeUtf8? bs).map .string = some v ∧ (utf8String bs).Writes table v := by
  rw [payload, Payload.utf8String] at h
  split at h
  · rename_i hu
    obtain ⟨t, rfl⟩ := (isUtf8_iff bs).mp hu
    rw [Payload.sized] at h
    split at h
    case isFalse => cases h
    rename_i hl
    refine ⟨.string t, by rw [decodeUtf8?_utf8]; rfl, ?_, rfl⟩
    rw [payload, Payload.utf8String, if_pos hu]
    exact sized_utf8 hl
  · cases h

theorem image_ofInteger {n : Int} (h : ((ofInteger n).payload table).failure = none) :
    ∃ v, integerWire? table n = some v ∧ (ofInteger n).Writes table v := by
  rw [ofInteger_eq] at h ⊢
  unfold integerWire?
  split
  · exact ⟨_, rfl, rfl, rfl⟩
  · exact ⟨_, rfl, rfl, rfl⟩
  · rename_i h32 h64
    rw [h32, h64] at h
    exact image_string h

theorem image_ofDecimal {asText : Bool} {d : Decimal}
    (h : ((ofDecimal asText d).payload table).failure = none) :
    ∃ v, decimalWire? table asText d = some v ∧ (ofDecimal asText d).Writes table v := by
  unfold ofDecimal at h ⊢
  unfold decimalWire?
  cases asText with
  | true => exact image_string h
  | false =>
    simp only [Bool.not_false, Bool.true_and, Bool.false_eq_true, if_false] at h ⊢
    split at h
    · rename_i hs
      rw [if_pos hs, if_pos hs]
      exact ⟨_, rfl, rfl, rfl⟩
    · rename_i hs
      rw [if_neg hs, if_neg hs]
      split at h
      · rename_i hd
        rw [if_pos hd, if_pos hd]
        exact ⟨_, rfl, rfl, rfl⟩
      · rename_i hd
        rw [if_neg hd, if_neg hd]
        exact image_string h

theorem image_regex {r : Regex} (h : ((regex r).payload table).failure = none) :
    ∃ pattern flags, writtenName table r.pattern = some pattern ∧
      writtenName table r.flags.letters = some flags ∧
      (regex r).Writes table (.regex pattern flags) := by
  rw [payload, Payload.andThen] at h
  cases hp : (Payload.cstring table r.pattern).failure with
  | some cause => rw [hp] at h; simp only [hp] at h; cases h
  | none =>
    rw [hp] at h
    obtain ⟨pattern, hpattern⟩ := writtenName_of_cstring hp
    obtain ⟨flags, hflags⟩ := writtenName_of_cstring h
    refine ⟨pattern, flags, hpattern, hflags, ?_, rfl⟩
    rw [payload, cstring_of_writtenName hpattern, cstring_of_writtenName hflags]
    rfl

end Primitive

/-- A scalar that is written in full has an image, which is what is written. -/
theorem Scalar.image_of_payload {options : Options} {table : Option EscapeTable} {value : Scalar}
    (h : ((value.primitive options).payload table).failure = none) :
    ∃ v, value.wire? options table = some v ∧ (value.primitive options).Writes table v := by
  cases value with
  | string s | numberText s => exact Primitive.image_string h
  | symbol s =>
    obtain ⟨t, ht, hs⟩ := writtenText_of_string h
    exact ⟨.symbol t, by rw [wire?, ht]; rfl, hs, rfl⟩
  | code s =>
    obtain ⟨t, ht, hs⟩ := writtenText_of_string h
    exact ⟨.code t, by rw [wire?, ht]; rfl, hs, rfl⟩
  | utf8String bs => exact Primitive.image_utf8String h
  | rawText s | binary subtype bs | binaryRange subtype bs offset length =>
    exact Primitive.image_binary h
  | integer n => exact Primitive.image_ofInteger h
  | decimal d => exact Primitive.image_ofDecimal h
  | regex r =>
    obtain ⟨pattern, flags, hp, hf, hw⟩ := Primitive.image_regex h
    refine ⟨.regex pattern flags, ?_, hw⟩
    rw [wire?, hp, hf]
    rfl
  | objectId id =>
    refine ⟨_, rfl, ?_⟩
    simp [Primitive.Writes, primitive, Primitive.payload, Primitive.objectIdBytes,
      int32Bytes_swapBytes, WireValue.payload, Primitive.type, WireValue.type]
  | int32 | int64 | single | double | boolean | null | dateTime | timestamp =>
    exact ⟨_, rfl, rfl, rfl⟩

end BsonWriter
