import BsonWriter.Proofs.Bytes.Reading
import BsonWriter.Proofs.Wire.Value

/-!
A strict reader of the format. It takes every length at its word and checks it
against what it then finds: a container, a text and code with a scope must fill
their length exactly, terminators must be there, and every type byte must be
known. It reads back what is written as long as names have no null character and
binary data is as long as its length says (`readDocument_enclosed`,
`readDocuments_encodings`).
-/

namespace BsonWriter

/-- The type of a type byte. -/
def ElementType.ofTag? (b : UInt8) : Option ElementType := all.find? (·.tag == b)

theorem ElementType.ofTag?_tag (t : ElementType) : ofTag? t.tag = some t := by
  cases t <;> decide

namespace WireValue

/-! ## Reading -/

/-- Takes a length field, which holds a signed number and must not be negative. -/
def readLength (bs : Bytes) : Option (Nat × Bytes) :=
  (readNat 4 bs).bind fun (n, rest) => if n < lengthBound then some (n, rest) else none

/-- Takes as many bytes as their last is to be at, and that last one, which must
be zero. -/
def readUntilZero (count : Nat) (bs : Bytes) : Option (Bytes × Bytes) :=
  match bs.drop count with
  | 0 :: rest => some (bs.take count, rest)
  | _ => none

def readText (bs : Bytes) : Option (String × Bytes) := do
  let (n, bs) ← readLength bs
  if n = 0 then none
  let (text, rest) ← readUntilZero (n - 1) bs
  let s ← decodeUtf8? text
  return (s, rest)

/-- Takes a container whose content `nested` reads in full. -/
def readEnclosed (nested : Bytes → Option Fields) (bs : Bytes) : Option (Fields × Bytes) := do
  let (n, bs) ← readLength bs
  if n < 5 then none
  let (content, rest) ← readUntilZero (n - 5) bs
  let fields ← nested content
  return (fields, rest)

def readBinary (bs : Bytes) : Option (WireValue × Bytes) := do
  let (n, bs) ← readLength bs
  let (subtype, bs) ← readBytes 1 bs
  let (data, rest) ← readBytes n bs
  return (.binary (subtype.headD 0) n data, rest)

def readBoolean : Bytes → Option (WireValue × Bytes)
  | 0 :: rest => some (.boolean false, rest)
  | 1 :: rest => some (.boolean true, rest)
  | _ => none

def readObjectId (bs : Bytes) : Option (WireValue × Bytes) := do
  let (time, bs) ← readWord bs
  let (machine, bs) ← readWord bs
  let (increment, rest) ← readWord bs
  return (.objectId time machine increment, rest)

def readRegex (bs : Bytes) : Option (WireValue × Bytes) := do
  let (pattern, bs) ← readCString bs
  let (options, rest) ← readCString bs
  return (.regex pattern options, rest)

def readTimestamp (bs : Bytes) : Option (WireValue × Bytes) := do
  let (increment, bs) ← readInt32 bs
  let (time, rest) ← readInt32 bs
  return (.timestamp increment time, rest)

/-- Takes code with its scope, which must end where the total length says. -/
def readCodeWithScope (nested : Bytes → Option Fields) (bs : Bytes) :
    Option (WireValue × Bytes) := do
  let (total, tail) ← readLength bs
  let (text, tail) ← readText tail
  let (scope, rest) ← readEnclosed nested tail
  if total + rest.length = bs.length then return (.codeWithScope text scope, rest) else none

/-- Takes the payload of a value of a given type. -/
def readPayload (nested : Bytes → Option Fields) (bs : Bytes) :
    ElementType → Option (WireValue × Bytes)
  | .double => (readNat 8 bs).map fun (n, rest) => (.double (UInt64.ofNat n), rest)
  | .string => (readText bs).map fun (s, rest) => (.string s, rest)
  | .embeddedDocument => (readEnclosed nested bs).map fun (fs, rest) => (.document fs, rest)
  | .array => (readEnclosed nested bs).map fun (fs, rest) => (.array fs, rest)
  | .binary => readBinary bs
  | .objectId => readObjectId bs
  | .boolean => readBoolean bs
  | .dateTime => (readInt64 bs).map fun (x, rest) => (.dateTime x, rest)
  | .null => some (.null, bs)
  | .regularExpression => readRegex bs
  | .javaScriptCode => (readText bs).map fun (s, rest) => (.code s, rest)
  | .symbol => (readText bs).map fun (s, rest) => (.symbol s, rest)
  | .javaScriptCodeWithScope => readCodeWithScope nested bs
  | .int32 => (readInt32 bs).map fun (x, rest) => (.int32 x, rest)
  | .timestamp => readTimestamp bs
  | .int64 => (readInt64 bs).map fun (x, rest) => (.int64 x, rest)
  | .undefined | .dbPointer | .decimal128 | .maxKey | .minKey => none

/-- Reads the whole content of a container in at most `rounds` elements, and no
more than that many levels deep. -/
def readContent : (rounds : Nat) → Bytes → Option Fields
  | _, [] => some []
  | 0, _ => none
  | rounds + 1, tag :: bs => do
    let type ← ElementType.ofTag? tag
    let (key, bs) ← readCString bs
    let (value, bs) ← readPayload (readContent rounds) bs type
    let rest ← readContent rounds bs
    return (key, value) :: rest

/-- Takes one document. Every element has a byte and every level has one, so as
many rounds as there are bytes suffice. -/
def readDocument (bs : Bytes) : Option (Fields × Bytes) := readEnclosed (readContent bs.length) bs

def readDocumentsIn : (rounds : Nat) → Bytes → Option (List Fields)
  | _, [] => some []
  | 0, _ => none
  | rounds + 1, b :: bs => do
    let (fields, bs) ← readDocument (b :: bs)
    let rest ← readDocumentsIn rounds bs
    return fields :: rest

/-- Reads a byte string that is nothing but documents, one after another. -/
def readDocuments (bs : Bytes) : Option (List Fields) := readDocumentsIn bs.length bs

/-! ## What can be read back -/

mutual

/-- Names and patterns have no null character, and binary data has as many bytes
as its length says. -/
def Readable : WireValue → Prop
  | document fields => ReadableFields fields
  | array elements => ReadableFields elements
  | binary _ length data => data.length = length
  | regex pattern options => '\x00' ∉ pattern.toList ∧ '\x00' ∉ options.toList
  | codeWithScope _ scope => ReadableFields scope
  | _ => True

def ReadableFields : List (String × WireValue) → Prop
  | [] => True
  | (key, value) :: rest => '\x00' ∉ key.toList ∧ value.Readable ∧ ReadableFields rest

end

theorem readableFields_append {a b : Fields} :
    ReadableFields (a ++ b) ↔ ReadableFields a ∧ ReadableFields b := by
  induction a with
  | nil => exact (iff_of_eq (true_and _)).symm
  | cons field a ih =>
    obtain ⟨key, value⟩ := field
    rw [List.cons_append, ReadableFields, ReadableFields, ih, and_assoc, and_assoc]

theorem readLength_append {n : Nat} (h : n < lengthBound) (rest : Bytes) :
    readLength (lengthField n ++ rest) = some (n, rest) := by
  have hn : n < 256 ^ 4 := Nat.lt_trans h (by decide)
  rw [readLength, lengthField, readNat_append hn]
  simp [h]

theorem readUntilZero_append (bs rest : Bytes) :
    readUntilZero bs.length (bs ++ 0 :: rest) = some (bs, rest) := by
  simp [readUntilZero]

theorem readText_append {s : String} (h : (prefixed s).length < lengthBound) (rest : Bytes) :
    readText (prefixed s ++ rest) = some (s, rest) := by
  simp only [length_prefixed] at h
  have hn : (utf8 s).length + 1 < lengthBound := by omega
  simp only [readText, prefixed, terminated, List.append_assoc, List.cons_append, List.nil_append,
    readLength_append hn, Option.bind_eq_bind, Option.bind_some]
  simp [readUntilZero_append, decodeUtf8?_utf8]

theorem readEnclosed_append {nested : Bytes → Option Fields} {content : Bytes} {fields : Fields}
    (hn : nested content = some fields) (h : (enclosed content).length < lengthBound)
    (rest : Bytes) : readEnclosed nested (enclosed content ++ rest) = some (fields, rest) := by
  rw [length_enclosed] at h
  simp only [readEnclosed, enclosed, List.append_assoc, List.cons_append, List.nil_append,
    readLength_append h, Option.bind_eq_bind, Option.bind_some]
  simp [readUntilZero_append, hn]

theorem readBinary_append {data : Bytes} (h : data.length < lengthBound) (subtype : UInt8)
    (rest : Bytes) : readBinary (lengthField data.length ++ subtype :: data ++ rest) =
      some (.binary subtype data.length data, rest) := by
  have hs : readBytes 1 (subtype :: (data ++ rest)) = some ([subtype], data ++ rest) := by
    exact @readBytes_append [subtype] 1 rfl (data ++ rest)
  simp only [readBinary, List.append_assoc, List.cons_append, readLength_append h, hs,
    readBytes_append rfl, Option.bind_eq_bind, Option.bind_some]
  rfl

theorem readObjectId_append (time machine increment : Int32) (rest : Bytes) :
    readObjectId ((objectId time machine increment).payload ++ rest) =
      some (.objectId time machine increment, rest) := by
  simp [readObjectId, payload, readWord_append]

theorem readRegex_append {pattern options : String} (hp : '\x00' ∉ pattern.toList)
    (ho : '\x00' ∉ options.toList) (rest : Bytes) :
    readRegex ((regex pattern options).payload ++ rest) = some (.regex pattern options, rest) := by
  simp [readRegex, payload, terminated, readCString_append hp, readCString_append ho]

theorem readTimestamp_append (increment time : Int32) (rest : Bytes) :
    readTimestamp ((timestamp increment time).payload ++ rest) =
      some (.timestamp increment time, rest) := by
  simp [readTimestamp, payload, readInt32_append]

theorem readCodeWithScope_append {nested : Bytes → Option Fields} {text : String} {scope : Fields}
    (hn : nested (content scope) = some scope)
    (h : (codeWithScope text scope).payload.length < lengthBound) (rest : Bytes) :
    readCodeWithScope nested ((codeWithScope text scope).payload ++ rest) =
      some (.codeWithScope text scope, rest) := by
  simp only [payload, List.length_append, length_lengthField] at h
  rw [← Nat.add_assoc] at h
  have ht : (prefixed text).length < lengthBound := by omega
  have hs : (enclosed (content scope)).length < lengthBound := by omega
  simp only [readCodeWithScope, payload, List.append_assoc, readLength_append h,
    readText_append ht, readEnclosed_append hn hs, Option.bind_eq_bind, Option.bind_some]
  rw [if_pos (by simp; omega)]
  rfl

mutual

/-- A value is read back from its payload. The induction is on the value, and
the content of every container inside it is read by `readContent`. -/
theorem readPayload_payload (rounds : Nat) (rest : Bytes) : (value : WireValue) →
    value.Readable → value.payload.length < lengthBound → value.payload.length ≤ rounds →
    readPayload (readContent rounds) (value.payload ++ rest) value.type = some (value, rest)
  | double bits, _, _, _ => by
    have hb : bits.toNat < 256 ^ 8 := UInt64.toNat_lt bits
    simp [readPayload, type, payload, readNat_append hb]
  | string text, _, hl, _ => by
    rw [payload] at hl
    simp [readPayload, type, payload, readText_append hl]
  | document fields, hr, hl, hb => by
    rw [payload] at hl hb
    have hc := readContent_content rounds fields hr hl
      (by rw [length_enclosed] at hb; omega)
    simp [readPayload, type, payload, readEnclosed_append hc hl]
  | array elements, hr, hl, hb => by
    rw [payload] at hl hb
    have hc := readContent_content rounds elements hr hl
      (by rw [length_enclosed] at hb; omega)
    simp [readPayload, type, payload, readEnclosed_append hc hl]
  | binary subtype length data, hr, hl, _ => by
    rw [Readable] at hr
    subst hr
    simp only [payload, List.length_append, List.length_cons] at hl
    rw [payload, readPayload.eq_def]
    exact readBinary_append (by omega) subtype rest
  | objectId time machine increment, _, _, _ => readObjectId_append time machine increment rest
  | boolean b, _, _, _ => by cases b <;> rfl
  | dateTime millis, _, _, _ => by
    simp [readPayload, type, payload, readInt64_append]
  | null, _, _, _ => rfl
  | regex pattern options, hr, _, _ => readRegex_append hr.1 hr.2 rest
  | code text, _, hl, _ => by
    rw [payload] at hl
    simp [readPayload, type, payload, readText_append hl]
  | symbol text, _, hl, _ => by
    rw [payload] at hl
    simp [readPayload, type, payload, readText_append hl]
  | codeWithScope text scope, hr, hl, hb => by
    have hle : (enclosed (content scope)).length ≤ (codeWithScope text scope).payload.length := by
      simp only [payload, List.length_append]
      omega
    have hc := readContent_content rounds scope hr (by omega)
      (by rw [length_enclosed] at hle; omega)
    exact readCodeWithScope_append hc hl rest
  | int32 x, _, _, _ => by
    simp [readPayload, type, payload, readInt32_append]
  | timestamp increment time, _, _, _ => readTimestamp_append increment time rest
  | int64 x, _, _, _ => by
    simp [readPayload, type, payload, readInt64_append]

theorem readContent_content (rounds : Nat) : (fields : List (String × WireValue)) →
    ReadableFields fields → (enclosed (content fields)).length < lengthBound →
    (content fields).length ≤ rounds → readContent rounds (content fields) = some fields
  | [], _, _, _ => by
    cases rounds <;> rfl
  | (key, value) :: rest, hr, hl, hb => by
    obtain ⟨hk, hv, hrest⟩ := hr
    simp only [content, List.length_cons, List.length_append, length_enclosed] at hl hb
    cases rounds with
    | zero => omega
    | succ rounds =>
      have hp := readPayload_payload rounds (content rest) value hv (by omega) (by omega)
      have hc := readContent_content rounds rest hrest
        (by rw [length_enclosed]; omega) (by omega)
      simp [content, readContent, terminated, ElementType.ofTag?_tag, readCString_append hk, hp, hc]

end

/-- A document is read back, and the bytes after it are left. -/
theorem readDocument_enclosed {fields : Fields} (hr : ReadableFields fields)
    (hl : (enclosed (content fields)).length < lengthBound) (rest : Bytes) :
    readDocument (enclosed (content fields) ++ rest) = some (fields, rest) := by
  refine readEnclosed_append (readContent_content _ fields hr hl ?_) hl rest
  simp only [List.length_append, length_enclosed]
  omega

theorem readDocumentsIn_of_le {rounds : Nat} {documents : List Fields}
    (hr : ∀ d ∈ documents, ReadableFields d)
    (hl : ∀ d ∈ documents, (enclosed (content d)).length < lengthBound)
    (hb : documents.length ≤ rounds) :
    readDocumentsIn rounds (encodings documents) = some documents := by
  induction documents generalizing rounds with
  | nil => cases rounds <;> rfl
  | cons d ds ih =>
    cases rounds with
    | zero => simp at hb
    | succ rounds =>
      have hd := readDocument_enclosed (hr d List.mem_cons_self) (hl d List.mem_cons_self)
        (encodings ds)
      have hds := ih (fun e he => hr e (List.mem_cons_of_mem _ he))
        (fun e he => hl e (List.mem_cons_of_mem _ he)) (Nat.le_of_succ_le_succ hb)
      rw [encodings_cons]
      cases hbs : enclosed (content d) ++ encodings ds with
      | nil => simp [enclosed] at hbs
      | cons b bs =>
        rw [readDocumentsIn, ← hbs, hd]
        simp [hds]

theorem length_le_length_encodings (documents : List Fields) :
    documents.length ≤ (encodings documents).length := by
  induction documents with
  | nil => exact Nat.zero_le _
  | cons d ds ih =>
    rw [encodings_cons, List.length_append, length_enclosed, List.length_cons]
    omega

/-- Documents one after another are read back, to the last byte. -/
theorem readDocuments_encodings {documents : List Fields} (hr : ∀ d ∈ documents, ReadableFields d)
    (hl : ∀ d ∈ documents, (enclosed (content d)).length < lengthBound) :
    readDocuments (encodings documents) = some documents :=
  readDocumentsIn_of_le hr hl (length_le_length_encodings documents)

end WireValue

end BsonWriter
