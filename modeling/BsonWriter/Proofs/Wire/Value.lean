import BsonWriter.Writer.Payload
import BsonWriter.Wire.ElementType

/-!
The format by itself: what values stand on the wire and which bytes they are.
Nothing here knows how a writer comes to these bytes; in particular no length is
filled in afterwards.
-/

namespace BsonWriter

/-- A value as a document holds it. The length field of binary data is given
beside the data, since a writer may be told a greater one. -/
inductive WireValue
  | double (bits : UInt64)
  | string (text : String)
  | document (fields : List (String × WireValue))
  | array (elements : List (String × WireValue))
  | binary (subtype : UInt8) (length : Nat) (data : Bytes)
  | objectId (time machine increment : Int32)
  | boolean (b : Bool)
  | dateTime (millis : Int64)
  | null
  | regex (pattern options : String)
  | code (text : String)
  | symbol (text : String)
  | codeWithScope (text : String) (scope : List (String × WireValue))
  | int32 (x : Int32)
  | timestamp (increment time : Int32)
  | int64 (x : Int64)

/-- The named values of a document or an array, in order. -/
abbrev Fields := List (String × WireValue)

/-- A text up to its terminator. -/
def terminated (s : String) : Bytes := utf8 s ++ [0]

/-- A text after its length, which counts the terminator. -/
def prefixed (s : String) : Bytes := lengthField ((utf8 s).length + 1) ++ terminated s

/-- A container: the number of its bytes from there on, its content, and its end
marker. -/
def enclosed (content : Bytes) : Bytes := lengthField (content.length + 5) ++ content ++ [0]

namespace WireValue

def type : WireValue → ElementType
  | double _ => .double
  | string _ => .string
  | document _ => .embeddedDocument
  | array _ => .array
  | binary .. => .binary
  | objectId .. => .objectId
  | boolean _ => .boolean
  | dateTime _ => .dateTime
  | null => .null
  | regex .. => .regularExpression
  | code _ => .javaScriptCode
  | symbol _ => .symbol
  | codeWithScope .. => .javaScriptCodeWithScope
  | int32 _ => .int32
  | timestamp .. => .timestamp
  | int64 _ => .int64

mutual

/-- The bytes of a value after its type and name. -/
def payload : WireValue → Bytes
  | double bits => littleEndian 8 bits.toNat
  | string text => prefixed text
  | document fields => enclosed (content fields)
  | array elements => enclosed (content elements)
  | binary subtype length data => lengthField length ++ subtype :: data
  | objectId time machine increment =>
    ObjectId.wordBytes time ++ ObjectId.wordBytes machine ++ ObjectId.wordBytes increment
  | boolean b => [if b then 1 else 0]
  | dateTime millis => int64Bytes millis
  | null => []
  | regex pattern options => terminated pattern ++ terminated options
  | code text => prefixed text
  | symbol text => prefixed text
  | codeWithScope text scope =>
    lengthField (4 + (prefixed text).length + (enclosed (content scope)).length) ++
      (prefixed text ++ enclosed (content scope))
  | int32 x => int32Bytes x
  | timestamp increment time => int32Bytes increment ++ int32Bytes time
  | int64 x => int64Bytes x

/-- One element for each named value: its type, its name and its payload. -/
def content : List (String × WireValue) → Bytes
  | [] => []
  | (key, value) :: rest =>
    value.type.tag :: (terminated key ++ value.payload) ++ content rest

end

/-- The element of a named value. -/
def element (key : String) (value : WireValue) : Bytes :=
  value.type.tag :: (terminated key ++ value.payload)

/-- The bytes of documents, one after another. -/
def encodings (documents : List Fields) : Bytes := documents.flatMap fun d => enclosed (content d)

theorem encodings_cons (d : Fields) (ds : List Fields) :
    encodings (d :: ds) = enclosed (content d) ++ encodings ds := rfl

theorem content_cons (key : String) (value : WireValue) (rest : Fields) :
    content ((key, value) :: rest) = element key value ++ content rest := by
  rw [content, element]

theorem content_append (a b : Fields) : content (a ++ b) = content a ++ content b := by
  induction a with
  | nil => rfl
  | cons field a ih => rw [List.cons_append, content_cons, content_cons, ih, List.append_assoc]

theorem encodings_append (a b : List Fields) : encodings (a ++ b) = encodings a ++ encodings b :=
  List.flatMap_append

end WireValue

@[simp] theorem length_lengthField (n : Nat) : (lengthField n).length = 4 :=
  length_littleEndian ..

@[simp] theorem length_terminated (s : String) : (terminated s).length = (utf8 s).length + 1 := by
  simp [terminated]

@[simp] theorem length_prefixed (s : String) : (prefixed s).length = (utf8 s).length + 5 := by
  simp [prefixed]
  omega

@[simp] theorem length_enclosed (content : Bytes) :
    (enclosed content).length = content.length + 5 := by
  simp [enclosed]
  omega

end BsonWriter
