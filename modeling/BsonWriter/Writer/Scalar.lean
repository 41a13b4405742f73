import BsonWriter.Number.Decimal
import BsonWriter.Options
import BsonWriter.Value.DateTime
import BsonWriter.Value.Regex
import BsonWriter.Value.Timestamp
import BsonWriter.Wire.BinarySubtype
import BsonWriter.Writer.Payload

/-!
Values without parts. Callers give a `Scalar`; what stands on the wire is a
`Primitive`, to which large integers, decimals, singles and texts in other
encodings are reduced first.
-/

namespace BsonWriter

/-- A value as one element of the format holds it. -/
inductive Primitive
  | string (s : String)
  | utf8String (bs : Bytes)
  | binary (subtype : BinarySubtype) (length : Nat) (data : Bytes)
  | int32 (x : Int32)
  | int64 (x : Int64)
  | double (x : Double)
  | boolean (b : Bool)
  | null
  | dateTime (t : DateTime)
  | objectId (id : ObjectId)
  | regex (r : Regex)
  | timestamp (t : Timestamp)
  | symbol (s : String)
  | code (s : String)
  deriving DecidableEq, Repr, Inhabited

namespace Primitive

def type : Primitive → ElementType
  | string _ => .string
  | utf8String _ => .string
  | binary .. => .binary
  | int32 _ => .int32
  | int64 _ => .int64
  | double _ => .double
  | boolean _ => .boolean
  | null => .null
  | dateTime _ => .dateTime
  | objectId _ => .objectId
  | regex _ => .regularExpression
  | timestamp _ => .timestamp
  | symbol _ => .symbol
  | code _ => .javaScriptCode

/-- The words of an id are the only big-endian numbers of the format, so their bytes are
swapped before they are written like all other numbers. -/
def objectIdBytes (id : ObjectId) : Bytes :=
  [id.time, id.machine, id.increment].flatMap fun word => int32Bytes (swapBytes word)

def payload (table : Option EscapeTable) : Primitive → Payload
  | string s => .string table s
  | utf8String bs => .utf8String bs
  | binary subtype length data => .binary subtype.byte length data
  | int32 x => ⟨int32Bytes x, none⟩
  | int64 x => ⟨int64Bytes x, none⟩
  | double x => ⟨littleEndian 8 x.bits.toNat, none⟩
  | boolean b => ⟨[if b then 1 else 0], none⟩
  | null => ⟨[], none⟩
  | dateTime t => ⟨int64Bytes t.millis, none⟩
  | objectId id => ⟨objectIdBytes id, none⟩
  | regex r => (Payload.cstring table r.pattern).andThen (Payload.cstring table r.flags.letters)
  | timestamp t => ⟨int32Bytes t.increment ++ int32Bytes t.time, none⟩
  | symbol s => .string table s
  | code s => .string table s

/-- An integer in the narrowest of the two integer types, or as its digits. -/
def ofInteger (v : Int) : Primitive :=
  if Integer.bitLength v < 32 then
    match Integer.toInt32? v with
    | some x => int32 x
    | none => string (Integer.text v)
  else if Integer.bitLength v < 64 then
    match Integer.toInt64? v with
    | some x => int64 x
    | none => string (Integer.text v)
  else string (Integer.text v)

/-- A decimal as the double of its single if that is finite, else as its double
if that is finite, else as its text. -/
def ofDecimal (asText : Bool) (d : Decimal) : Primitive :=
  if asText then string d.text
  else if d.toSingle.isFinite then double d.toSingle.toDouble
  else if d.toDouble.isFinite then double d.toDouble
  else string d.text

end Primitive

/-- A sum that stops at the greatest word when it would wrap. -/
def saturatingSum (a b : UInt64) : UInt64 := if a + b < a then 0xFFFFFFFFFFFFFFFF else a + b

/-- Where a range begins and ends within `size` bytes, in words. -/
def rangeBounds (size offset length : UInt64) : UInt64 × UInt64 :=
  (min offset size, min (saturatingSum offset length) size)

/-- A value as callers give it. -/
inductive Scalar
  | string (s : String)
  | utf8String (bs : Bytes)
  | rawText (s : String)
  | binary (subtype : BinarySubtype) (bs : Bytes)
  | binaryRange (subtype : BinarySubtype) (bs : Bytes) (offset length : Nat)
  | int32 (x : Int32)
  | int64 (x : Int64)
  | single (x : Single)
  | double (x : Double)
  | boolean (b : Bool)
  | null
  | integer (v : Int)
  | decimal (d : Decimal)
  | numberText (s : String)
  | dateTime (t : DateTime)
  | objectId (id : ObjectId)
  | regex (r : Regex)
  | timestamp (t : Timestamp)
  | symbol (s : String)
  | code (s : String)
  deriving DecidableEq, Repr, Inhabited

namespace Scalar

def activity : Scalar → Activity
  | string _ => .string
  | utf8String _ => .rawUtf8
  | rawText _ => .rawString
  | binary .. => .binary
  | binaryRange .. => .binary
  | int32 _ => .number
  | int64 _ => .number
  | single _ => .number
  | double _ => .number
  | boolean _ => .boolean
  | null => .null
  | integer _ => .number
  | decimal _ => .number
  | numberText _ => .number
  | dateTime _ => .dateTime
  | objectId _ => .objectId
  | regex _ => .regex
  | timestamp _ => .timestamp
  | symbol _ => .symbol
  | code _ => .javaScript

/-- What is written. A range that reaches past the end of its data keeps its
length, so that length may exceed the data. -/
def primitive (options : Options) : Scalar → Primitive
  | string s => .string s
  | utf8String bs => .utf8String bs
  | rawText s => .binary .generic (utf16 s).length (utf16 s)
  | binary subtype bs => .binary subtype bs.length bs
  | binaryRange subtype bs offset length =>
    .binary subtype length ((bs.drop offset).take length)
  | int32 x => .int32 x
  | int64 x => .int64 x
  | single x => .double x.toDouble
  | double x => .double x
  | boolean b => .boolean b
  | null => .null
  | integer v => .ofInteger v
  | decimal d => .ofDecimal options.decimalsAsText d
  | numberText s => .string s
  | dateTime t => .dateTime t
  | objectId id => .objectId id
  | regex r => .regex r
  | timestamp t => .timestamp t
  | symbol s => .symbol s
  | code s => .code s

end Scalar

end BsonWriter
