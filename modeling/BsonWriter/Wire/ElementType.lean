/-!
The type bytes of BSON elements. The deprecated types and the two key limits
are listed although the writer never writes them, so that every defined byte
has a name.
-/

namespace BsonWriter

inductive ElementType
  | double | string | embeddedDocument | array | binary | undefined | objectId
  | boolean | dateTime | null | regularExpression | dbPointer | javaScriptCode
  | symbol | javaScriptCodeWithScope | int32 | timestamp | int64 | decimal128
  | maxKey | minKey
  deriving DecidableEq, Repr, Inhabited

namespace ElementType

/-- The byte that starts an element of this type. -/
def tag : ElementType → UInt8
  | double => 0x01
  | string => 0x02
  | embeddedDocument => 0x03
  | array => 0x04
  | binary => 0x05
  | undefined => 0x06
  | objectId => 0x07
  | boolean => 0x08
  | dateTime => 0x09
  | null => 0x0A
  | regularExpression => 0x0B
  | dbPointer => 0x0C
  | javaScriptCode => 0x0D
  | symbol => 0x0E
  | javaScriptCodeWithScope => 0x0F
  | int32 => 0x10
  | timestamp => 0x11
  | int64 => 0x12
  | decimal128 => 0x13
  | maxKey => 0x7F
  | minKey => 0xFF

def name : ElementType → String
  | double => "Double"
  | string => "String"
  | embeddedDocument => "EmbeddedDocument"
  | array => "Array"
  | binary => "Binary"
  | undefined => "Undefined"
  | objectId => "ObjectId"
  | boolean => "Boolean"
  | dateTime => "DateTime"
  | null => "Null"
  | regularExpression => "RegularExpression"
  | dbPointer => "DbPointer"
  | javaScriptCode => "JavaScriptCode"
  | symbol => "Symbol"
  | javaScriptCodeWithScope => "JavaScriptCodeWithScope"
  | int32 => "Int32"
  | timestamp => "Timestamp"
  | int64 => "Int64"
  | decimal128 => "Decimal128"
  | maxKey => "MaxKey"
  | minKey => "MinKey"

def all : List ElementType :=
  [double, string, embeddedDocument, array, binary, undefined, objectId, boolean, dateTime,
    null, regularExpression, dbPointer, javaScriptCode, symbol, javaScriptCodeWithScope, int32,
    timestamp, int64, decimal128, maxKey, minKey]

/-- The type of a given name. -/
def ofName? (s : String) : Option ElementType := all.find? (·.name == s)

theorem ofName?_name (t : ElementType) : ofName? t.name = some t := by
  cases t <;> decide

end ElementType

/-- The byte that ends every document and array. -/
def endOfDocument : UInt8 := 0

/-- The byte that ends every name and string. -/
def endOfString : UInt8 := 0

end BsonWriter
