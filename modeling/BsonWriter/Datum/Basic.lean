import BsonWriter.Number.Format
import BsonWriter.Bytes.LittleEndian

/-!
Structured data to be written in one go: scalars, optional values, named
wrappers and alternatives, sequences, maps and records. A datum is what a data
type says about one of its values, so a value can also be one that refuses to be
written.
-/

namespace BsonWriter

/-- The integer types of data. -/
inductive IntegerType
  | int8 | int16 | int32 | int64 | int128 | nat8 | nat16 | nat32 | nat64 | nat128
  deriving DecidableEq, Repr, Inhabited

namespace IntegerType

def least : IntegerType → Int
  | int8 => -0x80
  | int16 => -0x8000
  | int32 => -0x80000000
  | int64 => -0x8000000000000000
  | int128 => -0x80000000000000000000000000000000
  | _ => 0

def greatest : IntegerType → Int
  | int8 => 0x7f
  | int16 => 0x7fff
  | int32 => 0x7fffffff
  | int64 => 0x7fffffffffffffff
  | int128 => 0x7fffffffffffffffffffffffffffffff
  | nat8 => 0xff
  | nat16 => 0xffff
  | nat32 => 0xffffffff
  | nat64 => 0xffffffffffffffff
  | nat128 => 0xffffffffffffffffffffffffffffffff

end IntegerType

/-- An integer within the range of its type. -/
structure TypedInteger where
  type : IntegerType
  value : Int
  least_le : type.least ≤ value
  le_greatest : value ≤ type.greatest

/-- An integer of a type, unless it is out of range. -/
def TypedInteger.ofInt? (type : IntegerType) (value : Int) : Option TypedInteger :=
  if h : type.least ≤ value ∧ value ≤ type.greatest then some ⟨type, value, h.1, h.2⟩ else none

/-- A 64-bit integer with its type. -/
def TypedInteger.ofInt64 (x : Int64) : TypedInteger :=
  ⟨.int64, x.toInt, Int64.le_toInt x, Int64.toInt_le x⟩

/-- What a step through a map hands over. -/
inductive MapStep
  | key
  | value
  deriving DecidableEq, Repr, Inhabited

/-- A datum. A `label` is what a message calls a value that has no text of its
own. A map is given by its steps, which need not alternate. -/
inductive Datum
  | boolean (b : Bool)
  | integer (v : TypedInteger)
  | single (x : Single)
  | double (x : Double)
  | character (c : Char)
  | text (s : String)
  | bytes (bs : Bytes)
  /-- An absent value, or a value of a type that has only one. -/
  | empty (label : String)
  | present (d : Datum)
  | wrapper (name : String) (d : Datum)
  /-- An alternative without data. -/
  | choice (name : String)
  | tagged (type name : String) (d : Datum)
  | sequence (label : String) (items : List Datum)
  | taggedSequence (type name : String) (items : List Datum)
  | map (steps : List (MapStep × Datum))
  | record (type : String) (fields : List (String × Datum))
  | taggedRecord (type name : String) (fields : List (String × Datum))
  /-- Asks whether it is written for human readers. -/
  | audience
  /-- Refuses to be written. -/
  | refusal (message : String)

namespace Datum

/-- The wrapper that marks a text as the digits of an object id. -/
def objectIdMark : String := "$__bson_generator_private_oid"

/-- The wrapper that marks an integer as the milliseconds of an instant. -/
def dateTimeMark : String := "$__bson_generator_private_datetime"

end Datum

end BsonWriter
