/-!
The subtype byte of binary data. The byte of a user-defined or a reserved
subtype is given by the caller and is not checked.
-/

namespace BsonWriter

inductive BinarySubtype
  | generic | function | binaryOld | uuidOld | uuid | md5 | encrypted | column | sensitive
  | userDefined (byte : UInt8)
  | reserved (byte : UInt8)
  deriving DecidableEq, Repr, Inhabited

namespace BinarySubtype

def byte : BinarySubtype → UInt8
  | generic => 0
  | function => 1
  | binaryOld => 2
  | uuidOld => 3
  | uuid => 4
  | md5 => 5
  | encrypted => 6
  | column => 7
  | sensitive => 8
  | userDefined b => b
  | reserved b => b

def name : BinarySubtype → String
  | generic => "Generic"
  | function => "Function"
  | binaryOld => "BinaryOld"
  | uuidOld => "UuidOld"
  | uuid => "Uuid"
  | md5 => "Md5"
  | encrypted => "Encrypted"
  | column => "Column"
  | sensitive => "Sensitive"
  | userDefined b => "UserDefined(" ++ b.toNat.repr ++ ")"
  | reserved b => "Reserved(" ++ b.toNat.repr ++ ")"

/-- The subtypes whose byte the format fixes. -/
def fixed : List BinarySubtype :=
  [generic, function, binaryOld, uuidOld, uuid, md5, encrypted, column, sensitive]

/-- The fixed subtype of a given name. -/
def ofName? (s : String) : Option BinarySubtype := fixed.find? (·.name == s)

end BinarySubtype

end BsonWriter
