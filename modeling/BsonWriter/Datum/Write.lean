import BsonWriter.Datum.Key
import BsonWriter.Writer.Calls

/-!
Writing a datum at the current position, by the same calls that a caller would
make for its parts. Records and maps become documents, sequences arrays, and an
alternative with data a document of one field that is named after it.
-/

namespace BsonWriter

/-- How the next datum is to be read: as it is, as the digits of an object id,
as the milliseconds of an instant, or as fields of a document that is open
already. -/
inductive Reading
  | plain
  | objectId
  | dateTime
  | fields
  deriving DecidableEq, Repr, Inhabited

/-- The reading inside a wrapper. -/
def Reading.inside (reading : Reading) (name : String) : Reading :=
  if name = Datum.objectIdMark then .objectId
  else if name = Datum.dateTimeMark then .dateTime
  else reading

namespace Datum

/-- The scalar of an integer: 32 bits for the types that fit in them, else 64
bits if its value fits, else its digits. -/
def integerScalar (v : TypedInteger) : Scalar :=
  match v.type with
  | .int8 | .int16 | .int32 | .nat8 | .nat16 => .int32 (Int32.ofInt v.value)
  | .int64 | .nat32 => .int64 (Int64.ofInt v.value)
  | .nat64 =>
    if v.value < 0x8000000000000000 then .int64 (Int64.ofInt v.value) else .integer v.value
  | .int128 | .nat128 => .integer v.value

def writeInteger (reading : Reading) (v : TypedInteger) : Action Unit :=
  if reading = .dateTime ∧ v.type = .int64 then
    Action.write .direct (.dateTime ⟨Int64.ofInt v.value⟩)
  else Action.write .direct (integerScalar v)

def writeText (reading : Reading) (s : String) : Action Unit :=
  if reading = .objectId then
    match ObjectId.parse s with
    | .ok id => Action.write .direct (.objectId id)
    | .error fault => Action.raise (.badObjectId fault)
  else Action.write .direct (.string s)

def writeKey (d : Datum) : Action Unit :=
  match d.keyText with
  | .ok name => Action.fieldName name
  | .error cause => Action.raise cause

mutual

/-- Writes a datum. Only wrappers and present values pass the reading on. -/
def write (reading : Reading) : Datum → Action Unit
  | boolean b => Action.write .direct (.boolean b)
  | integer v => writeInteger reading v
  | single x => Action.write .direct (.single x)
  | double x => Action.write .direct (.double x)
  | character c => writeText reading c.toString
  | text s => writeText reading s
  | bytes bs => Action.write .direct (.binary .generic bs)
  | empty _ => Action.write .direct .null
  | present d => d.write reading
  | wrapper name d => d.write (reading.inside name)
  | choice name => writeText reading name
  | tagged _ name d => do
    Action.beginDocument
    Action.fieldName name
    d.write .plain
    Action.endDocument
  | sequence _ items => do
    Action.beginArray
    writeItems items
    Action.endArray
  | taggedSequence _ name items => do
    Action.beginDocument
    Action.fieldName name
    Action.beginArray
    writeItems items
    Action.endArray
    Action.endDocument
  | map steps =>
    if reading = .fields then writeSteps steps
    else do
      Action.beginDocument
      writeSteps steps
      Action.endDocument
  | record _ fields =>
    if reading = .fields then writeFields fields
    else do
      Action.beginDocument
      writeFields fields
      Action.endDocument
  | taggedRecord _ name fields => do
    Action.beginDocument
    Action.fieldName name
    Action.beginDocument
    writeFields fields
    Action.endDocument
    Action.endDocument
  | audience => Action.write .direct (.boolean false)
  | refusal message => Action.raise (.custom message)

def writeItems : List Datum → Action Unit
  | [] => pure ()
  | d :: rest => do
    d.write .plain
    writeItems rest

def writeSteps : List (MapStep × Datum) → Action Unit
  | [] => pure ()
  | (.key, d) :: rest => do
    d.writeKey
    writeSteps rest
  | (.value, d) :: rest => do
    d.write .plain
    writeSteps rest

def writeFields : List (String × Datum) → Action Unit
  | [] => pure ()
  | (name, d) :: rest => do
    Action.fieldName name
    d.write .plain
    writeFields rest

end

/-- The fields of a datum as the scope of code. -/
def asScope (d : Datum) : Action Unit := d.write .fields

/-- The datum for an object id. -/
def ofObjectId (id : ObjectId) : Datum := wrapper objectIdMark (text id.hex)

/-- The datum for an instant. -/
def ofDateTime (t : DateTime) : Datum := wrapper dateTimeMark (integer (.ofInt64 t.millis))

end Datum

/-- Writes a datum at the current position. -/
def Action.serialize (d : Datum) : Action Unit := tracked (d.write .plain)

/-- The document that a session of its own writes for a datum. -/
def Datum.toBytes (options : Options) (d : Datum) : Except Error Bytes :=
  let session : Action Unit := do
    Action.serialize d
    Action.close
  match session.run { options := options } with
  | .ok () w => .ok w.sink.held
  | .error e _ => .error e

end BsonWriter
