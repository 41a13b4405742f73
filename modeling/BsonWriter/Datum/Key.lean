import BsonWriter.Datum.Basic
import BsonWriter.Error
import BsonWriter.Number.Integer

/-!
Data as field names. Texts, characters, integers and alternatives without data
can be names, also inside wrappers; everything else is named in the error.
-/

namespace BsonWriter.Datum

def unusable (found : String) : Except Cause String :=
  .error (.outOfOrder (.unusableKey found))

/-- The field name that a datum stands for. -/
def keyText : Datum → Except Cause String
  | boolean _ => unusable "bool"
  | integer v => .ok (Integer.text v.value)
  | single _ => unusable "f32"
  | double _ => unusable "f64"
  | character c => .ok c.toString
  | text s => .ok s
  | bytes _ => unusable "bytes"
  | empty label => unusable label
  | present d => d.keyText
  | wrapper _ d => d.keyText
  | choice name => .ok name
  | tagged type _ _ => unusable type
  | sequence label _ => unusable label
  | taggedSequence type _ _ => unusable type
  | map _ => unusable "map"
  | record type _ => unusable type
  | taggedRecord type _ _ => unusable type
  | audience => unusable "bool"
  | refusal message => .error (.custom message)

end BsonWriter.Datum
