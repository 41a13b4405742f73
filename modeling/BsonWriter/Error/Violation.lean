import BsonWriter.Wire.ElementType

/-!
Calls that come in an order the document structure does not allow, and the
words for them.
-/

namespace BsonWriter

/-- What a call sets out to do, as messages put it. -/
inductive Activity
  | startObject | startArray | string | rawUtf8 | rawString | binary | number | boolean | null
  | dateTime | objectId | regex | timestamp | symbol | javaScript | value | arrayElement
  deriving DecidableEq, Repr, Inhabited

def Activity.text : Activity → String
  | startObject => "start an object"
  | startArray => "start an array"
  | string => "write string"
  | rawUtf8 => "write raw utf8 string"
  | rawString => "write raw string"
  | binary => "write binary"
  | number => "write number"
  | boolean => "write boolean"
  | null => "write null"
  | dateTime => "write datetime"
  | objectId => "write object id"
  | regex => "write regex"
  | timestamp => "write timestamp"
  | symbol => "write symbol"
  | javaScript => "write javascript"
  | value => "write a value"
  | arrayElement => "write an array element"

/-- What encloses the current position. -/
inductive Enclosing
  | root
  | object
  | array
  deriving DecidableEq, Repr, Inhabited

def Enclosing.text : Enclosing → String
  | root => "ROOT"
  | object => "OBJECT"
  | array => "ARRAY"

/-- A call out of order. The last three arise from no sequence of calls. -/
inductive Violation
  | usedAfterFailure
  | usedAfterClose
  | scalarAtRoot (activity : Activity)
  | nameExpected (activity : Activity)
  | elementOutsideArray
  | valueExpected
  | nameOutsideObject (enclosing : Enclosing)
  | endBeforeValue
  | endOutsideObject (enclosing : Enclosing)
  | endOutsideArray (enclosing : Enclosing)
  | unbalancedScope
  | unusableKey (found : String)
  | slotlessScalar (type : ElementType)
  | nothingToEnd
  | patchPastEnd (width offset size : Nat)
  deriving DecidableEq, Repr, Inhabited

def Violation.message : Violation → String
  | usedAfterFailure => "generator cannot be used after an earlier error"
  | usedAfterClose => "generator is closed"
  | scalarAtRoot activity =>
    "cannot " ++ activity.text ++ " at the top level, expecting a document"
  | nameExpected activity => "cannot " ++ activity.text ++ ", expecting a field name"
  | elementOutsideArray => "cannot write an array element outside of an array"
  | valueExpected => "cannot write a field name, expecting a value"
  | nameOutsideObject enclosing =>
    "cannot write a field name, current context is " ++ enclosing.text ++ " rather than OBJECT"
  | endBeforeValue => "cannot end an object, expecting a value for the last field name"
  | endOutsideObject enclosing => "current context not an OBJECT but " ++ enclosing.text
  | endOutsideArray enclosing => "current context not an ARRAY but " ++ enclosing.text
  | unbalancedScope => "scope serializer left the scope document unbalanced"
  | unusableKey found => "map keys must be strings, found " ++ found
  | slotlessScalar type =>
    "cannot write " ++ type.name ++ " at the top level, expecting a document"
  | nothingToEnd => "cannot end a container that was never started"
  | patchPastEnd width offset size =>
    "patch of " ++ width.repr ++ " bytes at offset " ++ offset.repr ++
      " is past the end of the buffer (" ++ size.repr ++ ")"

end BsonWriter
