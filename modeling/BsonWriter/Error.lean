import BsonWriter.Error.Violation
import BsonWriter.Output.Sink
import BsonWriter.Text.Quoted
import BsonWriter.Value.ObjectId

/-!
Everything that can go wrong while writing, with its message. An error may carry
the field name at which it arose.
-/

namespace BsonWriter

inductive Cause
  | outOfOrder (violation : Violation)
  | missingSequence (character : Char)
  | nullInCString (text : String)
  | invalidUtf8
  | lengthOverflow (length : Nat)
  | alreadyFlushed (offset : Nat)
  | badObjectId (fault : ObjectId.ParseFault)
  | sink (fault : Sink.Fault)
  | custom (message : String)
  deriving DecidableEq, Repr, Inhabited

def Cause.message : Cause → String
  | outOfOrder violation => "Protocol violation: " ++ violation.message
  | missingSequence character =>
    "Invalid custom escape definitions; custom escape not found for character " ++
      quotedSingle character ++ ", although was supposed to have one"
  | nullInCString text => "cstring with interior null: " ++ quoted text
  | invalidUtf8 => "Invalid UTF-8"
  | lengthOverflow length => "length " ++ length.repr ++ " exceeds the maximum BSON size"
  | alreadyFlushed offset =>
    "cannot backpatch offset " ++ offset.repr ++ ": the bytes were already flushed to the sink"
  | badObjectId fault => "Invalid ObjectId: " ++ fault.message
  | sink fault => "An IO error occurred: " ++ fault.message
  | custom message => message

structure Error where
  cause : Cause
  key : Option String := none
  deriving DecidableEq, Repr, Inhabited

instance : Coe Cause Error := ⟨fun cause => ⟨cause, none⟩⟩

namespace Error

def message (e : Error) : String :=
  (match e.key with
    | none => ""
    | some key => "Error at key \"" ++ key ++ "\": ") ++ e.cause.message

/-- Whether the sink is at fault. -/
def isIo (e : Error) : Bool := match e.cause with
  | .sink _ => true
  | _ => false

/-- Whether a call came out of order. -/
def isOutOfOrder (e : Error) : Bool := match e.cause with
  | .outOfOrder _ => true
  | _ => false

end Error

end BsonWriter
