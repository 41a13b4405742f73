import BsonWriter.Error
import BsonWriter.Text.Encoding
import BsonWriter.Text.Escape

/-!
The bytes of a value after its type and name. A payload that cannot be written
in full still has the bytes that come before the fault.
-/

namespace BsonWriter

/-- The bytes that are written, and what then goes wrong if anything does. -/
structure Payload where
  written : Bytes
  failure : Option Cause := none
  deriving DecidableEq, Repr, Inhabited

/-- The greatest length that a length field can hold is one less. -/
def lengthBound : Nat := 0x80000000

def lengthField (n : Nat) : Bytes := littleEndian 4 n

namespace Payload

def fault (cause : Cause) : Payload := ⟨[], some cause⟩

/-- One payload after another; nothing follows a fault. -/
def andThen (p q : Payload) : Payload :=
  match p.failure with
  | some _ => p
  | none => ⟨p.written ++ q.written, q.failure⟩

/-- The payload of an escaped text. -/
def escaped (table : Option EscapeTable) (s : String) (payload : String → Payload) : Payload :=
  match escape table s with
  | .error c => fault (.missingSequence c)
  | .ok s => payload s

/-- The bytes up to a terminator; they may not contain it. -/
def cstringVerbatim (s : String) : Payload :=
  if s.toList.contains '\x00' then fault (.nullInCString s) else ⟨utf8 s ++ [endOfString], none⟩

/-- A name or pattern, escaped and ended by a terminator. -/
def cstring (table : Option EscapeTable) (s : String) : Payload :=
  escaped table s cstringVerbatim

/-- The length, the bytes and a terminator; the length counts the terminator. -/
def sized (bs : Bytes) : Payload :=
  if bs.length + 1 < lengthBound then
    ⟨lengthField (bs.length + 1) ++ bs ++ [endOfString], none⟩
  else fault (.lengthOverflow (bs.length + 1))

/-- A text, escaped and sized. -/
def string (table : Option EscapeTable) (s : String) : Payload :=
  escaped table s fun s => sized (utf8 s)

/-- Bytes that must be well-formed, sized and not escaped. -/
def utf8String (bs : Bytes) : Payload := if isUtf8 bs then sized bs else fault .invalidUtf8

/-- A length, a subtype and data. The length is what the caller says. -/
def binary (subtype : UInt8) (length : Nat) (data : Bytes) : Payload :=
  if length < lengthBound then ⟨lengthField length ++ subtype :: data, none⟩
  else fault (.lengthOverflow length)

end Payload

end BsonWriter
