import BsonWriter.Bytes.Hex
import BsonWriter.Text.Encoding

/-!
Object identifiers: twelve bytes that hold three big-endian words, the creation
time in seconds, a machine word and a counter. Their text is 24 hexadecimal
digits. Fresh ids take the time from a clock reading and are kept apart by the
counter, which wraps.
-/

namespace BsonWriter

structure ObjectId where
  bytes : Bytes
  length_bytes : bytes.length = 12
  deriving DecidableEq, Repr

namespace ObjectId

/-- Ids are ordered byte by byte. -/
instance : Ord ObjectId := ⟨fun a b => compare a.bytes b.bytes⟩

def ofBytes? (bs : Bytes) : Option ObjectId :=
  if h : bs.length = 12 then some ⟨bs, h⟩ else none

def wordBytes (x : Int32) : Bytes := bigEndian 4 x.toUInt32.toNat

def ofParts (time machine increment : Int32) : ObjectId :=
  ⟨wordBytes time ++ wordBytes machine ++ wordBytes increment, by simp [wordBytes]⟩

/-- The big-endian word at an offset. -/
def word (id : ObjectId) (offset : Nat) : Int32 :=
  (UInt32.ofNat (ofBigEndian ((id.bytes.drop offset).take 4))).toInt32

def time (id : ObjectId) : Int32 := id.word 0

def machine (id : ObjectId) : Int32 := id.word 4

def increment (id : ObjectId) : Int32 := id.word 8

/-- The 24 lower-case digits of an id. -/
def hex (id : ObjectId) : String := Hex.text id.bytes

/-- The id named as a value. -/
def describe (id : ObjectId) : String := "ObjectId(\"" ++ id.hex ++ "\")"

/-- Why a text is no id. -/
inductive ParseFault
  | badCharacter (c : Char) (index : Nat)
  | badLength (length : Nat)
  deriving DecidableEq, Repr

def ParseFault.message : ParseFault → String
  | badCharacter c index =>
    "invalid character '" ++ c.toString ++ "' encountered at index " ++ index.repr
  | badLength length =>
    "invalid hex string length " ++ length.repr ++ ", expected 24 characters"

/-- Reads an id from its digits. Lengths and positions count UTF-8 bytes, and
a byte that is no digit is shown as the character of that code. -/
def parse (s : String) : Except ParseFault ObjectId :=
  match Hex.parse (utf8 s) with
  | .error .oddLength => .error (.badLength (utf8 s).length)
  | .error (.badDigit b index) => .error (.badCharacter (Char.ofNat b.toNat) index)
  | .ok bs => if h : bs.length = 12 then .ok ⟨bs, h⟩ else .error (.badLength (utf8 s).length)

/-- Where fresh ids come from: a machine word and the next counter value. -/
structure Source where
  machine : Int32
  next : Int32
  deriving DecidableEq, Repr

/-- A fresh id at a clock reading in seconds since the epoch. A clock set
before the epoch reads as zero, and a late one keeps its low 32 bits. -/
def Source.draw (source : Source) (seconds : Int) : ObjectId × Source :=
  (ofParts (if seconds < 0 then 0 else Int32.ofInt seconds) source.machine source.next,
    { source with next := source.next + 1 })

/-- Fresh ids at the given clock readings, in order. -/
def Source.drawAll (source : Source) : List Int → List ObjectId
  | [] => []
  | seconds :: rest => (source.draw seconds).1 :: drawAll (source.draw seconds).2 rest

end ObjectId

end BsonWriter
