import BsonWriter.Text.Quoted

/-!
Regular expressions: a pattern and four matching flags. On the wire the flags
become option letters, always in the same order.
-/

namespace BsonWriter

structure RegexFlags where
  caseInsensitive : Bool := false
  multiline : Bool := false
  dotAll : Bool := false
  unicodeCase : Bool := false
  deriving DecidableEq, Repr, Inhabited

namespace RegexFlags

def empty : RegexFlags := {}

/-- The flag of an option letter. -/
def ofLetter? : Char → Option RegexFlags
  | 'i' => some { caseInsensitive := true }
  | 'm' => some { multiline := true }
  | 's' => some { dotAll := true }
  | 'u' => some { unicodeCase := true }
  | _ => none

def union (a b : RegexFlags) : RegexFlags :=
  ⟨a.caseInsensitive || b.caseInsensitive, a.multiline || b.multiline, a.dotAll || b.dotAll,
    a.unicodeCase || b.unicodeCase⟩

/-- The union of the flags of some letters; other letters add nothing. -/
def ofLetters (s : String) : RegexFlags := (s.toList.filterMap ofLetter?).foldl union empty

/-- Whether all flags of `b` are among those of `a`. -/
def contains (a b : RegexFlags) : Bool := a.union b = a

def isEmpty (a : RegexFlags) : Bool := a = empty

/-- The option letters, in the order `i`, `m`, `s`, `u`. -/
def letters (a : RegexFlags) : String :=
  (if a.caseInsensitive then "i" else "") ++ (if a.multiline then "m" else "") ++
    (if a.dotAll then "s" else "") ++ (if a.unicodeCase then "u" else "")

/-- The flags as a binary number, case insensitivity lowest. -/
def number (a : RegexFlags) : Nat :=
  a.caseInsensitive.toNat + 2 * a.multiline.toNat + 4 * a.dotAll.toNat + 8 * a.unicodeCase.toNat

end RegexFlags

structure Regex where
  pattern : String
  flags : RegexFlags
  deriving DecidableEq, Repr, Inhabited

namespace Regex

/-- The pattern between slashes, then the option letters. -/
def text (r : Regex) : String := "/" ++ r.pattern ++ "/" ++ r.flags.letters

def describe (r : Regex) : String :=
  "Regex \x7b pattern: " ++ quoted r.pattern ++ ", flags: RegexFlags(" ++ r.flags.number.repr ++
    ") \x7d"

end Regex

end BsonWriter
