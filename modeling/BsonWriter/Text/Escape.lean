/-!
Substitution of characters in names and texts before they are written. A table
marks characters by their code and gives a sequence for each character that
may be marked; a marked character without a sequence makes the text unwritable.
Characters that are not marked are not touched one by one: the run of bytes
between two marked characters is copied in one go, and a text without marked
characters is passed on as it is.
-/

namespace BsonWriter

/-- How a table treats a character. -/
inductive EscapeCode
  | plain
  | custom
  deriving DecidableEq, Repr, Inhabited

/-- An escape table. `codes` is indexed by character code, and characters
beyond its end are never replaced; of several sequences for one character the
first counts. -/
structure EscapeTable where
  codes : List EscapeCode
  sequences : List (Char × String)
  deriving DecidableEq, Repr, Inhabited

/-- The characters of a text, each with the index of its first byte. -/
def charIndices (start : Nat) : List Char → List (Nat × Char)
  | [] => []
  | c :: cs => (start, c) :: charIndices (start + c.utf8Size) cs

/-- The part of a text between two byte indices. Both must be boundaries between
characters. -/
def slice (s : String) (start stop : Nat) : String := String.Pos.Raw.extract s ⟨start⟩ ⟨stop⟩

/-- A text after substitution: the text itself, or a new one. -/
inductive Substituted
  | same (s : String)
  | fresh (s : String)
  deriving DecidableEq, Repr

def Substituted.text : Substituted → String
  | same s => s
  | fresh s => s

/-- How far a text has been substituted: `out` stands for its bytes before `last`. Without a
replacement so far there is no `out`. -/
structure Substitution where
  out : Option String := none
  last : Nat := 0
  deriving DecidableEq, Repr

/-- Copies the run that is left behind the last replacement. -/
def Substitution.finish (sub : Substitution) (s : String) : Substituted :=
  match sub.out with
  | none => .same s
  | some out => .fresh (out ++ slice s sub.last s.utf8ByteSize)

namespace EscapeTable

def isAscii (c : Char) : Bool := c.toNat < 128

/-- A table for the ASCII characters that replaces none of them. -/
def ascii : EscapeTable := ⟨List.replicate 128 .plain, []⟩

/-- Replaces `c` by `sequence`; a character outside ASCII is left alone. -/
def withEscape (t : EscapeTable) (c : Char) (sequence : String) : EscapeTable :=
  if isAscii c then ⟨t.codes.set c.toNat .custom, (c, sequence) :: t.sequences⟩ else t

/-- Sets only the code of `c`; a character outside ASCII is left alone. -/
def withCode (t : EscapeTable) (c : Char) (code : EscapeCode) : EscapeTable :=
  if isAscii c then { t with codes := t.codes.set c.toNat code } else t

/-- A table of `size` codes that marks the given characters. -/
def ofMarks (size : Nat) (marked : List Char) (sequences : List (Char × String)) : EscapeTable :=
  ⟨(List.range size).map fun n =>
      if marked.any (·.toNat == n) then .custom else .plain, sequences⟩

/-- The code of a character, or nothing if it lies beyond the codes. -/
def code? (t : EscapeTable) (c : Char) : Option EscapeCode := t.codes[c.toNat]?

def sequence? (t : EscapeTable) (c : Char) : Option String := t.sequences.lookup c

/-- Passes the character at a byte index. Only a marked one leaves a trace: the run
before it is copied, then its sequence. The error is a marked character that has no
sequence. -/
def pass (t : EscapeTable) (s : String) (sub : Substitution) (i : Nat) (c : Char) :
    Except Char Substitution :=
  if t.code? c ≠ some .custom then .ok sub
  else
    match t.sequence? c with
    | none => .error c
    | some sequence =>
      let out := sub.out.getD ""
      .ok ⟨some (out ++ slice s sub.last i ++ sequence), i + c.utf8Size⟩

def passAll (t : EscapeTable) (s : String) (sub : Substitution) :
    List (Nat × Char) → Except Char Substitution
  | [] => .ok sub
  | (i, c) :: rest =>
    match t.pass s sub i c with
    | .error e => .error e
    | .ok sub => passAll t s sub rest

end EscapeTable

/-- What becomes of a text. Without a table it stays as it is; the error is the first
marked character without a sequence. -/
def substitute (table : Option EscapeTable) (s : String) : Except Char Substituted :=
  match table with
  | none => .ok (.same s)
  | some t => (t.passAll s {} (charIndices 0 s.toList)).map (·.finish s)

/-- The text that is written. -/
def escape (table : Option EscapeTable) (s : String) : Except Char String :=
  (substitute table s).map Substituted.text

@[simp] theorem escape_none (s : String) : escape none s = .ok s := rfl

end BsonWriter
