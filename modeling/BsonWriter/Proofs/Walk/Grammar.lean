import BsonWriter.Proofs.Action.Yields
import Mathlib.Data.List.Forall2

/-!
Depth-first walks as words of a grammar, and the stack of expectations as the
machine that reads them. The stack goes on exactly as long as the tokens can still
become a word (`viable_iff_reads`), because for every stack there is a language of
words that finish what it leaves open (`Finishes`).
-/

namespace BsonWriter

/-- A call as the grammar sees it. -/
inductive Token
  | begins (shape : Shape)
  | ends (shape : Shape)
  | name
  | scalar
  deriving DecidableEq, Repr

/-- `content shape` is what stands between the beginning and the end of a container:
fields in a document, values in an array. -/
inductive Nonterminal
  | forest
  | container
  | value
  | content (shape : Shape)
  deriving DecidableEq, Repr

/-- The grammar of walks: a forest is a sequence of containers, a document has a name
before each value and an array has values only, and a value is a scalar or a
container. -/
inductive Derives : Nonterminal → List Token → Prop
  | noTree : Derives .forest []
  | tree {a b : List Token} :
    Derives .container a → Derives .forest b → Derives .forest (a ++ b)
  | container {shape : Shape} {a : List Token} :
    Derives (.content shape) a → Derives .container (.begins shape :: (a ++ [.ends shape]))
  | scalar : Derives .value [.scalar]
  | nested {a : List Token} : Derives .container a → Derives .value a
  | nothing (shape : Shape) : Derives (.content shape) []
  | field {a b : List Token} : Derives .value a → Derives (.content .document) b →
    Derives (.content .document) (.name :: (a ++ b))
  | item {a b : List Token} :
    Derives .value a → Derives (.content .array) b → Derives (.content .array) (a ++ b)

/-- The tokens are the front part of a word. -/
def Viable (tokens : List Token) : Prop := ∃ rest, Derives .forest (tokens ++ rest)

/-! ## Reading tokens -/

theorem toOption_eq_some {ε α : Type} {x : Except ε α} {a : α} :
    x.toOption = some a ↔ x = .ok a := by
  cases x <;> simp [Except.toOption]

namespace Token

/-- The expectations after a token, if it may come. -/
def next : Token → List Expectation → Option (List Expectation)
  | begins shape, es =>
    (Expectation.admitValue .container shape.activity es).toOption.map (shape.expectation :: ·)
  | ends shape, es => (Action.leave shape es).toOption
  | name, es => (Expectation.admitName es).toOption
  | scalar, es => (Expectation.admitValue .scalar .value es).toOption

/-- The expectations after some tokens, if all of them may come. -/
def reads : List Token → List Expectation → Option (List Expectation)
  | [], es => some es
  | token :: rest, es => (token.next es).bind (reads rest)

theorem reads_append (a b : List Token) (es : List Expectation) :
    reads (a ++ b) es = (reads a es).bind (reads b) := by
  induction a generalizing es with
  | nil => rfl
  | cons token a ih =>
    rw [List.cons_append, reads, reads, Option.bind_assoc]
    exact congrArg _ (funext ih)

end Token

namespace Expectation

/-- Which value may come depends on its kind only, not on what messages call it. -/
theorem toOption_admitValue (kind : ValueKind) (activity other : Activity)
    (es : List Expectation) :
    (admitValue kind activity es).toOption = (admitValue kind other es).toOption := by
  cases es with
  | nil => cases kind <;> rfl
  | cons e es => cases e <;> rfl

theorem admitValue_activity {kind : ValueKind} {activity : Activity} {es es' : List Expectation}
    (h : admitValue kind activity es = .ok es') (other : Activity) :
    admitValue kind other es = .ok es' := by
  rw [← toOption_eq_some] at h ⊢
  rw [← h]
  exact toOption_admitValue ..

/-- Where a scalar may come, a container may come. -/
theorem admitValue_container {activity : Activity} {es es' : List Expectation}
    (h : admitValue .scalar activity es = .ok es') (other : Activity) :
    admitValue .container other es = .ok es' := by
  cases es with
  | nil => cases h
  | cons e es => cases e <;> cases h <;> rfl

end Expectation

open Expectation (admitValue admitValue_activity admitValue_container)

/-! ## Words are read -/

/-- What reading a part of a word does to the expectations: a value takes a value's
place, and the content of a container leaves everything as it is. -/
def Nonterminal.Read : Nonterminal → List Token → Prop
  | forest, a => Token.reads a [] = some []
  | container, a => ∀ activity es es', admitValue .container activity es = .ok es' →
    Token.reads a es = some es'
  | value, a => ∀ activity es es', admitValue .scalar activity es = .ok es' →
    Token.reads a es = some es'
  | content shape, a => ∀ es,
    Token.reads a (shape.expectation :: es) = some (shape.expectation :: es)

theorem Derives.read {n : Nonterminal} {a : List Token} (h : Derives n a) : n.Read a := by
  induction h with
  | noTree => rfl
  | tree _ _ iha ihb =>
    rw [Nonterminal.Read, Token.reads_append, iha .startObject [] [] rfl]
    exact ihb
  | @container shape a _ ih =>
    intro activity es es' h
    rw [Token.reads, Token.next, admitValue_activity h shape.activity]
    simp only [Except.toOption, Option.map_some, Option.bind_some, Token.reads_append, ih es',
      Token.reads, Token.next, Action.leave_expectation]
  | scalar =>
    intro activity es es' h
    rw [Token.reads, Token.next, admitValue_activity h .value]
    rfl
  | nested _ ih => exact fun activity es es' h => ih activity es es' (admitValue_container h _)
  | nothing shape => exact fun es => rfl
  | field _ _ iha ihb =>
    intro es
    have hvalue := iha .value (.value :: es) (.name :: es) rfl
    rw [Token.reads, show Token.next .name (Shape.document.expectation :: es) =
      some (.value :: es) from rfl, Option.bind_some, Token.reads_append, hvalue, Option.bind_some]
    exact ihb es
  | item _ _ iha ihb =>
    intro es
    have hvalue := iha .value (.element :: es) (.element :: es) rfl
    rw [show Shape.array.expectation :: es = .element :: es from rfl, Token.reads_append, hvalue,
      Option.bind_some]
    exact ihb es

/-! ## What is left open can be finished -/

/-- The word finishes all that the expectations leave open. -/
inductive Finishes : List Expectation → List Token → Prop
  | forest {a : List Token} : Derives .forest a → Finishes [] a
  | document {es : List Expectation} {a rest : List Token} : Derives (.content .document) a →
    Finishes es rest → Finishes (.name :: es) (a ++ .ends .document :: rest)
  | array {es : List Expectation} {a rest : List Token} : Derives (.content .array) a →
    Finishes es rest → Finishes (.element :: es) (a ++ .ends .array :: rest)
  | value {es : List Expectation} {a rest : List Token} : Derives .value a →
    Finishes (.name :: es) rest → Finishes (.value :: es) (a ++ rest)

theorem Finishes.content {shape : Shape} {es : List Expectation} {a rest : List Token}
    (ha : Derives (.content shape) a) (h : Finishes es rest) :
    Finishes (shape.expectation :: es) (a ++ .ends shape :: rest) := by
  cases shape with
  | document => exact .document ha h
  | array => exact .array ha h

/-- An open container has some content yet to come, and then ends. -/
theorem Finishes.exists_content {shape : Shape} {es : List Expectation} {w : List Token}
    (h : Finishes (shape.expectation :: es) w) :
    ∃ a rest, Derives (.content shape) a ∧ Finishes es rest ∧ w = a ++ .ends shape :: rest := by
  cases shape with
  | document =>
    cases h with
    | document ha h => exact ⟨_, _, ha, h, rfl⟩
  | array =>
    cases h with
    | array ha h => exact ⟨_, _, ha, h, rfl⟩

/-- For every stack there is such a word. -/
theorem exists_finishes (es : List Expectation) : ∃ w, Finishes es w := by
  induction es with
  | nil => exact ⟨[], .forest .noTree⟩
  | cons e es ih =>
    obtain ⟨w, h⟩ := ih
    cases e with
    | name => exact ⟨_, .document (.nothing _) h⟩
    | value => exact ⟨_, .value .scalar (.document (.nothing _) h)⟩
    | element => exact ⟨_, .array (.nothing _) h⟩

/-- A container may come wherever one is admitted. -/
theorem Finishes.container {activity : Activity} {es es' : List Expectation} {a rest : List Token}
    (ha : Derives .container a) (he : admitValue .container activity es = .ok es')
    (h : Finishes es' rest) : Finishes es (a ++ rest) := by
  cases es with
  | nil =>
    cases he
    cases h with
    | forest h => exact .forest (.tree ha h)
  | cons e es =>
    cases e with
    | name => cases he
    | value =>
      cases he
      exact .value (.nested ha) h
    | element =>
      cases he
      cases h with
      | array hb h =>
        rw [← List.append_assoc]
        exact .array (.item (.nested ha) hb) h

/-- A token that may come stands before whatever finishes the stack after it. -/
theorem Finishes.cons {token : Token} {es es' : List Expectation} {rest : List Token}
    (hn : token.next es = some es') (h : Finishes es' rest) : Finishes es (token :: rest) := by
  cases token with
  | begins shape =>
    rw [Token.next, Option.map_eq_some_iff] at hn
    obtain ⟨outer, hadmit, rfl⟩ := hn
    rw [toOption_eq_some] at hadmit
    obtain ⟨a, rest, ha, hrest, rfl⟩ := h.exists_content
    have hfinish := Finishes.container (.container ha) hadmit hrest
    simpa using hfinish
  | ends shape =>
    rw [Token.next, toOption_eq_some] at hn
    rw [Action.leave_eq_ok hn]
    exact Finishes.content (.nothing shape) h
  | name =>
    rw [Token.next, toOption_eq_some] at hn
    cases es with
    | nil => cases hn
    | cons e es =>
      cases e with
      | value => cases hn
      | element => cases hn
      | name =>
        cases hn
        cases h with
        | value hv h =>
          cases h with
          | @document _ a w ha h =>
            rw [← List.append_assoc, ← List.cons_append]
            exact .document (.field hv ha) h
  | scalar =>
    rw [Token.next, toOption_eq_some] at hn
    cases es with
    | nil => cases hn
    | cons e es =>
      cases e with
      | name => cases hn
      | value =>
        cases hn
        exact .value .scalar h
      | element =>
        cases hn
        cases h with
        | @array _ a w ha h => exact .array (.item .scalar ha) h

theorem Finishes.append {tokens : List Token} {es es' : List Expectation} {rest : List Token}
    (hr : Token.reads tokens es = some es') (h : Finishes es' rest) :
    Finishes es (tokens ++ rest) := by
  induction tokens generalizing es with
  | nil =>
    cases hr
    exact h
  | cons token tokens ih =>
    obtain ⟨u, hn, hr⟩ := Option.bind_eq_some_iff.mp hr
    exact Finishes.cons hn (ih hr)

/-- The tokens that can still become a word are those that are read. -/
theorem viable_iff_reads (tokens : List Token) :
    Viable tokens ↔ ∃ es, Token.reads tokens [] = some es := by
  constructor
  · rintro ⟨rest, h⟩
    have hread := h.read
    rw [Nonterminal.Read, Token.reads_append] at hread
    obtain ⟨es, hr, -⟩ := Option.bind_eq_some_iff.mp hread
    exact ⟨es, hr⟩
  · rintro ⟨es, hr⟩
    obtain ⟨rest, h⟩ := exists_finishes es
    cases Finishes.append hr h with
    | forest h => exact ⟨rest, h⟩

/-! ## Depth -/

namespace Token

/-- How many containers begin among the tokens. -/
def begun : List Token → Nat
  | [] => 0
  | begins _ :: rest => begun rest + 1
  | _ :: rest => begun rest

/-- How many containers end among the tokens. -/
def ended : List Token → Nat
  | [] => 0
  | ends _ :: rest => ended rest + 1
  | _ :: rest => ended rest

theorem length_admitValue {kind : ValueKind} {activity : Activity} {es es' : List Expectation}
    (h : admitValue kind activity es = .ok es') : es'.length = es.length := by
  cases es with
  | nil => cases kind <;> cases h; rfl
  | cons e es => cases e <;> cases h <;> rfl

theorem length_admitName {es es' : List Expectation} (h : Expectation.admitName es = .ok es') :
    es'.length = es.length := by
  cases es with
  | nil => cases h
  | cons e es => cases e <;> cases h; rfl

/-- There are as many expectations as containers that have begun and not ended. -/
theorem length_reads {tokens : List Token} {es es' : List Expectation}
    (h : reads tokens es = some es') : es'.length + ended tokens = es.length + begun tokens := by
  induction tokens generalizing es with
  | nil =>
    cases h
    rfl
  | cons token tokens ih =>
    obtain ⟨u, hn, hr⟩ := Option.bind_eq_some_iff.mp h
    have hrest := ih hr
    cases token with
    | begins shape =>
      obtain ⟨v, hadmit, rfl⟩ := Option.map_eq_some_iff.mp hn
      have hl := length_admitValue (toOption_eq_some.mp hadmit)
      simp only [begun, ended, List.length_cons] at hrest ⊢
      omega
    | ends shape =>
      have hl := congrArg List.length (Action.leave_eq_ok (toOption_eq_some.mp hn))
      simp only [begun, ended, List.length_cons] at hrest hl ⊢
      omega
    | name =>
      have hl := length_admitName (toOption_eq_some.mp hn)
      simp only [begun, ended] at hrest ⊢
      omega
    | scalar =>
      have hl := length_admitValue (toOption_eq_some.mp hn)
      simp only [begun, ended] at hrest ⊢
      omega

end Token

end BsonWriter
