import Mathlib.Data.List.Induction
import BsonWriter.Proofs.Run.Step
import BsonWriter.Proofs.Text.Escaping
import BsonWriter.Proofs.Tree.Basic

/-!
What a table makes of a text. Each character is spelled by itself or by its sequence, one
after another, and the first marked character without a sequence is the fault that is
reported (`escape_eq_ok_iff`, `escape_eq_error_iff`). A table that is built step by step
remembers for each character the last step about it (`code?_build`, `sequence?_build`). A
field name is accepted if none of its characters is spelled with a null character
(`escape_substitutes`).
-/

namespace BsonWriter

open BsonWriter.Action

/-! ## One character -/

/-- The character is marked and has no sequence, so a text that holds it cannot be written. -/
def Unspelled (table : Option EscapeTable) (c : Char) : Prop :=
  ∃ t ∈ table, t.code? c = some .custom ∧ t.sequence? c = none

/-- What is written for a character: its sequence if it is marked, else itself. A character
beyond the codes of the table is not marked. -/
def spelling (table : Option EscapeTable) (c : Char) : List Char :=
  match table with
  | none => [c]
  | some t => if t.code? c = some .custom then ((t.sequence? c).getD "").toList else [c]

namespace EscapeTable

variable {t : EscapeTable} {c : Char}

theorem replace_of_unspelled (h : Unspelled (some t) c) : t.replace c = .error c := by
  obtain ⟨_, ⟨⟩, hcode, hsequence⟩ := h
  simp [replace, hcode, hsequence]

theorem replace_of_not_unspelled (h : ¬Unspelled (some t) c) :
    t.replace c = .ok (spelling (some t) c) := by
  unfold replace spelling
  by_cases hcode : t.code? c = some .custom
  · cases hsequence : t.sequence? c with
    | none => exact absurd ⟨t, rfl, hcode, hsequence⟩ h
    | some sequence => simp [hcode, hsequence]
  · simp [hcode]

/-! ## A text -/

theorem replaceAll_of_spelled {cs : List Char} (h : ∀ c ∈ cs, ¬Unspelled (some t) c) :
    t.replaceAll cs = .ok (cs.flatMap (spelling (some t))) := by
  induction cs with
  | nil => rfl
  | cons c cs ih =>
    have hc := replace_of_not_unspelled (h c List.mem_cons_self)
    simp [replaceAll, hc, ih fun d hd => h d (List.mem_cons_of_mem c hd)]

theorem replaceAll_of_first {before : List Char} (h : ∀ d ∈ before, ¬Unspelled (some t) d)
    (hc : Unspelled (some t) c) (after : List Char) :
    t.replaceAll (before ++ c :: after) = .error c := by
  induction before with
  | nil => simp [replaceAll, replace_of_unspelled hc]
  | cons d before ih =>
    have hd := replace_of_not_unspelled (h d List.mem_cons_self)
    simp [replaceAll, hd, ih fun e he => h e (List.mem_cons_of_mem d he)]

end EscapeTable

/-- Either all characters of a text can be spelled, or there is a first that cannot. -/
theorem spelled_or_first (table : Option EscapeTable) (cs : List Char) :
    (∀ c ∈ cs, ¬Unspelled table c) ∨
      ∃ before c after, cs = before ++ c :: after ∧ Unspelled table c ∧
        ∀ d ∈ before, ¬Unspelled table d := by
  induction cs with
  | nil => exact .inl nofun
  | cons c cs ih =>
    by_cases hc : Unspelled table c
    · exact .inr ⟨[], c, cs, rfl, hc, nofun⟩
    rcases ih with hall | ⟨before, d, after, rfl, hd, hbefore⟩
    · exact .inl (List.forall_mem_cons.mpr ⟨hc, hall⟩)
    · exact .inr ⟨c :: before, d, after, rfl, hd, List.forall_mem_cons.mpr ⟨hc, hbefore⟩⟩

section

variable {table : Option EscapeTable} {s : String}

theorem escape_of_spelled (h : ∀ c ∈ s.toList, ¬Unspelled table c) :
    escape table s = .ok (String.ofList (s.toList.flatMap (spelling table))) := by
  cases table with
  | none =>
    have hsame : s.toList.flatMap (spelling none) = s.toList := List.flatMap_singleton' _
    rw [hsame, String.ofList_toList, escape_none]
  | some t =>
    rw [escape_some, EscapeTable.replaceAll_of_spelled h]
    rfl

theorem escape_of_first {before after : List Char} {c : Char} (hs : s.toList = before ++ c :: after)
    (hc : Unspelled table c) (h : ∀ d ∈ before, ¬Unspelled table d) :
    escape table s = .error c := by
  obtain ⟨t, rfl, -⟩ := id hc
  rw [escape_some, hs, EscapeTable.replaceAll_of_first h hc]
  rfl

/-- A text is substituted exactly if all its characters can be spelled, and then it is
their spellings one after another. -/
theorem escape_eq_ok_iff {text : String} : escape table s = .ok text ↔
    (∀ c ∈ s.toList, ¬Unspelled table c) ∧ text.toList = s.toList.flatMap (spelling table) := by
  constructor
  · intro h
    rcases spelled_or_first table s.toList with hall | ⟨before, c, after, hs, hc, hbefore⟩
    · rw [escape_of_spelled hall] at h
      cases h
      exact ⟨hall, String.toList_ofList⟩
    · rw [escape_of_first hs hc hbefore] at h
      cases h
  · rintro ⟨hall, htext⟩
    rw [escape_of_spelled hall, ← htext, String.ofList_toList]

/-- What is reported is the first character that cannot be spelled. -/
theorem escape_eq_error_iff {c : Char} : escape table s = .error c ↔
    ∃ before after, s.toList = before ++ c :: after ∧ Unspelled table c ∧
      ∀ d ∈ before, ¬Unspelled table d := by
  constructor
  · intro h
    rcases spelled_or_first table s.toList with hall | ⟨before, d, after, hs, hd, hbefore⟩
    · rw [escape_of_spelled hall] at h
      cases h
    · rw [escape_of_first hs hd hbefore] at h
      cases h
      exact ⟨before, after, hs, hd, hbefore⟩
  · rintro ⟨before, after, hs, hc, hbefore⟩
    exact escape_of_first hs hc hbefore

/-- A name or pattern can be written exactly if every character of it has a spelling without
null characters, whatever the character itself is. -/
theorem writtenName_isSome_iff : (writtenName table s).isSome = true ↔
    ∀ c ∈ s.toList, ¬Unspelled table c ∧ '\x00' ∉ spelling table c := by
  constructor
  · intro h
    obtain ⟨text, ht⟩ := Option.isSome_iff_exists.mp h
    have hescape := escape_of_writtenText (Option.filter_eq_some_iff.mp ht).1
    obtain ⟨hall, htext⟩ := escape_eq_ok_iff.mp hescape
    have hnull := notMem_of_writtenName ht
    rw [htext] at hnull
    exact fun c hc => ⟨hall c hc, fun hmem => hnull (List.mem_flatMap.mpr ⟨c, hc, hmem⟩)⟩
  · intro h
    have hnull : '\x00' ∉ s.toList.flatMap (spelling table) := by
      rw [List.mem_flatMap]
      rintro ⟨c, hc, hmem⟩
      exact (h c hc).2 hmem
    rw [writtenName, writtenText, escape_of_spelled fun c hc => (h c hc).1]
    simp [Except.toOption, Option.filter, hnull]

end

/-! ## Tables built step by step -/

/-- A step in the making of a table. -/
inductive TableStep
  | withEscape (c : Char) (sequence : String)
  | withCode (c : Char) (code : EscapeCode)
  deriving DecidableEq, Repr

namespace TableStep

/-- The character that a step is about. -/
def about : TableStep → Char
  | withEscape c _ => c
  | withCode c _ => c

def apply (t : EscapeTable) : TableStep → EscapeTable
  | withEscape c sequence => t.withEscape c sequence
  | withCode c code => t.withCode c code

/-- The table that some steps make, in order. -/
def build (steps : List TableStep) : EscapeTable := steps.foldl apply .ascii

/-- The code that a step sets for a character. -/
def codeOf (c : Char) : TableStep → Option EscapeCode
  | withEscape d _ => if d = c then some .custom else none
  | withCode d code => if d = c then some code else none

/-- The sequence that a step gives to a character. -/
def sequenceOf (c : Char) : TableStep → Option String
  | withEscape d sequence => if d = c then some sequence else none
  | withCode .. => none

/-- The last code that some steps have set for a character. -/
def lastCode (steps : List TableStep) (c : Char) : Option EscapeCode :=
  steps.reverse.findSome? (codeOf c)

/-- The last sequence that some steps have given to a character. -/
def lastSequence (steps : List TableStep) (c : Char) : Option String :=
  steps.reverse.findSome? (sequenceOf c)

variable {c : Char}

theorem build_concat (steps : List TableStep) (step : TableStep) :
    build (steps ++ [step]) = apply (build steps) step := by
  simp [build]

theorem length_codes_build (steps : List TableStep) : (build steps).codes.length = 128 := by
  induction steps using List.reverseRecOn with
  | nil => rfl
  | append_singleton steps step ih =>
    rw [build_concat]
    cases step <;> simp only [apply, EscapeTable.withEscape, EscapeTable.withCode] <;>
      split <;> simp [ih]

/-- A code that is set is found again, and those of other characters are as before. -/
theorem code?_set {t : EscapeTable} (hl : t.codes.length = 128) {d : Char}
    (hd : EscapeTable.isAscii d = true) (k : EscapeCode) :
    (t.codes.set d.toNat k)[c.toNat]? = if d = c then some k else t.codes[c.toNat]? := by
  have hlt : d.toNat < t.codes.length := by
    rw [hl]
    exact of_decide_eq_true hd
  by_cases hdc : d = c
  · subst hdc
    simp [hlt]
  · have hne : d.toNat ≠ c.toNat := fun h => hdc (Char.toNat_inj.mp h)
    simp [hne, hdc]

theorem code?_apply {t : EscapeTable} (hl : t.codes.length = 128)
    (hc : EscapeTable.isAscii c = true) (step : TableStep) :
    (apply t step).code? c = ((codeOf c step).or (t.code? c)) := by
  unfold EscapeTable.code?
  cases step with
  | withEscape d sequence =>
    by_cases hd : EscapeTable.isAscii d = true
    · rw [apply, EscapeTable.withEscape, if_pos hd, code?_set hl hd, codeOf]
      split <;> rfl
    · have hdc : d ≠ c := fun h => hd (h ▸ hc)
      simp [apply, EscapeTable.withEscape, hd, codeOf, hdc]
  | withCode d k =>
    by_cases hd : EscapeTable.isAscii d = true
    · rw [apply, EscapeTable.withCode, if_pos hd, code?_set hl hd, codeOf]
      split <;> rfl
    · have hdc : d ≠ c := fun h => hd (h ▸ hc)
      simp [apply, EscapeTable.withCode, hd, codeOf, hdc]

theorem sequence?_apply (t : EscapeTable) (hc : EscapeTable.isAscii c = true)
    (step : TableStep) :
    (apply t step).sequence? c = ((sequenceOf c step).or (t.sequence? c)) := by
  unfold EscapeTable.sequence?
  cases step with
  | withEscape d sequence =>
    by_cases hdc : d = c
    · subst hdc
      simp [apply, EscapeTable.withEscape, hc, sequenceOf]
    · have hne : (c == d) = false := beq_false_of_ne (Ne.symm hdc)
      by_cases hd : EscapeTable.isAscii d = true <;>
        simp [apply, EscapeTable.withEscape, hd, sequenceOf, hdc, List.lookup_cons, hne]
  | withCode d k =>
    by_cases hd : EscapeTable.isAscii d = true <;>
      simp [apply, EscapeTable.withCode, hd, sequenceOf]

/-- An ASCII character has the code that was set last, and is plain if none was. -/
theorem code?_build (steps : List TableStep) (hc : EscapeTable.isAscii c = true) :
    (build steps).code? c = some ((lastCode steps c).getD .plain) := by
  have hlt : c.toNat < 128 := of_decide_eq_true hc
  induction steps using List.reverseRecOn with
  | nil =>
    have hplain : (build []).code? c = some .plain := List.getElem?_replicate_of_lt hlt
    rw [hplain]
    rfl
  | append_singleton steps step ih =>
    rw [build_concat, code?_apply (length_codes_build steps) hc, ih]
    cases h : codeOf c step <;> simp [lastCode, h]

/-- An ASCII character has the sequence that was given last. -/
theorem sequence?_build (steps : List TableStep) (hc : EscapeTable.isAscii c = true) :
    (build steps).sequence? c = lastSequence steps c := by
  induction steps using List.reverseRecOn with
  | nil => rfl
  | append_singleton steps step ih =>
    rw [build_concat, sequence?_apply _ hc, ih]
    cases h : sequenceOf c step <;> simp [lastSequence, h]

/-- Beyond ASCII no character is marked. -/
theorem code?_build_beyond (steps : List TableStep) (hc : EscapeTable.isAscii c = false) :
    (build steps).code? c = none := by
  have hle : 128 ≤ c.toNat := Nat.le_of_not_lt (of_decide_eq_false hc)
  simp [EscapeTable.code?, length_codes_build, hle]

/-- The steps about characters beyond ASCII can be left out. -/
theorem build_filter (steps : List TableStep) :
    build (steps.filter (EscapeTable.isAscii ·.about)) = build steps := by
  induction steps using List.reverseRecOn with
  | nil => rfl
  | append_singleton steps step ih =>
    rw [List.filter_append, build_concat]
    by_cases h : EscapeTable.isAscii step.about = true
    · rw [show [step].filter (EscapeTable.isAscii ·.about) = [step] by simp [h], build_concat, ih]
    · rw [show [step].filter (EscapeTable.isAscii ·.about) = [] by simp [h], List.append_nil, ih]
      cases step <;> exact (if_neg h).symm

end TableStep

/-! ## Field names -/

/-- What is written of a name or pattern in full holds no null character but its end. -/
theorem Payload.cstring_written {table : Option EscapeTable} {s : String} {bs : Bytes}
    (h : cstring table s = ⟨bs, none⟩) : ∃ text, escape table s = .ok text ∧
      '\x00' ∉ text.toList ∧ 0 ∉ utf8 text ∧ bs = utf8 text ++ [0] := by
  obtain ⟨text, htext⟩ := writtenName_of_cstring (congrArg Payload.failure h)
  rw [cstring_of_writtenName htext] at h
  cases h
  have hnull := notMem_of_writtenName htext
  exact ⟨text, escape_of_writtenText (Option.filter_eq_some_iff.mp htext).1, hnull,
    zero_notMem_utf8 hnull, rfl⟩

theorem Payload.cstring_of_missing {table : Option EscapeTable} {s : String} {c : Char}
    (h : escape table s = .error c) : cstring table s = fault (.missingSequence c) := by
  rw [cstring, escaped, h]

theorem Payload.cstring_of_null {table : Option EscapeTable} {s text : String}
    (h : escape table s = .ok text) (hnull : '\x00' ∈ text.toList) :
    cstring table s = fault (.nullInCString text) := by
  rw [cstring, escaped, h]
  simp [cstringVerbatim, hnull]

/-- In a document that expects a name, what becomes of a field name is decided by its
substitution. -/
theorem run_fieldName_expected {w : Writer} (hr : w.phase = .running) {rest : List Expectation}
    (he : w.expectations = .name :: rest) (s : String) :
    (fieldName s).run w = match Payload.cstring w.escapes s with
      | ⟨bs, none⟩ => .ok () { w with
          expectations := .value :: rest, buffer := w.buffer.append (0 :: bs),
          slot := some w.buffer.size }
      | ⟨bs, some cause⟩ => .error ⟨cause, some s⟩ { w with
          expectations := .value :: rest, buffer := w.buffer.append (0 :: bs),
          phase := .failed } := by
  cases hp : Payload.cstring w.escapes s with
  | mk bs failure =>
    cases failure with
    | none =>
      rw [run_eq_ok_iff]
      simp [fieldName, hr, he, Expectation.admitName, hp]
    | some cause =>
      rw [run_eq_error_iff]
      simp [fieldName, hr, he, Expectation.admitName, hp, Writer.fail]

/-- A substitution without null characters is what is written of the name. -/
theorem writtenName_of_escape {table : Option EscapeTable} {s text : String}
    (h : escape table s = .ok text) (hnull : '\x00' ∉ text.toList) :
    writtenName table s = some text := by
  simp [writtenName, writtenText, h, Except.toOption, Option.filter, hnull]

theorem exists_escape_iff {table : Option EscapeTable} {s : String} :
    (∃ text, escape table s = .ok text ∧ '\x00' ∉ text.toList) ↔
      ∀ c ∈ s.toList, ¬Unspelled table c ∧ '\x00' ∉ spelling table c := by
  rw [← writtenName_isSome_iff, Option.isSome_iff_exists]
  constructor
  · rintro ⟨text, htext, hnull⟩
    exact ⟨text, writtenName_of_escape htext hnull⟩
  · rintro ⟨text, htext⟩
    exact ⟨text, escape_of_writtenText (Option.filter_eq_some_iff.mp htext).1,
      notMem_of_writtenName htext⟩

section FieldName

variable {w : Writer} {rest : List Expectation} {s text : String}

theorem run_fieldName_of_escape (hr : w.phase = .running) (he : w.expectations = .name :: rest)
    (h : escape w.escapes s = .ok text) (hnull : '\x00' ∉ text.toList) :
    (fieldName s).run w = .ok () { w with
      expectations := .value :: rest, buffer := w.buffer.append (0 :: terminated text),
      slot := some w.buffer.size } := by
  rw [run_fieldName_expected hr he, cstring_of_writtenName (writtenName_of_escape h hnull)]

theorem fieldName_of_null (hr : w.phase = .running) (he : w.expectations = .name :: rest)
    (h : escape w.escapes s = .ok text) (hnull : '\x00' ∈ text.toList) :
    (fieldName s).result w = .error ⟨.nullInCString text, some s⟩ := by
  have hrun := run_fieldName_expected hr he s
  rw [Payload.cstring_of_null h hnull] at hrun
  exact result_of_error hrun

theorem fieldName_of_missing (hr : w.phase = .running) (he : w.expectations = .name :: rest)
    {c : Char} (h : escape w.escapes s = .error c) :
    (fieldName s).result w = .error ⟨.missingSequence c, some s⟩ := by
  have hrun := run_fieldName_expected hr he s
  rw [Payload.cstring_of_missing h] at hrun
  exact result_of_error hrun

/-- The three cases of a substitution are all that can become of a name. -/
theorem result_fieldName_eq_ok_iff (hr : w.phase = .running)
    (he : w.expectations = .name :: rest) : (fieldName s).result w = .ok () ↔
      ∃ text, escape w.escapes s = .ok text ∧ '\x00' ∉ text.toList := by
  constructor
  · intro hok
    cases htext : escape w.escapes s with
    | error c => simp [fieldName_of_missing hr he htext] at hok
    | ok text =>
      by_cases hnull : '\x00' ∈ text.toList
      · simp [fieldName_of_null hr he htext hnull] at hok
      · exact ⟨text, rfl, hnull⟩
  · rintro ⟨text, htext, hnull⟩
    exact result_of_ok (run_fieldName_of_escape hr he htext hnull)

end FieldName

/-- Escaping substitutes character by character, although it copies runs of bytes between
marked characters. A text is turned into the spellings of its characters, and fails with the
first marked character that has no sequence; one without marked characters is passed on as it
is. In a table built step by step the last step about a character counts, and characters
beyond ASCII are left alone. A name is accepted exactly if its substitution is defined and free
of null characters, and then stands between zeros; a null character in the name itself is no
obstacle if the table removes it. -/
theorem escape_substitutes :
    (∀ table s, (∀ text, escape table s = .ok text ↔
        (∀ c ∈ s.toList, ¬Unspelled table c) ∧
          text.toList = s.toList.flatMap (spelling table)) ∧
      (∀ c, escape table s = .error c ↔ ∃ before after, s.toList = before ++ c :: after ∧
        Unspelled table c ∧ ∀ d ∈ before, ¬Unspelled table d) ∧
      (substitute table s = .ok (.same s) ↔
        ∀ t ∈ table, ∀ c ∈ s.toList, t.code? c ≠ some .custom)) ∧
    (∀ steps c, (EscapeTable.isAscii c = true →
        ((TableStep.build steps).code? c = some .custom ↔
          TableStep.lastCode steps c = some .custom) ∧
        (TableStep.build steps).sequence? c = TableStep.lastSequence steps c) ∧
      (EscapeTable.isAscii c = false → (TableStep.build steps).code? c = none) ∧
      TableStep.build (steps.filter (EscapeTable.isAscii ·.about)) = TableStep.build steps) ∧
    (∀ table s bs, Payload.cstring table s = ⟨bs, none⟩ → ∃ text, escape table s = .ok text ∧
      '\x00' ∉ text.toList ∧ 0 ∉ utf8 text ∧ bs = utf8 text ++ [0]) ∧
    ∀ (w : Writer) rest s, w.phase = .running → w.expectations = .name :: rest →
      ((fieldName s).result w = .ok () ↔
        ∃ text, escape w.escapes s = .ok text ∧ '\x00' ∉ text.toList) ∧
      ((fieldName s).result w = .ok () ↔
        ∀ c ∈ s.toList, ¬Unspelled w.escapes c ∧ '\x00' ∉ spelling w.escapes c) ∧
      (∀ text, escape w.escapes s = .ok text →
        ('\x00' ∉ text.toList → 0 ∉ utf8 text ∧ (fieldName s).after w = { w with
          expectations := .value :: rest, buffer := w.buffer.append (0 :: (utf8 text ++ [0])),
          slot := some w.buffer.size }) ∧
        ('\x00' ∈ text.toList →
          (fieldName s).result w = .error ⟨.nullInCString text, some s⟩)) ∧
      ∀ c, escape w.escapes s = .error c →
        (fieldName s).result w = .error ⟨.missingSequence c, some s⟩ := by
  refine ⟨fun table s => ⟨fun text => escape_eq_ok_iff, fun c => escape_eq_error_iff,
    substitute_eq_same_iff table s⟩, ?_, fun table s bs => Payload.cstring_written, ?_⟩
  · intro steps c
    refine ⟨fun hc => ⟨?_, TableStep.sequence?_build steps hc⟩, TableStep.code?_build_beyond steps,
      TableStep.build_filter steps⟩
    rw [TableStep.code?_build steps hc]
    cases TableStep.lastCode steps c <;> simp
  · intro w rest s hr he
    have hiff := @result_fieldName_eq_ok_iff w rest s hr he
    refine ⟨hiff, hiff.trans exists_escape_iff, fun text htext => ⟨fun hnull => ?_,
      fieldName_of_null hr he htext⟩, fun c => fieldName_of_missing hr he⟩
    exact ⟨zero_notMem_utf8 hnull, after_of_ok (run_fieldName_of_escape hr he htext hnull)⟩

/-- A table that drops null characters, and one that writes a null character for a dot: the
first lets a name with a null character through, the second stops a name with a dot. -/
theorem escape_substitutes_null :
    let drops := TableStep.build [.withEscape '\x00' "", .withCode 'é' .custom]
    let adds := TableStep.build [.withCode '.' .custom, .withEscape '.' "\x00"]
    let w : Writer := { expectations := [.name], containers := [⟨0, none⟩] }
    (fieldName "a\x00é").result { w with escapes := some drops } = .ok () ∧
      (fieldName "a\x00é").result w ≠ .ok () ∧
      (fieldName "a.").result { w with escapes := some adds } ≠ .ok () := by
  intro drops adds w
  have hnames := escape_substitutes.2.2.2
  constructor
  · rw [(hnames { w with escapes := some drops } [] "a\x00é" rfl rfl).1]
    exact ⟨"aé", by decide +kernel, by decide⟩
  constructor
  · rw [Ne, (hnames w [] "a\x00é" rfl rfl).2.1]
    intro hall
    exact (hall '\x00' (by decide)).2 (by decide)
  · rw [Ne, (hnames { w with escapes := some adds } [] "a." rfl rfl).2.1]
    intro hall
    exact (hall '.' (by decide)).2 (by decide +kernel)

end BsonWriter
