import Mathlib.Data.String.Basic
import BsonWriter.Text.Escape

/-!
Substitution with runs copied is substitution character by character (`escape_some`). While
characters are passed, what stands for the ones up to the last replacement is complete, and
the ones behind it are a run that stays as it is (`Passed`): both ends of a run that is copied
are boundaries between characters. A text is passed on as it is exactly if none of its
characters is marked (`substitute_eq_same_iff`).
-/

namespace BsonWriter

open String (utf8Len)

namespace EscapeTable

variable {t : EscapeTable} {c : Char}

/-- What is written for one character; the error is a marked character that
has no sequence. -/
def replace (t : EscapeTable) (c : Char) : Except Char (List Char) :=
  if t.code? c = some .custom then
    match t.sequence? c with
    | some s => .ok s.toList
    | none => .error c
  else .ok [c]

/-- What is written for one character after another. -/
def replaceAll (t : EscapeTable) : List Char → Except Char (List Char)
  | [] => .ok []
  | c :: cs =>
    match t.replace c with
    | .error e => .error e
    | .ok s =>
      match replaceAll t cs with
      | .error e => .error e
      | .ok r => .ok (s ++ r)

theorem replace_of_plain (h : t.code? c ≠ some .custom) : t.replace c = .ok [c] := if_neg h

theorem replace_of_sequence (h : t.code? c = some .custom) {sequence : String}
    (hs : t.sequence? c = some sequence) : t.replace c = .ok sequence.toList := by
  rw [replace, if_pos h, hs]

theorem replace_of_missing (h : t.code? c = some .custom) (hs : t.sequence? c = none) :
    t.replace c = .error c := by
  rw [replace, if_pos h, hs]

theorem replaceAll_singleton {cs : List Char} (h : t.replace c = .ok cs) :
    t.replaceAll [c] = .ok cs := by
  rw [replaceAll, h, replaceAll]
  simp only [List.append_nil]

theorem replaceAll_append {front written : List Char} (h : t.replaceAll front = .ok written)
    (rest : List Char) :
    t.replaceAll (front ++ rest) = (t.replaceAll rest).map (written ++ ·) := by
  induction front generalizing written with
  | nil =>
    cases h
    rw [List.nil_append]
    cases t.replaceAll rest <;> rfl
  | cons c front ih =>
    rw [replaceAll] at h
    rw [List.cons_append, replaceAll]
    cases hc : t.replace c with
    | error e =>
      rw [hc] at h
      cases h
    | ok s =>
      rw [hc] at h
      cases hfront : t.replaceAll front with
      | error e =>
        rw [hfront] at h
        cases h
      | ok r =>
        rw [hfront] at h
        cases h
        rw [ih hfront]
        cases t.replaceAll rest with
        | error e => rfl
        | ok r' => simp only [Except.map, List.append_assoc]

theorem replaceAll_error {front written : List Char} (h : t.replaceAll front = .ok written)
    (hc : t.replace c = .error c) (rest : List Char) :
    t.replaceAll (front ++ c :: rest) = .error c := by
  rw [replaceAll_append h, replaceAll, hc]
  rfl

/-- Characters that stay as they are make a text that does. -/
theorem replaceAll_of_leaves {cs : List Char} (h : ∀ c ∈ cs, t.replace c = .ok [c]) :
    t.replaceAll cs = .ok cs := by
  induction cs with
  | nil => rfl
  | cons c cs ih =>
    rw [EscapeTable.replaceAll, h c List.mem_cons_self]
    simp only [ih fun d hd => h d (List.mem_cons_of_mem _ hd), List.singleton_append]

theorem replaceAll_of_plain {cs : List Char} (h : ∀ c ∈ cs, t.code? c ≠ some .custom) :
    t.replaceAll cs = .ok cs :=
  replaceAll_of_leaves fun c hc => replace_of_plain (h c hc)

end EscapeTable

/-! ## Runs -/

theorem utf8Len_concat (cs : List Char) (c : Char) :
    utf8Len (cs ++ [c]) = utf8Len cs + c.utf8Size := by
  rw [String.utf8Len_append, String.utf8Len_cons, String.utf8Len_nil, Nat.zero_add]

/-- Between the indices at which a part begins and ends stands the part. -/
theorem slice_eq {s : String} {front run rest : List Char} (h : s.toList = front ++ run ++ rest) :
    slice s (utf8Len front) (utf8Len (front ++ run)) = String.ofList run := by
  rw [slice, ← String.ofList_toList (s := s), h, String.utf8Len_append]
  exact String.extract_of_valid front run rest

/-- Some characters of a text have been passed: for the ones in `done` there is a
substitution, and the ones in `run` behind them stay as they are. -/
structure Passed (t : EscapeTable) (sub : Substitution) (done run : List Char) : Prop where
  last : sub.last = utf8Len done
  replaced : t.replaceAll done = .ok (sub.out.getD "").toList
  same : sub.out = none ↔ ∀ c ∈ done, t.code? c ≠ some .custom
  plain : ∀ c ∈ run, t.code? c ≠ some .custom

namespace Passed

variable {t : EscapeTable} {sub : Substitution} {done run rest : List Char} {c : Char} {s : String}

theorem start (t : EscapeTable) : Passed t {} [] [] :=
  ⟨rfl, rfl, iff_of_true rfl (List.forall_mem_nil _), List.forall_mem_nil _⟩

/-- The run makes up what has been passed. -/
theorem replaceAll_run (h : Passed t sub done run) :
    t.replaceAll (done ++ run) = .ok ((sub.out.getD "").toList ++ run) := by
  rw [EscapeTable.replaceAll_append h.replaced, EscapeTable.replaceAll_of_plain h.plain]
  rfl

/-- A character that is not marked makes the run longer. -/
theorem extend (h : Passed t sub done run) (hc : t.code? c ≠ some .custom) :
    Passed t sub done (run ++ [c]) :=
  ⟨h.last, h.replaced, h.same, List.forall_mem_append.mpr
    ⟨h.plain, List.forall_mem_singleton.mpr hc⟩⟩

/-- A marked character ends the run, which is copied, and its sequence follows. -/
theorem replace (h : Passed t sub done run) (hs : s.toList = done ++ run ++ c :: rest)
    (hc : t.code? c = some .custom) {sequence : String} (hseq : t.sequence? c = some sequence) :
    Passed t ⟨some (sub.out.getD "" ++ slice s sub.last (utf8Len (done ++ run)) ++ sequence),
      utf8Len (done ++ run) + c.utf8Size⟩ (done ++ run ++ [c]) [] := by
  refine ⟨(utf8Len_concat (done ++ run) c).symm, ?_, iff_of_false nofun fun hplain => ?_,
    List.forall_mem_nil _⟩
  · have hchar := EscapeTable.replaceAll_singleton (EscapeTable.replace_of_sequence hc hseq)
    rw [EscapeTable.replaceAll_append h.replaceAll_run, hchar, h.last, slice_eq hs,
      Option.getD_some, String.toList_append, String.toList_append, String.toList_ofList]
    rfl
  · exact hplain c (List.mem_append_right _ List.mem_cons_self) hc

theorem pass (h : Passed t sub done run) (hs : s.toList = done ++ run ++ c :: rest) :
    (t.replace c = .error c ∧ t.pass s sub (utf8Len (done ++ run)) c = .error c) ∨
      ∃ sub' done' run', t.pass s sub (utf8Len (done ++ run)) c = .ok sub' ∧
        done' ++ run' = done ++ run ++ [c] ∧ Passed t sub' done' run' := by
  by_cases hc : t.code? c = some .custom
  · rw [EscapeTable.pass, if_neg (not_not_intro hc)]
    cases hseq : t.sequence? c with
    | none => exact .inl ⟨EscapeTable.replace_of_missing hc hseq, rfl⟩
    | some sequence => exact .inr ⟨_, _, [], rfl, List.append_nil _, h.replace hs hc hseq⟩
  · rw [EscapeTable.pass, if_pos hc]
    exact .inr ⟨sub, done, run ++ [c], rfl, (List.append_assoc ..).symm, h.extend hc⟩

/-- The characters that are left are passed up to the end or to the first that cannot be
replaced. -/
theorem passAll (h : Passed t sub done run) (hs : s.toList = done ++ run ++ rest) :
    (∃ c, t.passAll s sub (charIndices (utf8Len (done ++ run)) rest) = .error c ∧
      t.replaceAll s.toList = .error c) ∨
    ∃ sub' done' run',
      t.passAll s sub (charIndices (utf8Len (done ++ run)) rest) = .ok sub' ∧
        done' ++ run' = s.toList ∧ Passed t sub' done' run' := by
  induction rest generalizing sub done run with
  | nil => exact .inr ⟨sub, done, run, rfl, by rw [hs, List.append_nil], h⟩
  | cons c rest ih =>
    rw [charIndices, EscapeTable.passAll]
    obtain ⟨hc, hpass⟩ | ⟨sub', done', run', hpass, hfront, hpassed⟩ := h.pass hs
    · rw [hpass]
      exact .inl ⟨c, rfl, by rw [hs]; exact EscapeTable.replaceAll_error h.replaceAll_run hc rest⟩
    · rw [hpass, ← utf8Len_concat (done ++ run), ← hfront]
      exact ih hpassed (by rw [hs, hfront, List.append_cons])

/-- Copying the last run completes the text. -/
theorem finish (h : Passed t sub done run) (hs : done ++ run = s.toList) :
    t.replaceAll s.toList = .ok (sub.finish s).text.toList ∧
      (sub.finish s = .same s ↔ ∀ c ∈ s.toList, t.code? c ≠ some .custom) := by
  have hall := h.replaceAll_run
  rw [hs] at hall
  rw [← hs, List.forall_mem_append, ← h.same, hs, hall, Substitution.finish]
  cases hout : sub.out with
  | none =>
    have hdone := h.replaced
    rw [hout, EscapeTable.replaceAll_of_plain (h.same.mp hout)] at hdone
    cases hdone
    exact ⟨congrArg Except.ok hs, iff_of_true rfl ⟨rfl, h.plain⟩⟩
  | some out =>
    have hrest : slice s sub.last s.utf8ByteSize = String.ofList run := by
      rw [h.last, ← String.ofList_toList (s := s), String.utf8ByteSize_ofList, ← hs]
      exact slice_eq (by rw [String.toList_ofList, List.append_nil])
    rw [hrest, Substituted.text, String.toList_append, String.toList_ofList]
    exact ⟨rfl, iff_of_false nofun nofun⟩

end Passed

/-! ## Texts -/

theorem substitute_some (t : EscapeTable) (s : String) :
    (∃ c, substitute (some t) s = .error c ∧ t.replaceAll s.toList = .error c) ∨
      ∃ text, substitute (some t) s = .ok text ∧ t.replaceAll s.toList = .ok text.text.toList ∧
        (text = .same s ↔ ∀ c ∈ s.toList, t.code? c ≠ some .custom) := by
  have hpassed := (Passed.start t).passAll (s := s) (List.nil_append _).symm
  rw [List.append_nil, show utf8Len [] = 0 from rfl] at hpassed
  rw [substitute]
  obtain ⟨c, hpass, hc⟩ | ⟨sub, done, run, hpass, hs, hend⟩ := hpassed
  · rw [hpass]
    exact .inl ⟨c, rfl, hc⟩
  · rw [hpass]
    exact .inr ⟨sub.finish s, rfl, hend.finish hs⟩

/-- Copying runs is replacing characters one after another. -/
theorem escape_some (t : EscapeTable) (s : String) :
    escape (some t) s = (t.replaceAll s.toList).map String.ofList := by
  rw [escape]
  obtain ⟨c, hsub, hc⟩ | ⟨text, hsub, htext, -⟩ := substitute_some t s
  · rw [hsub, hc]
    rfl
  · rw [hsub, htext, Except.map, Except.map, String.ofList_toList]

/-- Marked characters at both ends, beside each other and behind characters of two bytes. -/
example : escape (some ((EscapeTable.ascii.withEscape '.' "").withEscape '$' "ß")) "$..ä.b$" =
    .ok "ßäbß" := by decide +kernel

/-- A text is passed on as it is exactly if no character of it is marked. -/
theorem substitute_eq_same_iff (table : Option EscapeTable) (s : String) :
    substitute table s = .ok (.same s) ↔
      ∀ t ∈ table, ∀ c ∈ s.toList, t.code? c ≠ some .custom := by
  cases table with
  | none => exact iff_of_true rfl nofun
  | some t =>
    simp only [Option.mem_some, forall_eq']
    obtain ⟨c, hsub, hc⟩ | ⟨text, hsub, -, hsame⟩ := substitute_some t s
    · rw [hsub]
      refine iff_of_false nofun fun hplain => ?_
      rw [EscapeTable.replaceAll_of_plain hplain] at hc
      cases hc
    · rw [hsub, Except.ok.injEq, hsame]

end BsonWriter
