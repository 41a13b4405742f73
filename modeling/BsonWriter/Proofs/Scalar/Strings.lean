import BsonWriter.Proofs.Scalar.Accepting
import BsonWriter.Proofs.Text.WellFormed

/-!
Strings that are given by their bytes. They are accepted exactly if they are well-formed, and
are then written like the text with these bytes if there were no escape table
(`utf8_strings_agree`). Under a table the two ways agree exactly on the texts that the table
leaves alone.
-/

namespace BsonWriter

open BsonWriter.Action

namespace Payload

theorem utf8String_of_wellFormed {bs : Bytes} (h : WellFormed bs) : utf8String bs = sized bs :=
  if_pos (isUtf8_iff_wellFormed.mpr h)

theorem utf8String_of_not_wellFormed {bs : Bytes} (h : ¬WellFormed bs) :
    utf8String bs = fault .invalidUtf8 :=
  if_neg (mt isUtf8_iff_wellFormed.mp h)

theorem sized_of_fits {bs : Bytes} (h : bs.length + 1 < lengthBound) :
    sized bs = ⟨lengthField (bs.length + 1) ++ bs ++ [0], none⟩ := if_pos h

theorem sized_of_overflow {bs : Bytes} (h : lengthBound ≤ bs.length + 1) :
    sized bs = fault (.lengthOverflow (bs.length + 1)) := if_neg (Nat.not_lt.mpr h)

theorem string_of_escape {table : Option EscapeTable} {s t : String}
    (h : escape table s = .ok t) : string table s = sized (utf8 t) := by
  rw [string, escaped, h]

theorem string_of_missing {table : Option EscapeTable} {s : String} {c : Char}
    (h : escape table s = .error c) : string table s = fault (.missingSequence c) := by
  rw [string, escaped, h]

end Payload

theorem utf8_inj {s t : String} (h : utf8 s = utf8 t) : s = t := by
  have hs := decodeUtf8?_utf8 s
  rw [h, decodeUtf8?_utf8] at hs
  exact (Option.some.inj hs).symm

/-! ## Completing a text -/

/-- Of two texts of which the first fits its field, only the same one is completed alike. -/
theorem complete_sized_iff {a b : Bytes} {w : Writer} (ha : a.length + 1 < lengthBound) :
    (complete (.sized a)).run w = (complete (.sized b)).run w ↔ a = b := by
  refine ⟨fun h => ?_, fun h => h ▸ rfl⟩
  rw [Payload.sized_of_fits ha] at h
  by_cases hb : b.length + 1 < lengthBound
  · rw [Payload.sized_of_fits hb] at h
    have hsame := complete_inj h
    simp only [List.append_assoc] at hsame
    -- the length fields are as long as each other, so what follows them is the same
    have htail := (List.append_inj hsame (by simp)).2
    exact List.append_cancel_right htail
  · rw [Payload.sized_of_overflow (Nat.not_lt.mp hb)] at h
    exact absurd h (run_complete_ne_fault (by simp) _ _)

/-- A text that fits its field is completed as its bytes are exactly if the table leaves it
alone. -/
theorem complete_string_iff {s : String} {w : Writer} {table : Option EscapeTable}
    (hs : (utf8 s).length + 1 < lengthBound) :
    (complete (.sized (utf8 s))).run w = (complete (.string table s)).run w ↔
      escape table s = .ok s := by
  cases ht : escape table s with
  | error c =>
    rw [Payload.string_of_missing ht, Payload.sized_of_fits hs]
    exact ⟨fun h => absurd h (run_complete_ne_fault (by simp) _ _), fun h => by cases h⟩
  | ok t =>
    rw [Payload.string_of_escape ht, complete_sized_iff hs, Except.ok.injEq]
    exact ⟨fun h => (utf8_inj h).symm, fun h => h ▸ rfl⟩

/-! ## Without the table -/

/-- If the table leaves the key of an element alone, or no element is due, a scalar may come
in the same way when the table is taken off. -/
theorem Admits.withoutTable {type : ElementType} {w u : Writer} (hr : w.phase = .running)
    (h : Admits .scalar type w u)
    (hkey : ∀ index containers, Container.nextElement w.containers = some (index, containers) →
      escape w.escapes index.repr = .ok index.repr) :
    Admits .scalar type { w with escapes := none } { u with escapes := none } := by
  intro activity
  obtain ⟨slot, v, ht, hslot, hf⟩ := h activity
  refine ⟨slot, { v with escapes := none }, ?_, hslot, ?_⟩
  · obtain ⟨expectations, ha, ⟨hn, rfl, rfl⟩ | ⟨index, containers, key, hn, hk, rfl, rfl⟩⟩ :=
      takePosition_eq_ok hr ht
    · exact run_takePosition_waiting hr ha hn
    · have hrepr : key = index.repr := by
        have htext := escape_of_writtenText (Option.filter_eq_some_iff.mp hk).1
        rw [hkey index containers hn] at htext
        exact (Except.ok.inj htext).symm
      subst hrepr
      exact @run_takePosition_element { w with escapes := none } _ _ _ _ _ _ hr ha hn
        (writtenName_plain (notMem_repr index))
  · rw [run_eq_ok_iff] at hf ⊢
    cases slot with
    | none => cases hslot rfl
    | some start =>
      rw [fill, yields_patch] at hf ⊢
      dsimp only
      cases hp : v.buffer.patch start [type.tag] with
      | error cause => simp [hp] at hf
      | ok buffer =>
        simp only [hp] at hf
        exact ⟨rfl, by rw [← hf.2]⟩

/-- Completing a value does not look at the table. -/
theorem yields_complete_withoutTable {p : Payload} {w : Writer} {Q : Unit → Writer → Prop}
    {E : Error → Writer → Prop} : (complete p).Yields { w with escapes := none } Q E ↔
      (complete p).Yields w (fun x v => Q x { v with escapes := none })
        fun e v => E e { v with escapes := none } := by
  have hfail : ∀ v : Writer, Writer.fail { v with escapes := none } =
      { v.fail with escapes := none } := by
    intro v
    unfold Writer.fail
    split <;> rfl
  simp only [complete, yields_tracked, yields_andThen, yields_emit, yields_drainIfStreaming,
    yields_drain]
  cases p.failure with
  | some cause => simp only [← hfail]
  | none =>
    dsimp only
    split
    · split <;> simp only [← hfail]
    · rfl

theorem complete_withoutTable (p : Payload) (w : Writer) :
    (complete p).result { w with escapes := none } = (complete p).result w ∧
      (complete p).after { w with escapes := none } =
        { (complete p).after w with escapes := none } := by
  cases hr : (complete p).run w with
  | ok x v =>
    have h : (complete p).run { w with escapes := none } = .ok x { v with escapes := none } := by
      rw [run_eq_ok_iff, yields_complete_withoutTable, yields_iff_of_ok hr]
      exact ⟨rfl, rfl⟩
    rw [result_of_ok h, after_of_ok h, result_of_ok hr, after_of_ok hr]
    exact ⟨rfl, rfl⟩
  | error e v =>
    have h : (complete p).run { w with escapes := none } =
        .error e { v with escapes := none } := by
      rw [run_eq_error_iff, yields_complete_withoutTable, Yields, hr]
      exact ⟨rfl, rfl⟩
    rw [result_of_error h, after_of_error h, result_of_error hr, after_of_error hr]
    exact ⟨rfl, rfl⟩

/-- Where a scalar may come, bytes are accepted as a string exactly if they are well-formed, and
otherwise nothing of them is written. Well-formed bytes that fit their field are written
between their number, which counts the terminator, and a terminator. They do what the text of
these bytes does without a table, to the last detail of the state if the table leaves the key
of the element alone that may be due; under the table they do what the text does exactly if the
table leaves the text alone. -/
theorem utf8_strings_agree {w : Writer} (hw : w.AcceptsScalar) :
    ∃ u, Admits .scalar .string w u ∧
    (∀ bs : Bytes,
      let given := write .direct (.utf8String bs)
      (given.result w = .error ⟨.invalidUtf8, none⟩ ↔ ¬WellFormed bs) ∧
      (¬WellFormed bs → given.run w = .error ⟨.invalidUtf8, none⟩ u.fail) ∧
      (WellFormed bs → bs.length + 1 < 2 ^ 31 → given.run w =
        (tracked drainIfStreaming).run (u.put (lengthField (bs.length + 1) ++ bs ++ [0]))) ∧
      (WellFormed bs → 2 ^ 31 ≤ bs.length + 1 →
        given.run w = .error ⟨.lengthOverflow (bs.length + 1), none⟩ u.fail) ∧
      (bs.length + 1 < 2 ^ 31 → (w.options.streaming = true → w.sink.TakesAll) →
        (given.result w = .ok () ↔ WellFormed bs)) ∧
      (WellFormed bs ↔ ∃ s, bs = utf8 s)) ∧
    ∀ s : String,
      let given := write .direct (.utf8String (utf8 s))
      let text := write .direct (.string s)
      given.run w = (complete (.string none s)).run u ∧
      text.run w = (complete (.string w.escapes s)).run u ∧
      ((∀ index containers, Container.nextElement w.containers = some (index, containers) →
          escape w.escapes index.repr = .ok index.repr) →
        text.result { w with escapes := none } = given.result w ∧
          text.after { w with escapes := none } = { given.after w with escapes := none }) ∧
      ((utf8 s).length + 1 < 2 ^ 31 →
        (given.run w = text.run w ↔ escape w.escapes s = .ok s)) := by
  obtain ⟨u, hu, hrun⟩ := hw.run_write .string
  obtain ⟨hoptions, -⟩ := hu.kept hw.running
  refine ⟨u, hu, fun bs => ?_, fun s => ?_⟩
  · intro given
    have hgiven : given.run w = (complete (.utf8String bs)).run u := hrun (.utf8String bs) rfl
    have hbad : ¬WellFormed bs → given.run w = .error ⟨.invalidUtf8, none⟩ u.fail := fun h => by
      rw [hgiven, Payload.utf8String_of_not_wellFormed h, run_complete_fault]
    have hfits : WellFormed bs → bs.length + 1 < 2 ^ 31 → given.run w =
        (complete ⟨lengthField (bs.length + 1) ++ bs ++ [0], none⟩).run u := fun h hl => by
      rw [hgiven, Payload.utf8String_of_wellFormed h, Payload.sized_of_fits hl]
    have hlong : WellFormed bs → 2 ^ 31 ≤ bs.length + 1 →
        given.run w = .error ⟨.lengthOverflow (bs.length + 1), none⟩ u.fail := fun h hl => by
      rw [hgiven, Payload.utf8String_of_wellFormed h, Payload.sized_of_overflow hl,
        run_complete_fault]
    refine ⟨⟨fun herror hwell => ?_, fun h => result_of_error (hbad h)⟩, hbad,
      fun h hl => (hfits h hl).trans (run_complete _ _), hlong, fun hl hsink => ⟨fun hok => ?_,
        fun h => ?_⟩, ⟨exists_utf8, fun ⟨s, hs⟩ => hs ▸ wellFormed_utf8 s⟩⟩
    · rcases Nat.lt_or_ge (bs.length + 1) (2 ^ 31) with hl | hl
      · rw [result, hfits hwell hl] at herror
        exact result_complete_ne_error (by simp) _ u herror
      · simp [result_of_error (hlong hwell hl)] at herror
    · by_contra hwell
      simp [result_of_error (hbad hwell)] at hok
    · rw [result, hfits h hl]
      exact result_complete_of_takesAll (by rwa [hoptions, hu.sink]) _
  · intro given text
    have hgiven : given.run w = (complete (.sized (utf8 s))).run u := by
      rw [← Payload.utf8String_of_wellFormed (wellFormed_utf8 s)]
      exact hrun (.utf8String (utf8 s)) rfl
    have htext : text.run w = (complete (.string w.escapes s)).run u := hrun (.string s) rfl
    refine ⟨hgiven, htext, fun hkey => ?_, fun hl => ?_⟩
    · have hplain : text.run { w with escapes := none } =
          (complete (.sized (utf8 s))).run { u with escapes := none } :=
        @Admits.run_write _ _ (.string s) hw.running (hu.withoutTable hw.running hkey)
      obtain ⟨hresult, hafter⟩ := complete_withoutTable (.sized (utf8 s)) u
      simp only [result, after] at hresult hafter ⊢
      rw [hplain, hgiven]
      exact ⟨hresult, hafter⟩
    · rw [hgiven, htext]
      exact complete_string_iff hl

/-- An overlong form, a surrogate, a value above U+10FFFF and a sequence cut short are refused
behind a field name; under a table that replaces a letter the two ways part on this letter,
and agree on a text with a null character. -/
theorem utf8_strings_agree_table :
    let table := EscapeTable.ascii.withEscape 'a' "b"
    let w := { (Step.run ⟨Writer.onStorage {} {} [], []⟩
      [.begin .container .startObject .document, .name "f"]).writer with escapes := some table }
    (∀ bs ∈ ([[0xC0, 0x80], [0xED, 0xA0, 0x80], [0xF4, 0x90, 0x80, 0x80], [0xE2, 0x82]] :
        List Bytes), (write .direct (.utf8String bs)).result w = .error ⟨.invalidUtf8, none⟩) ∧
      (write .direct (.utf8String [0xC3, 0xA9, 0])).result w = .ok () ∧
      (write .direct (.utf8String [0x61])).run w ≠ (write .direct (.string "a")).run w ∧
      (write .direct (.string "a")).result { w with escapes := none } = .ok () ∧
      (write .direct (.utf8String [0xC3, 0xA9, 0])).run w =
        (write .direct (.string "é\x00")).run w := by
  intro table w
  have hnull : ∃ w', (write .direct .null).run w = .ok () w' := ⟨_, rfl⟩
  obtain ⟨u, -, hbytes, htexts⟩ := utf8_strings_agree (hnull.elim fun _ => .of_write)
  have hbuffering : w.options.streaming = true → w.sink.TakesAll := nofun
  have hwell : ∀ s, (utf8 s).length + 1 < 2 ^ 31 →
      (write .direct (.utf8String (utf8 s))).result w = .ok () := fun s hl =>
    ((hbytes (utf8 s)).2.2.2.2.1 hl hbuffering).mpr (wellFormed_utf8 s)
  obtain ⟨-, -, hplain, hparted⟩ := htexts "a"
  obtain ⟨-, -, -, hsame⟩ := htexts "é\x00"
  refine ⟨fun bs hbs => ?_, hwell "é\x00" (by decide +kernel), ?_, ?_, ?_⟩
  · have hcheck : ∀ bs ∈ ([[0xC0, 0x80], [0xED, 0xA0, 0x80], [0xF4, 0x90, 0x80, 0x80],
        [0xE2, 0x82]] : List Bytes), isUtf8 bs = false := by decide +kernel
    refine (hbytes bs).1.mpr (mt isUtf8_iff_wellFormed.mpr ?_)
    rw [hcheck bs hbs]
    exact Bool.false_ne_true
  · exact fun h => absurd ((hparted (by decide +kernel)).mp h) (by decide +kernel)
  · rw [(hplain nofun).1]
    exact hwell "a" (by decide +kernel)
  · exact (hsame (by decide +kernel)).mpr (by decide +kernel)

end BsonWriter
