import BsonWriter.Proofs.Run.Lockstep
import BsonWriter.Proofs.Run.Standing
import BsonWriter.Proofs.Text.Escaping
import BsonWriter.Proofs.Tree.Forest

/-!
Texts that no caller gives: the indexes of array elements and the option letters of regular
expressions. The session writes them like any name, so the escape table has its say in them
(`synthesized_texts_escaped`). Only tables that replace no digit, or no option letter, leave
them as they are (`keepsIndexes_iff`, `keepsLetters_iff`).
-/

namespace BsonWriter

open BsonWriter.Action

/-! ## What a table leaves alone -/

/-- The table does not replace the character. -/
def Leaves (table : Option EscapeTable) (c : Char) : Prop :=
  ∀ t ∈ table, t.replace c = .ok [c]

section

variable {table : Option EscapeTable}

theorem writtenName_of_leaves {s : String} (h : ∀ c ∈ s.toList, Leaves table c)
    (hn : '\x00' ∉ s.toList) : writtenName table s = some s := by
  have ht : writtenText table s = some s := by
    unfold writtenText
    cases table with
    | none => rfl
    | some t =>
      rw [escape_some, EscapeTable.replaceAll_of_leaves fun c hc => h c hc t rfl, Except.map,
        String.ofList_toList, Except.toOption]
  rw [writtenName, ht]
  simp [Option.filter, hn]

/-- A text of one character stays as it is only if the table leaves the character. -/
theorem leaves_of_singleton {c : Char}
    (h : writtenName table (String.ofList [c]) = some (String.ofList [c])) : Leaves table c := by
  rintro t rfl
  have he := escape_of_writtenText (Option.filter_eq_some_iff.mp h).1
  rw [escape_some, String.toList_ofList] at he
  cases hr : t.replace c with
  | error d => simp [EscapeTable.replaceAll, hr, Except.map] at he
  | ok cs =>
    simp only [EscapeTable.replaceAll_singleton hr, Except.map, Except.ok.injEq] at he
    rw [String.ofList_injective he]

/-- A table leaves all indexes as they are exactly if it replaces no digit. -/
theorem writtenName_repr_iff : (∀ n : Nat, writtenName table n.repr = some n.repr) ↔
    ∀ c : Char, c.isDigit = true → Leaves table c := by
  constructor
  · intro h c hc
    obtain ⟨hle, hlt⟩ : 48 ≤ c.toNat ∧ c.toNat ≤ 57 := Char.isDigit_iff_toNat.mp hc
    have hdigits : ∀ n : Fin 10, n.val.repr = String.ofList [Char.ofNat (48 + n.val)] := by decide
    have hrepr : (c.toNat - 48).repr = String.ofList [c] := by
      have hdigit := hdigits ⟨c.toNat - 48, by omega⟩
      rwa [show 48 + (c.toNat - 48) = c.toNat by omega, Char.ofNat_toNat] at hdigit
    exact leaves_of_singleton (by rw [← hrepr]; exact h _)
  · intro h n
    exact writtenName_of_leaves (fun c hc => h c (isDigit_of_mem_repr hc)) (notMem_repr n)

/-- A table leaves all option letters as they are exactly if it replaces none of the four. -/
theorem writtenName_letters_iff :
    (∀ flags : RegexFlags, writtenName table flags.letters = some flags.letters) ↔
      ∀ c ∈ ['i', 'm', 's', 'u'], Leaves table c := by
  constructor
  · intro h c hc
    have hflags : ∀ c ∈ ['i', 'm', 's', 'u'],
        (RegexFlags.ofLetters (String.ofList [c])).letters = String.ofList [c] := by
      simp only [List.forall_mem_cons]
      exact ⟨by decide, by decide, by decide, by decide, nofun⟩
    exact leaves_of_singleton (by rw [← hflags c hc]; exact h _)
  · intro h flags
    have hletters : ∀ c ∈ flags.letters.toList, c ∈ ['i', 'm', 's', 'u'] := by
      have hall : flags.letters.toList.all (['i', 'm', 's', 'u'].contains ·) = true := by
        obtain ⟨i, m, s, u⟩ := flags
        revert i m s u
        decide
      intro c hc
      exact List.contains_iff_mem.mp (List.all_eq_true.mp hall c hc)
    refine writtenName_of_leaves (fun c hc => h c (hletters c hc)) fun hc => ?_
    exact absurd (hletters _ hc) (by decide)

/-- A name or pattern that cannot be written holds a marked character without a sequence, or
a null character after substitution. -/
def TableFault (table : Option EscapeTable) (s : String) (cause : Cause) : Prop :=
  (∃ c, escape table s = .error c ∧ cause = .missingSequence c) ∨
    ∃ t, escape table s = .ok t ∧ '\x00' ∈ t.toList ∧ cause = .nullInCString t

theorem tableFault_of_cstring {s : String} (h : writtenName table s = none) :
    ∃ cause, Payload.cstring table s = ⟨[], some cause⟩ ∧ TableFault table s cause := by
  rw [Payload.cstring, Payload.escaped]
  unfold TableFault
  cases he : escape table s with
  | error c => exact ⟨_, rfl, .inl ⟨c, rfl, rfl⟩⟩
  | ok t =>
    have hnull : t.toList.contains '\x00' = true := by
      rw [writtenName, writtenText, he, Except.toOption, Option.filter_some] at h
      simpa using h
    refine ⟨_, ?_, .inr ⟨t, rfl, by simpa using hnull, rfl⟩⟩
    simp only [Payload.cstringVerbatim, hnull, if_true, Payload.fault]

theorem regex_failure_iff (r : Regex) :
    ((Primitive.regex r).payload table).failure = none ↔
      (writtenName table r.pattern).isSome = true ∧
        (writtenName table r.flags.letters).isSome = true := by
  rw [Primitive.payload]
  cases hp : writtenName table r.pattern with
  | none =>
    obtain ⟨cause, hc, -⟩ := tableFault_of_cstring hp
    simp [hc, Payload.andThen]
  | some pattern =>
    rw [cstring_of_writtenName hp]
    cases hl : writtenName table r.flags.letters with
    | none =>
      obtain ⟨cause, hc, -⟩ := tableFault_of_cstring hl
      simp [hc, Payload.andThen]
    | some letters => simp [cstring_of_writtenName hl, Payload.andThen]

end

/-! ## The keys of elements -/

section

variable {before now : Bytes} {p : Progress} {w : Writer}

/-- In an array the element takes its position exactly if its index can be written. -/
theorem result_takePosition_element (hr : w.phase = .running) {rest : List Expectation}
    (he : w.expectations = .element :: rest) {index : Nat} {next : List Container}
    (hn : Container.nextElement w.containers = some (index, next)) (kind : ValueKind)
    (activity : Activity) :
    (∀ key, writtenName w.escapes index.repr = some key →
      (takePosition kind activity).result w = .ok (some w.buffer.size)) ∧
    (writtenName w.escapes index.repr = none → ∃ cause,
      (takePosition kind activity).result w = .error ⟨cause, none⟩ ∧
        TableFault w.escapes index.repr cause) := by
  constructor
  · intro key hkey
    have hrun : (takePosition kind activity).run w = .ok (some w.buffer.size) { w with
        containers := next, buffer := w.buffer.append (0 :: terminated key) } := by
      rw [run_eq_ok_iff]
      simp [takePosition, hr, he, Expectation.admitValue, hn, cstring_of_writtenName hkey]
    exact result_of_ok hrun
  · intro hkey
    obtain ⟨cause, hc, hfault⟩ := tableFault_of_cstring hkey
    have hrun : (takePosition kind activity).run w = .error ⟨cause, none⟩
        (Writer.fail { w with containers := next, buffer := w.buffer.append [0] }) := by
      rw [run_eq_error_iff]
      simp [takePosition, hr, he, Expectation.admitValue, hn, hc]
    exact ⟨cause, result_of_error hrun, hfault⟩

/-- What an element has written, after whatever has become of its value: its key stands
behind the type byte. -/
theorem key_of_taken {α : Type} {f : Option Nat → Action α} {x : α} {v : Writer}
    (hshows : Shows before w.sink w.buffer now) (hr : w.phase = .running)
    (hf : ∀ slot output final, (∀ start, slot = some start → Loose output final start 1) →
      (f slot).Spares before output final)
    {index : Nat} {next : List Container}
    (hn : Container.nextElement w.containers = some (index, next)) {kind : ValueKind}
    {activity : Activity} (hrun : (takePosition kind activity >>= f).run w = .ok x v) :
    ∃ key slot u, writtenName w.escapes index.repr = some key ∧
      (takePosition kind activity).run w = .ok slot u ∧ (f slot).run u = .ok x v ∧
      u.buffer.size = w.buffer.size + 1 + (terminated key).length ∧
      ∃ later, Shows before v.sink v.buffer later ∧
        HasAt later (w.buffer.size + 1) (terminated key) := by
  obtain ⟨slot, u, htake, hrest⟩ := run_andThen_eq_ok hrun
  obtain ⟨expectations, -, ⟨hnone, -, -⟩ | ⟨_, containers, key, hsome, hkey, hslot, hu⟩⟩ :=
    takePosition_eq_ok hr htake
  · rw [hn] at hnone
    cases hnone
  rw [hn, Option.some.injEq, Prod.mk.injEq] at hsome
  obtain ⟨rfl, rfl⟩ := hsome
  have hsize := hshows.length
  have hcarries : u.Carries before (now ++ 0 :: terminated key) (fun i => now.length < i) := by
    rw [hu]
    exact ⟨_, hshows.append _, Nat.le_refl _, fun _ _ _ => rfl⟩
  have hloose : ∀ start, slot = some start →
      Loose (now ++ 0 :: terminated key) (fun i => now.length < i) start 1 := by
    intro start hs i _ hi
    rw [hslot, Option.some.injEq] at hs
    omega
  have hlater := (hf slot _ _ hloose u hcarries).of_ok hrest
  have hat : HasAt (now ++ 0 :: terminated key) (w.buffer.size + 1) (terminated key) := by
    have happend := hasAt_append (now ++ [0]) (terminated key) []
    rwa [List.append_nil, List.append_assoc, List.singleton_append, List.length_append,
      List.length_singleton, hsize] at happend
  refine ⟨key, slot, u, hkey, htake, hrest, ?_, hlater.hasAt hat fun i hi _ => ?_⟩
  · rw [hu, Buffer.size_append, List.length_cons]
    omega
  · exact Nat.lt_of_lt_of_le (by omega) hi

/-- A container that is opened in the place of a value comes behind what had been written. -/
theorem opened_behind {expectations : List Expectation} {u v : Writer}
    (hu : Writer.Extends { w with
      expectations, containers := Container.taken w.containers, slot := none } u)
    (hv : u.Extends v) (shape : Shape) : (v.opened shape).slot = none ∧
      ∀ header ∈ (v.opened shape).containers.map Container.header,
        header ∈ w.containers.map Container.header ∨ u.buffer.size ≤ header := by
  refine ⟨hv.slot.trans hu.slot, fun header hh => ?_⟩
  rw [Writer.opened, List.map_cons, Container.header_start, hv.containers, hu.containers,
    Container.header_taken] at hh
  rcases List.mem_cons.mp hh with rfl | hh
  · exact .inr hv.size_le
  · exact .inl hh

theorem header_le_size (hc : w.Consistent) {header : Nat}
    (hh : header ∈ w.containers.map Container.header) : header + 4 ≤ w.buffer.size := by
  obtain ⟨c, hm, rfl⟩ := List.mem_map.mp hh
  exact hc.written c hm

end

namespace Step

variable {before now : Bytes} {p : Progress} {step : Step}

/-- The key of an element is its index, as the table turns it out, and stays as it is. -/
theorem fixed_key (hc : p.writer.Consistent) (hm : p.writer.Covers p.scopes)
    (hshows : Shows before p.writer.sink p.writer.buffer now) (hr : p.writer.phase = .running)
    {index : Nat} {next : List Container}
    (hn : Container.nextElement p.writer.containers = some (index, next))
    (hs : step.BeginsValue) (hf : ¬step.Fails p) :
    ∃ key, writtenName p.writer.escapes index.repr = some key ∧
      (step.apply p).Fixed before (p.writer.buffer.size + 1) (terminated key) := by
  -- behind the type byte, only what the step itself has opened may still be filled
  have hfixed : ∀ {u : Writer} {key : String} {q : Progress} {later : Bytes},
      q.writer.Consistent → Shows before q.writer.sink q.writer.buffer later →
      HasAt later (p.writer.buffer.size + 1) (terminated key) →
      u.buffer.size = p.writer.buffer.size + 1 + (terminated key).length →
      q.writer.slot = none →
      (∀ header ∈ q.writer.containers.map Container.header,
        header ∈ p.writer.containers.map Container.header ∨ u.buffer.size ≤ header) →
      (∀ mark ∈ q.scopes, mark ∈ p.scopes ∨ u.buffer.size ≤ mark.start) →
      q.Fixed before (p.writer.buffer.size + 1) (terminated key) := by
    intro u key q later hq hlater hat hsize hslot hheaders hmarks
    rw [hsize] at hheaders hmarks
    refine Progress.fixed_of_final hq hlater hat fun i hle hlt => ?_
    refine Progress.final_between hslot (fun header hh => ?_) (fun mark hmark => ?_) hle hlt
    · exact (hheaders header hh).imp (fun hh => Nat.le_succ_of_le (header_le_size hc hh)) id
    · exact (hmarks mark hmark).imp (fun hmark => Nat.le_succ_of_le (hm mark hmark)) id
  have hsame : ∀ {u : Writer}, ∀ mark ∈ p.scopes, mark ∈ p.scopes ∨ u.buffer.size ≤ mark.start :=
    fun _ hmark => .inl hmark
  have hq := consistent_apply hc step
  cases step with
  | name | checkArray | finish | drop | endScope | failScope | fail | flush | close | setEscapes =>
    exact hs.elim
  | write activity value =>
    obtain ⟨key, slot, u, hkey, htake, hwrite, hsize, later, hlater, hat⟩ :=
      key_of_taken hshows hr (fun slot _ _ hl => spares_writeTo hl value) hn
        (run_of_not_failed hf)
    obtain ⟨expectations, -, hu⟩ := extends_of_takePosition hc htake
    have hv := extends_of_writeTo hwrite
    refine ⟨key, hkey, hfixed (u := u) hq hlater hat hsize ?_ (fun header hh => .inl ?_) hsame⟩
    · exact hv.slot.trans hu.slot
    · rw [show ((Step.write activity value).apply p).writer.containers = _ from
        hv.containers.trans hu.containers] at hh
      simpa using hh
  | begin kind activity shape =>
    obtain ⟨key, slot, u, hkey, htake, hopen, hsize, later, hlater, hat⟩ :=
      key_of_taken hshows hr (fun slot _ _ hl => spares_openAt hl shape) hn
        (run_of_not_failed hf)
    obtain ⟨expectations, -, hu⟩ := extends_of_takePosition hc htake
    obtain ⟨v, hv, hw⟩ := extends_of_openAt hopen
    obtain ⟨hslot, hheaders⟩ := opened_behind hu hv shape
    have happly : ((Step.begin kind activity shape).apply p).writer = v.opened shape := hw
    exact ⟨key, hkey, hfixed (u := u) hq hlater hat hsize (by rw [happly]; exact hslot)
      (by rw [happly]; exact hheaders) hsame⟩
  | beginScope activity code =>
    obtain ⟨mark, w, hrun⟩ := exists_openScope hf
    obtain ⟨key, slot, u, hkey, htake, hopen, hsize, later, hlater, hat⟩ :=
      key_of_taken hshows hr (fun slot _ _ hl => spares_openScopeAt hl code) hn hrun
    obtain ⟨expectations, -, hu⟩ := extends_of_takePosition hc htake
    obtain ⟨rfl, v, hv, -, rfl⟩ := extends_of_openScopeAt hopen
    obtain ⟨hslot, hheaders⟩ := opened_behind hu hv .document
    simp only [apply, hrun] at hq ⊢
    refine ⟨key, hkey, hfixed (u := u) hq hlater hat hsize hslot hheaders fun mark hmark => ?_⟩
    rcases List.mem_cons.mp hmark with rfl | hmark
    · exact .inr (Nat.le_refl _)
    · exact .inl hmark

/-- A regular expression stands on the wire as the table turns out its pattern and its option
letters, and stays as it is. -/
theorem fixed_regex (hc : p.writer.Consistent) (hm : p.writer.Covers p.scopes)
    (hshows : Shows before p.writer.sink p.writer.buffer now) {activity : Activity} {r : Regex}
    (hf : ¬(Step.write activity (.regex r)).Fails p) :
    ∃ pattern letters, writtenName p.writer.escapes r.pattern = some pattern ∧
      writtenName p.writer.escapes r.flags.letters = some letters ∧
      let q := (Step.write activity (.regex r)).apply p
      let bs := terminated pattern ++ terminated letters
      q.Fixed before (q.writer.buffer.size - bs.length) bs := by
  obtain ⟨slot, u, htake, hwrite⟩ := run_andThen_eq_ok (run_of_not_failed hf)
  obtain ⟨expectations, -, hu⟩ := extends_of_takePosition hc htake
  have hv := extends_of_writeTo hwrite
  have hescapes : u.escapes = p.writer.escapes := by
    obtain ⟨buffer, sink, rfl⟩ := hu.same
    rfl
  have hcarries : p.writer.Carries before now (fun _ => False) :=
    ⟨now, hshows, Nat.le_refl _, fun _ _ h => h.elim⟩
  have htaken := ((carries_takePosition hcarries .scalar activity).of_ok htake).1
  obtain ⟨_, a, hfill, hrest⟩ :=
    run_andThen_eq_ok (show (fillScalar slot .regularExpression >>= fun _ =>
      emit ((Primitive.regex r).payload u.escapes) >>= fun _ => drainIfStreaming).run u = .ok () _
      from tracked_eq_ok hwrite)
  obtain ⟨filled, hfilled, hle, -⟩ :=
    (spares_fillScalar (fun _ _ _ _ h => h.elim) _ u htaken).of_ok hfill
  obtain ⟨_, b, hemit, hdrain⟩ := run_andThen_eq_ok hrest
  rw [hescapes, run_eq_ok_iff, yields_emit] at hemit
  cases hfailure : ((Primitive.regex r).payload p.writer.escapes).failure with
  | some cause => simp [hfailure] at hemit
  | none =>
    obtain ⟨hpattern, hletters⟩ := (regex_failure_iff r).mp hfailure
    obtain ⟨pattern, hpattern⟩ := Option.isSome_iff_exists.mp hpattern
    obtain ⟨letters, hletters⟩ := Option.isSome_iff_exists.mp hletters
    refine ⟨pattern, letters, hpattern, hletters, ?_⟩
    have hpayload : ((Primitive.regex r).payload p.writer.escapes).written =
        terminated pattern ++ terminated letters := by
      rw [Primitive.payload, cstring_of_writtenName hpattern, cstring_of_writtenName hletters]
      rfl
    rw [hfailure, hpayload] at hemit
    obtain ⟨-, rfl⟩ := hemit
    have hlater := (shows_drainIfStreaming (hfilled.append _)).of_ok hdrain
    intro q bs
    have hsize : q.writer.buffer.size = filled.length + bs.length := by
      rw [show q.writer.buffer.size = _ from hlater.length.symm, List.length_append]
    rw [hsize, Nat.add_sub_cancel]
    have hat := hasAt_append filled bs []
    rw [List.append_nil] at hat
    have hlow : p.writer.buffer.size ≤ filled.length := by rw [← hshows.length]; exact hle
    refine Progress.fixed_of_final (consistent_apply hc _) hlater hat fun i hi hlt => ?_
    refine Progress.final_between (p := q) (hv.slot.trans hu.slot) (fun header hh => .inl ?_)
      (fun mark hmark => .inl (Nat.le_trans (hm mark hmark) hlow)) hi hlt
    rw [show q.writer.containers = _ from hv.containers.trans hu.containers] at hh
    exact Nat.le_trans (header_le_size hc (by simpa using hh)) hlow

end Step

/-! ## All sessions -/

/-- In every session that runs, whatever table is installed: an element goes behind the
decimal text of its number, which is the number of values that have begun in the array, as
the table turns it out. It takes its position exactly if the table lets that be written, and
where it goes well the key stands there to stay. A regular expression likewise ends in its
option letters as the table turns them out, and can be written exactly if the table lets
pattern and letters be. So indexes are decimal texts under those tables only that replace no
digit, and options the letters of the flags under those that replace none of `i`, `m`, `s`
and `u`. -/
theorem synthesized_texts_escaped (sink : Sink) (options : Options) (storage : Bytes)
    (steps : List Step) :
    let start : Progress := ⟨Writer.onStorage sink options storage, []⟩
    let p := Step.run start steps
    let w := p.writer
    w.phase = .running →
      (∀ rest account accounts, w.expectations = .element :: rest →
        (Ledger.run {} start steps).accounts = account :: accounts →
        (∀ kind activity,
          (∀ key, writtenName w.escapes account.values.repr = some key →
            (takePosition kind activity).result w = .ok (some w.buffer.size)) ∧
          (writtenName w.escapes account.values.repr = none → ∃ cause,
            (takePosition kind activity).result w = .error ⟨cause, none⟩ ∧
              TableFault w.escapes account.values.repr cause)) ∧
        ∀ step : Step, step.BeginsValue → ¬step.Fails p → ∃ key,
          writtenName w.escapes account.values.repr = some key ∧
            (step.apply p).Fixed sink.held (w.buffer.size + 1) (terminated key)) ∧
      (∀ activity r, ¬(Step.write activity (.regex r)).Fails p → ∃ pattern letters,
        writtenName w.escapes r.pattern = some pattern ∧
          writtenName w.escapes r.flags.letters = some letters ∧
          let q := (Step.write activity (.regex r)).apply p
          let bs := terminated pattern ++ terminated letters
          q.Fixed sink.held (q.writer.buffer.size - bs.length) bs) ∧
      ∀ table : Option EscapeTable,
        (∀ r : Regex, ((Primitive.regex r).payload table).failure = none ↔
          (writtenName table r.pattern).isSome = true ∧
            (writtenName table r.flags.letters).isSome = true) ∧
        ((∀ n : Nat, writtenName table n.repr = some n.repr) ↔
          ∀ c : Char, c.isDigit = true → Leaves table c) ∧
        ((∀ flags : RegexFlags, writtenName table flags.letters = some flags.letters) ↔
          ∀ c ∈ ['i', 'm', 's', 'u'], Leaves table c) := by
  intro start p w hr
  have hc : w.Consistent :=
    Step.consistent_run (Writer.consistent_onStorage sink options storage) steps
  have hm : w.Covers p.scopes := @Step.covers_run start nofun steps
  obtain ⟨now, hshows⟩ := Step.exists_shows sink options storage hr
  refine ⟨fun rest account accounts he ha => ?_, fun activity r hf =>
    Step.fixed_regex hc hm hshows hf, fun table => ⟨fun r => regex_failure_iff r,
      writtenName_repr_iff, writtenName_letters_iff⟩⟩
  have hcounts : List.Forall₂ Container.Counted w.containers (account :: accounts) := by
    rw [← ha]
    exact Ledger.counts_run sink options storage steps hr
  have haligned := hc.aligned
  rw [he] at haligned
  cases hn : Container.nextElement w.containers with
  | none => exact absurd hn (Container.nextElement_ne_none haligned)
  | some next =>
    obtain ⟨index, containers⟩ := next
    obtain ⟨_, header, outer, -, hcontainers, -⟩ := Container.nextElement_eq_some haligned hn
    rw [hcontainers] at hcounts
    have hindex : index = account.values := (List.forall₂_cons.mp hcounts).1 index rfl
    rw [hindex] at hn
    exact ⟨fun kind activity => result_takePosition_element hr he hn kind activity,
      fun step hs hf => Step.fixed_key hc hm hshows hr hn hs hf⟩

/-- The table makes the digit zero an `x` and gives no sequence for the letter `i`. The first
element of an array gets the key `x`, and a regular expression with the first flag cannot be
written. -/
theorem synthesized_texts_escaped_digit :
    let table : EscapeTable := (EscapeTable.ascii.withEscape '0' "x").withCode 'i' .custom
    let start : Progress := ⟨Writer.onStorage {} {} [], []⟩
    let steps : List Step := [.setEscapes (some table), .begin .container .startObject .document,
      .name "a", .begin .container .startArray .array]
    let p := Step.run start steps
    (Ledger.run {} start steps).accounts = [⟨0, false⟩, ⟨1, false⟩] ∧
      ((Step.write .null .null).apply p).Fixed [] 12 (terminated "x") ∧
      (Step.write .regex (.regex ⟨"", { caseInsensitive := true }⟩)).Fails p := by
  intro table start steps p
  have hr : p.writer.phase = .running := by decide +kernel
  obtain ⟨helements, -, -⟩ := synthesized_texts_escaped {} {} [] steps hr
  obtain ⟨-, hfixed⟩ := helements [.name] ⟨0, false⟩ [⟨1, false⟩] (by decide +kernel)
    (by decide +kernel)
  obtain ⟨key, hkey, hat⟩ := hfixed (.write .null .null) trivial (by decide +kernel)
  have hescapes : p.writer.escapes = some table := by decide +kernel
  have hx : writtenName (some table) (0 : Nat).repr = some "x" := by decide +kernel
  have hsize : p.writer.buffer.size + 1 = 12 := by decide +kernel
  rw [hescapes, hx] at hkey
  rw [← Option.some.inj hkey, hsize] at hat
  exact ⟨by decide +kernel, hat, by decide +kernel⟩

/-- The table makes the digit zero an `x` and the letter `i` a `y`. Where the first element of
the array and the regular expression have been written, neither the decimal text of zero nor
the letter of the flag stands. -/
theorem synthesized_texts_escaped_not_plain :
    let table : EscapeTable := (EscapeTable.ascii.withEscape '0' "x").withEscape 'i' "y"
    let flags : RegexFlags := { caseInsensitive := true }
    let w := Report.lastState (Writer.onStorage {} {} []) (Call.runAll (Writer.onStorage {} {} [])
      [.setEscapes (some table), .beginContainer .direct .document, .fieldName "a",
        .beginContainer .direct .array, .write .direct .null, .endContainer .array,
        .fieldName "r", .write .direct (.regex ⟨"p", flags⟩), .endContainer .document])
    w.buffered = [23, 0, 0, 0, 4, 97, 0, 8, 0, 0, 0, 10, 120, 0, 0, 11, 114, 0, 112, 0, 121, 0, 0] ∧
      ¬HasAt w.buffered 12 (terminated (0 : Nat).repr) ∧
      ¬HasAt w.buffered 20 (terminated flags.letters) := by
  decide +kernel

end BsonWriter
