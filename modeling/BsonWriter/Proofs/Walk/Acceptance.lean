import BsonWriter.Proofs.Session.Success
import BsonWriter.Proofs.Walk.Answer

/-!
Which sequences of calls a session accepts. As long as all data can be written, a
call is refused exactly if the expectations refuse its token (`Call.Obeys`), so the
accepted sequences are the walks of the grammar (`accepted_iff_viable`).
-/

namespace BsonWriter

/-! ## Lengths that fit -/

namespace Report

mutual

/-- No length in a report, or in those inside it, failed to fit its field. -/
def fits : Report → Bool
  | ⟨.ok (), _, inner⟩ => allFit inner
  | ⟨.error e, _, inner⟩ => !e.isOverflow && allFit inner

def allFit : List Report → Bool
  | [] => true
  | r :: rest => r.fits && allFit rest

end

theorem allFit_iff (reports : List Report) :
    allFit reports = true ↔ ∀ r ∈ reports, r.fits = true := by
  induction reports with
  | nil => simp [allFit]
  | cons r rest ih => simp [allFit, ih]

theorem fits_iff (r : Report) : r.fits = true ↔
    (∀ e, r.result = .error e → e.isOverflow = false) ∧ ∀ s ∈ r.inner, s.fits = true := by
  obtain ⟨⟨e⟩ | ⟨⟩, after, inner⟩ := r <;> simp [fits, allFit_iff]

theorem inner_ofAction (a : Action Unit) (w : Writer) (inner : List Report) :
    (ofAction a w inner).inner = inner := by
  rw [ofAction_eq]

end Report

/-! ## Calls that spell tokens -/

namespace Call

/-- The call is one of the grammar's tokens, and its data can be written: without an
escape table, names have no null characters, and payloads no fault. -/
def SpellsPlain (options : Options) : Call → Token → Prop
  | beginContainer .direct shape, token => token = .begins shape
  | endContainer shape, token => token = .ends shape
  | fieldName name, token => token = .name ∧ '\x00' ∉ name.toList
  | write .direct value, token =>
    token = .scalar ∧ ((value.primitive options).payload none).failure = none
  | _, _ => False

mutual

/-- The same with code whose scope is written by such calls, or by a datum that makes
such calls: they spell the content of a document. -/
def Spells (options : Options) : Call → Token → Prop
  | codeWithCalls .direct code _ calls, token =>
    token = .scalar ∧ (Payload.string none code).failure = none ∧
      ∃ tokens, AllSpell options calls tokens ∧ Derives (.content .document) tokens
  | codeWithDatum .direct code d, token =>
    token = .scalar ∧ (Payload.string none code).failure = none ∧
      ∃ calls tokens, d.asScope = scopeAction false calls ∧
        List.Forall₂ (SpellsPlain options) calls tokens ∧ Derives (.content .document) tokens
  | call, token => call.SpellsPlain options token

def AllSpell (options : Options) : List Call → List Token → Prop
  | [], tokens => tokens = []
  | call :: rest, tokens =>
    ∃ token others, tokens = token :: others ∧ call.Spells options token ∧
      AllSpell options rest others

end

open BsonWriter.Action
open Writer (Ready)

variable {options : Options} {w : Writer}

/-- A call is refused exactly if the expectations refuse its token. -/
theorem answers_plain (h : w.Ready options) {call : Call} {token : Token}
    (hc : call.SpellsPlain options token) :
    call.action.Answers options w (token.next w.expectations) := by
  cases call with
  | beginContainer place shape =>
    cases place with
    | direct =>
      obtain rfl := hc
      exact answers_beginContainer h shape
    | field | element => exact hc.elim
  | endContainer shape =>
    obtain rfl := hc
    exact answers_endContainer h shape
  | fieldName name =>
    obtain ⟨rfl, hn⟩ := hc
    exact answers_fieldName h hn
  | write place value =>
    cases place with
    | direct =>
      obtain ⟨rfl, hp⟩ := hc
      exact answers_write h hp
    | field | element => exact hc.elim
  | _ => exact hc.elim

/-- The same for calls that stop at the first error. -/
theorem answers_plains (h : w.Ready options) {calls : List Call} {tokens : List Token}
    (hc : List.Forall₂ (SpellsPlain options) calls tokens) :
    (scopeAction false calls).Answers options w (Token.reads tokens w.expectations) := by
  induction hc generalizing w with
  | nil => exact ⟨h, rfl⟩
  | @cons call token calls tokens hcall _ ih =>
    rw [Answers, scopeAction, yields_andThen]
    refine (answers_plain h hcall).mono (fun _ v hv => ?_) fun e _ he => ?_
    · rw [Token.reads, hv.2, Option.bind_some]
      exact ih hv.1
    · rcases he with ⟨hout, hnone⟩ | he
      · exact .inl ⟨hout, by rw [Token.reads, hnone]; rfl⟩
      · exact .inr he

/-- A report in line with the expectations: where they admit a token, the call and all
calls inside it go well, and otherwise it comes out of order. -/
def Obeys (options : Options) (w : Writer) (call : Call) (next : Option (List Expectation)) :
    Prop :=
  match next with
  | some es => ∃ w', Succeeds w [call] w' ∧ w'.Ready options ∧ w'.expectations = es
  | none => ∃ e, (call.run w).result = .error e ∧ e.isOutOfOrder = true

/-- A call without others inside it. -/
theorem obeys_of_answers {w : Writer} {call : Call} {next : Option (List Expectation)}
    (hr : call.run w = .ofAction call.action w []) (hf : (call.run w).fits = true)
    (ha : call.action.Answers options w next) : Obeys options w call next := by
  unfold Answers Yields at ha
  cases hact : call.action.run w with
  | ok x w' =>
    rw [hact] at ha
    obtain ⟨hready, rfl⟩ := ha
    exact ⟨w', Succeeds.of_run hr hact, hready, rfl⟩
  | error e w' =>
    rw [hact] at ha
    have hresult : (call.run w).result = .error e := by rw [hr, Report.ofAction, hact]
    rcases ha with ⟨hout, rfl⟩ | hover
    · exact ⟨e, hresult, hout⟩
    · rw [((Report.fits_iff _).mp hf).1 e hresult] at hover
      cases hover

mutual

theorem obeys_call {w : Writer} {token : Token} (h : w.Ready options) : (call : Call) →
    call.Spells options token → (call.run w).fits = true →
    Obeys options w call (token.next w.expectations)
  | codeWithCalls .direct code forgiving calls, hc, hf => by
    obtain ⟨rfl, hp, tokens, hall, hd⟩ := hc
    have hbegin := ready_beginScope h hp
    unfold Yields at hbegin
    cases hb : (beginScope .direct code).run w with
    | error e v =>
      rw [hb] at hbegin
      rw [hbegin.2]
      exact ⟨e, by rw [run, hb], hbegin.1⟩
    | ok mark v =>
      rw [hb] at hbegin
      obtain ⟨hready, hstart, es, hnext, he, hdepth⟩ := hbegin
      rw [run, hb] at hf
      rw [Report.fits_iff, Report.inner_ofAction] at hf
      obtain ⟨hfit, hinner⟩ := hf
      obtain ⟨u, hs, hu, hue⟩ := obeys_calls hready calls hall hinner (by rw [he]; exact hd.read es)
      rw [hnext]
      have hlast : (scopeAction forgiving calls).after v = u := by
        rw [← lastState_runScope, runScope_of_clean hs.1, hs.2]
      have hle : mark.start + 4 ≤ u.buffer.size := by
        rw [← hlast]
        exact ((scope_issues forgiving calls).reaches v hstart).after
      have hend := ready_endScope hu hue hdepth hle
      unfold Yields at hend
      cases hr : (endScope mark).run u with
      | ok x w' =>
        rw [hr] at hend
        exact ⟨w', Succeeds.codeWithCalls hb hs hr, hend⟩
      | error e w' =>
        rw [hr] at hend
        simp only [runScope_of_clean hs.1, scopeResult_of_clean hs.1, finishScope, hs.2,
          Report.ofAction, hr] at hfit
        have hover : e.isOverflow = true := hend
        rw [hfit e rfl] at hover
        cases hover
  | codeWithDatum .direct code d, hc, hf => by
    obtain ⟨rfl, hp, calls, tokens, hscope, hall, hd⟩ := hc
    refine obeys_of_answers rfl hf (answers_codeWithScope h hp ?_ fun v es hv he => ?_)
    · rw [hscope]
      exact scope_issues false calls
    · have hread : Token.reads tokens (.name :: es) = some (.name :: es) := hd.read es
      have ha := answers_plains hv hall
      rwa [← hscope, he, hread] at ha
  | codeWithCalls (.field _) .., hc, _ | codeWithCalls .element .., hc, _
  | codeWithDatum (.field _) .., hc, _ | codeWithDatum .element .., hc, _ => hc.elim
  | beginContainer .., hc, hf | endContainer .., hc, hf | fieldName .., hc, hf | write .., hc, hf
  | abandon .., hc, hf | serialize .., hc, hf | flush, hc, hf | close, hc, hf
  | setEscapes .., hc, hf | inspect, hc, hf => obeys_of_answers rfl hf (answers_plain h hc)

theorem obeys_calls {w : Writer} {tokens : List Token} {es : List Expectation} {forgiving : Bool}
    (h : w.Ready options) : (calls : List Call) → AllSpell options calls tokens →
    (∀ r ∈ runScope forgiving w calls, r.fits = true) →
    Token.reads tokens w.expectations = some es →
    ∃ w', Succeeds w calls w' ∧ w'.Ready options ∧ w'.expectations = es
  | [], hc, _, hr => by
    obtain rfl := hc
    exact ⟨w, Succeeds.nil w, h, Option.some.inj hr⟩
  | call :: rest, hc, hf, hr => by
    obtain ⟨token, others, rfl, hcall, hrest⟩ := hc
    obtain ⟨next, hnext, hr⟩ := Option.bind_eq_some_iff.mp hr
    have hobeys := obeys_call h call hcall (hf _ List.mem_cons_self)
    rw [hnext] at hobeys
    obtain ⟨v, hs, hv, rfl⟩ := hobeys
    have hclean : (call.run w).Clean := hs.1 _ List.mem_cons_self
    have hafter : (call.run w).after = v := hs.2
    rw [runScope, hclean.failed, hafter] at hf
    obtain ⟨w', hs', hw'⟩ := obeys_calls hv rest hrest
      (fun r hm => hf r (List.mem_cons_of_mem _ hm)) hr
    exact ⟨w', hs.append hs', hw'⟩

end

/-! ## Sequences of calls -/

theorem runAll_take (w : Writer) (calls : List Call) (n : Nat) :
    (runAll w calls).take n = runAll w (calls.take n) := by
  induction calls generalizing w n with
  | nil => simp [runAll]
  | cons call rest ih =>
    cases n with
    | zero => simp [runAll]
    | succ n => simp [runAll, ih]

theorem AllSpell.take : {calls : List Call} → {tokens : List Token} →
    AllSpell options calls tokens → (n : Nat) → AllSpell options (calls.take n) (tokens.take n)
  | [], _, rfl, n => by simp [AllSpell]
  | _ :: _, _, _, 0 => by simp [AllSpell]
  | _ :: _, _, ⟨token, others, rfl, hcall, hrest⟩, n + 1 =>
    ⟨token, others.take n, rfl, hcall, AllSpell.take hrest n⟩

/-- Calls whose tokens are read all go well. -/
theorem succeeds_of_reads {w : Writer} (h : w.Ready options) {calls : List Call}
    {tokens : List Token} (hc : AllSpell options calls tokens)
    (hf : ∀ r ∈ runAll w calls, r.fits = true) {es : List Expectation}
    (hr : Token.reads tokens w.expectations = some es) :
    ∃ w', Succeeds w calls w' ∧ w'.Ready options ∧ w'.expectations = es := by
  rw [runAll_eq_runScope] at hf
  exact obeys_calls h calls hc hf hr

/-- Where tokens are not read any more, the first call that fails comes out of order. -/
theorem exists_first_error {w : Writer} (h : w.Ready options) {calls : List Call}
    {tokens : List Token} (hc : AllSpell options calls tokens)
    (hf : ∀ r ∈ runAll w calls, r.fits = true) (hr : Token.reads tokens w.expectations = none) :
    ∃ n es r e, Token.reads (tokens.take n) w.expectations = some es ∧
      Token.reads (tokens.take (n + 1)) w.expectations = none ∧
      (∀ s ∈ (runAll w calls).take n, s.result = .ok ()) ∧ (runAll w calls)[n]? = some r ∧
      r.result = .error e ∧ e.isOutOfOrder = true := by
  induction calls generalizing w tokens with
  | nil =>
    obtain rfl := hc
    cases hr
  | cons call rest ih =>
    obtain ⟨token, others, rfl, hcall, hrest⟩ := hc
    have hobeys := obeys_call h call hcall (hf _ List.mem_cons_self)
    cases hnext : token.next w.expectations with
    | none =>
      rw [hnext] at hobeys
      obtain ⟨e, he, hout⟩ := hobeys
      exact ⟨0, w.expectations, call.run w, e, rfl, by simp [Token.reads, hnext], by simp, rfl, he,
        hout⟩
    | some next =>
      rw [hnext] at hobeys
      obtain ⟨v, hs, hv, rfl⟩ := hobeys
      have hok : (call.run w).result = .ok () := (hs.1 _ List.mem_cons_self).result
      have hafter : (call.run w).after = v := hs.2
      have hreads : ∀ ts, Token.reads (token :: ts) w.expectations =
          Token.reads ts v.expectations := fun ts => by rw [Token.reads, hnext, Option.bind_some]
      rw [runAll, hafter] at hf
      rw [hreads] at hr
      obtain ⟨n, es, r, e, htake, hstop, hall, hget, he, hout⟩ :=
        ih hv hrest (fun r hm => hf r (List.mem_cons_of_mem _ hm)) hr
      refine ⟨n + 1, es, r, e, by rw [List.take_succ_cons, hreads, htake],
        by rw [List.take_succ_cons, hreads, hstop], fun s hm => ?_, ?_, he, hout⟩
      · rw [runAll, hafter, List.take_succ_cons] at hm
        rcases List.mem_cons.mp hm with rfl | hm
        · exact hok
        · exact hall s hm
      · rw [runAll, hafter]
        exact hget

end Call

/-- A session whose sink takes everything is given calls that spell tokens, and no
length fails to fit its field. Then all calls go well exactly if the tokens are the
front part of a walk. Otherwise the first call that fails is the one whose token
leaves no walk to be continued, and it fails because it comes out of order. As long as
the calls are accepted, the depth is the number of containers begun and not ended. -/
theorem accepted_iff_viable {sink : Sink} (options : Options) (storage : Bytes) {calls : List Call}
    {tokens : List Token} (hs : sink.TakesAll) (hc : Call.AllSpell options calls tokens)
    (hf : ∀ r ∈ Call.runAll (Writer.onStorage sink options storage) calls, r.fits = true) :
    let w := Writer.onStorage sink options storage
    let reports := Call.runAll w calls
    ((∀ r ∈ reports, r.result = .ok ()) ↔ Viable tokens) ∧
      (¬Viable tokens → ∃ n r e, Viable (tokens.take n) ∧ ¬Viable (tokens.take (n + 1)) ∧
        (∀ s ∈ reports.take n, s.result = .ok ()) ∧ reports[n]? = some r ∧
        r.result = .error e ∧ e.isOutOfOrder = true) ∧
      ∀ n, Viable (tokens.take n) → (Report.lastState w (reports.take n)).depth +
        Token.ended (tokens.take n) = Token.begun (tokens.take n) := by
  intro w reports
  have hready : w.Ready options := Writer.Ready.start options hs storage
  have hfirst : ¬Viable tokens → ∃ n r e, Viable (tokens.take n) ∧ ¬Viable (tokens.take (n + 1)) ∧
      (∀ s ∈ reports.take n, s.result = .ok ()) ∧ reports[n]? = some r ∧
      r.result = .error e ∧ e.isOutOfOrder = true := by
    intro hn
    have hnone : Token.reads tokens [] = none := by
      rw [viable_iff_reads] at hn
      exact Option.eq_none_iff_forall_not_mem.mpr fun es he => hn ⟨es, he⟩
    obtain ⟨n, es, r, e, htake, hstop, hall, hget, he, hout⟩ :=
      Call.exists_first_error hready hc hf hnone
    refine ⟨n, r, e, (viable_iff_reads _).mpr ⟨es, htake⟩, fun hv => ?_, hall, hget, he, hout⟩
    obtain ⟨es', hes⟩ := (viable_iff_reads _).mp hv
    rw [show Token.reads (tokens.take (n + 1)) [] = none from hstop] at hes
    cases hes
  refine ⟨⟨fun hall => ?_, fun hv => ?_⟩, hfirst, fun n hv => ?_⟩
  · by_contra hn
    obtain ⟨n, r, e, -, -, -, hget, he, -⟩ := hfirst hn
    rw [hall r (List.mem_of_getElem? hget)] at he
    cases he
  · obtain ⟨es, hr⟩ := (viable_iff_reads _).mp hv
    obtain ⟨w', hsucceeds, -⟩ := Call.succeeds_of_reads hready hc hf hr
    exact fun r hm => (hsucceeds.1 r hm).result
  · obtain ⟨es, hr⟩ := (viable_iff_reads _).mp hv
    have htake := Call.runAll_take w calls n
    obtain ⟨w', hsucceeds, hready', rfl⟩ := Call.succeeds_of_reads hready (hc.take n)
      (fun r hm => hf r (List.mem_of_mem_take (by rw [htake]; exact hm))) hr
    have hdepth := Token.length_reads hr
    rw [htake, hsucceeds.2, hready'.depth, hdepth]
    exact Nat.zero_add _

/-- An array in a document, with a scalar and code with a scope in it, and a second end
of the array where the document should end. -/
def arrayEndedTwice : List Call :=
  [.beginContainer .direct .document, .fieldName "a", .beginContainer .direct .array,
    .write .direct (.boolean true),
    .codeWithCalls .direct "f" false [.fieldName "x", .write .direct .null],
    .codeWithDatum .direct "g" (.record "R" [("y", .boolean false)]),
    .endContainer .array, .endContainer .array]

theorem accepted_iff_viable_arrayEndedTwice :
    let w := Writer.onStorage {} {} []
    let reports := Call.runAll w arrayEndedTwice
    (∃ n r e, (∀ s ∈ reports.take n, s.result = .ok ()) ∧ reports[n]? = some r ∧
      r.result = .error e ∧ e.isOutOfOrder = true) ∧
    ∀ r ∈ Call.runAll w (arrayEndedTwice.take 7), r.result = .ok () := by
  intro w reports
  have hs : w.sink.TakesAll := ⟨rfl, by decide, rfl⟩
  have hc : Call.AllSpell {} arrayEndedTwice [.begins .document, .name, .begins .array, .scalar,
      .scalar, .scalar, .ends .array, .ends .array] := by
    have hcalls : Call.AllSpell {} [.fieldName "x", .write .direct .null] [.name, .scalar] :=
      ⟨_, _, rfl, ⟨rfl, by decide⟩, _, _, rfl, ⟨rfl, rfl⟩, rfl⟩
    have hfield : Derives (.content .document) [.name, .scalar] :=
      .field (b := []) .scalar (.nothing _)
    refine ⟨_, _, rfl, rfl, _, _, rfl, ⟨rfl, by decide⟩, _, _, rfl, rfl, _, _, rfl, ⟨rfl, rfl⟩,
      _, _, rfl, ⟨rfl, by decide +kernel, _, hcalls, hfield⟩, _, _, rfl,
      ⟨rfl, by decide +kernel, [.fieldName "y", .write .direct (.boolean false)], _, rfl, ?_,
        hfield⟩, _, _, rfl, rfl, _, _, rfl, rfl, rfl⟩
    exact .cons ⟨rfl, by decide⟩ (.cons ⟨rfl, rfl⟩ .nil)
  have hn : ¬Viable [.begins .document, .name, .begins .array, .scalar, .scalar, .scalar,
      .ends .array, .ends .array] := by
    rw [viable_iff_reads]
    rintro ⟨es, h⟩
    cases h
  have hv : Viable [.begins .document, .name, .begins .array, .scalar, .scalar, .scalar,
      .ends .array] := (viable_iff_reads _).mpr ⟨[.name], rfl⟩
  have hf : ∀ r ∈ Call.runAll w arrayEndedTwice, r.fits = true := by decide +kernel
  have hf' : ∀ r ∈ Call.runAll w (arrayEndedTwice.take 7), r.fits = true := by decide +kernel
  obtain ⟨n, r, e, -, -, hall, hget, he, hout⟩ := (accepted_iff_viable {} [] hs hc hf).2.1 hn
  exact ⟨⟨n, r, e, hall, hget, he, hout⟩, (accepted_iff_viable {} [] hs (hc.take 7) hf').1.mpr hv⟩

end BsonWriter
