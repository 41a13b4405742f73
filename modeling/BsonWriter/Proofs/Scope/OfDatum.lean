import BsonWriter.Proofs.Datum.Documents
import BsonWriter.Proofs.Run.Script
import BsonWriter.Proofs.Scope.Fragment
import BsonWriter.Proofs.Scope.Payload

/-!
A datum as the scope of code. The session begins and ends the scope document, and the datum
writes only what is between, while in a session of its own the datum begins and ends its
document. What is between is the same to the document wherever it stands
(`portable_composed`), so both ways write the same bytes or fail both (`run_document_iff`). A
datum that is no map and no record is one value, and comes where the scope expects a name.
-/

namespace BsonWriter

open BsonWriter.Action

/-! ## The heads of data -/

namespace Datum

/-- The datum without the present values and the wrappers around it that mark nothing. -/
def unmarked : Datum → Datum
  | present d => d.unmarked
  | wrapper name d =>
    if name = objectIdMark ∨ name = dateTimeMark then wrapper name d else d.unmarked
  | d => d

/-- The datum is a map or a record. -/
def HoldsFields : Datum → Prop
  | map _ | record .. => True
  | _ => False

theorem write_unmarked (reading : Reading) :
    (d : Datum) → d.unmarked.write reading = d.write reading
  | present d => by
    rw [unmarked, write]
    exact write_unmarked reading d
  | wrapper name d => by
    rw [unmarked]
    split
    · rfl
    · rename_i h
      rw [not_or] at h
      rw [write, Reading.inside, if_neg h.1, if_neg h.2]
      exact write_unmarked reading d
  | boolean _ | integer _ | single _ | double _ | character _ | text _ | bytes _ | empty _
  | choice _ | tagged .. | sequence .. | taggedSequence .. | map _ | record .. | taggedRecord ..
  | audience | refusal _ => rfl

theorem write_of_holdsFields {d : Datum} (h : d.HoldsFields) : d.write .plain = (do
    Action.beginDocument
    d.write .fields
    Action.endDocument) := by
  cases d with
  | map steps => rw [write, write, if_neg Reading.noConfusion, if_pos rfl]
  | record type fields => rw [write, write, if_neg Reading.noConfusion, if_pos rfl]
  | _ => exact h.elim

theorem inside_fields_ne {name : String} (h : name = objectIdMark ∨ name = dateTimeMark) :
    Reading.inside .fields name ≠ .fields := by
  unfold Reading.inside
  split
  · exact Reading.noConfusion
  · rw [if_pos (h.resolve_left (by assumption))]
    exact Reading.noConfusion

/-- Any other datum is one value, also in a scope. -/
theorem writesValue_asScope : (d : Datum) → d.unmarked.HoldsFields ∨
    ∃ parts, Action.WritesValue d.asScope parts
  | present d => by
    rw [unmarked, asScope, write, ← asScope]
    exact writesValue_asScope d
  | wrapper name d => by
    rw [unmarked, asScope, write]
    by_cases hmark : name = objectIdMark ∨ name = dateTimeMark
    · exact .inr ⟨_, writesValue_datum (inside_fields_ne hmark) d⟩
    · rw [if_neg hmark]
      rw [not_or] at hmark
      rw [Reading.inside, if_neg hmark.1, if_neg hmark.2, ← asScope]
      exact writesValue_asScope d
  | map _ | record .. => .inl trivial
  | boolean _ | single _ | double _ | bytes _ | empty _ | audience =>
    .inr ⟨_, Action.writesValue_write _⟩
  | integer v => .inr ⟨_, writesValue_writeInteger .fields v⟩
  | character c => .inr ⟨_, writesValue_writeText .fields c.toString⟩
  | text s => .inr ⟨_, writesValue_writeText .fields s⟩
  | choice name => .inr ⟨_, writesValue_writeText .fields name⟩
  | refusal _ => .inr ⟨[], Action.writesValue_raise _ _⟩
  | tagged type name d =>
    .inr ⟨_, @writesValue_datum .plain Reading.noConfusion (tagged type name d)⟩
  | sequence label items =>
    .inr ⟨_, @writesValue_datum .plain Reading.noConfusion (sequence label items)⟩
  | taggedSequence type name items =>
    .inr ⟨_, @writesValue_datum .plain Reading.noConfusion (taggedSequence type name items)⟩
  | taggedRecord type name fields =>
    .inr ⟨_, @writesValue_datum .plain Reading.noConfusion (taggedRecord type name fields)⟩

end Datum

/-! ## Fields wherever they stand -/

namespace Action

/-- In an open container of a fragment the action does the same in every session, and ends
what it begins. -/
def Portable (a : Action Unit) : Prop :=
  ∀ (f : Fragment) (n : Nat), f.Nested (n + 1) → Uniform (fun _ => a) f fun _ g => g.Nested (n + 1)

theorem portable_composed : Datum.Composed Portable where
  nothing _ _ hf := uniform_pure hf
  raised cause _ _ _ := uniform_raise cause
  followed ha hb f n hf := ((ha f n hf).mono fun _ g hg => hb g n hg).andThen
  named name _ _ hf := uniform_fieldName hf name
  written hv _ _ hf := uniform_write hv hf
  enclosed shape hi f n hf := by
    -- What is inside is the same under one more open container.
    apply Uniform.andThen
    apply (uniform_beginContainer hf shape).mono
    intro _ g hg
    apply Uniform.andThen
    apply (hi g (n + 1) hg).mono
    intro _ k hk
    exact uniform_endContainer hk shape

end Action

namespace Datum

/-- The fields of a datum in a document that has just begun. -/
theorem uniform_asScope (d : Datum) :
    Uniform (fun _ => d.asScope) Fragment.document fun _ f => f.Nested 1 :=
  portable_composed.datum .fields d _ 0 Fragment.nested_document

theorem uniform_document (d : Datum) :
    Uniform (fun _ => do d.asScope; endDocument) Fragment.document fun _ f => f.Nested 0 :=
  ((uniform_asScope d).mono fun _ _ hf => uniform_endContainer hf .document).andThen

/-- A session of its own begins a document for the fields. -/
theorem run_serialize_eq {d : Datum} (hd : d.unmarked.HoldsFields) : (serialize d).run {} =
    (tracked (do d.asScope; endDocument)).run (({} : Writer).opened .document) := by
  have hbegin : beginDocument.run {} = .ok () (({} : Writer).opened .document) :=
    @run_beginContainer _ _ .document (admits_root rfl rfl rfl rfl _)
  have hwrite := write_of_holdsFields hd
  rw [write_unmarked, write_unmarked] at hwrite
  rw [serialize, hwrite, run_tracked, run_tracked, run_andThen, hbegin]
  rfl

/-- Wherever a document has just begun, the fields of a datum and the end of the document
write what the datum becomes in a session of its own, or fail if that fails. -/
theorem run_document_iff {d : Datum} (hd : d.unmarked.HoldsFields) {host w' : Writer}
    (hh : host.Hosts) (hs : host.slot = none) :
    (do d.asScope; endDocument : Action Unit).run (host.opened .document) = .ok () w' ↔
      ∃ bs, d.toBytes {} = .ok bs ∧ w' = host.put bs := by
  have halone : Writer.Hosts {} := ⟨rfl, rfl, rfl⟩
  rcases uniform_document d with ⟨_, f, hf, hrun⟩ | herror
  · have hwrite : ∀ host : Writer, host.Hosts → host.slot = none →
        (do d.asScope; endDocument : Action Unit).run (host.opened .document) =
          .ok () (host.put f.bytes) := by
      intro host hh hs
      rw [← Fragment.document_within hs, hrun host hh, hf.within_eq_put hs]
    have hbytes : d.toBytes {} = .ok f.bytes := by
      apply toBytes_of_run
      rw [run_serialize_eq hd, run_tracked, hwrite {} halone rfl]
    rw [hwrite host hh hs]
    constructor
    · intro h
      cases h
      exact ⟨f.bytes, hbytes, rfl⟩
    · rintro ⟨bs, hb, rfl⟩
      rw [hbytes] at hb
      cases hb
      rfl
  · constructor
    · intro h
      obtain ⟨e, w, he⟩ := herror host hh
      rw [Fragment.document_within hs, h] at he
      cases he
    · rintro ⟨bs, hb, -⟩
      obtain ⟨w, hrun⟩ := run_of_toBytes hb
      rw [run_serialize_eq hd] at hrun
      obtain ⟨e, v, he⟩ := herror {} halone
      rw [Fragment.document_within rfl, tracked_eq_ok hrun] at he
      cases he

end Datum

/-! ## Code with a scope -/

/-- Code with the document of its scope, from the total length on. -/
def codePayload (code : String) (document : Bytes) : Bytes :=
  lengthField (4 + (prefixed code).length + document.length) ++ (prefixed code ++ document)

theorem codePayload_eq (code : String) (document : Bytes) :
    codePayload code document =
      lengthField ((prefixed code ++ document).length + 4) ++ (prefixed code ++ document) := by
  rw [codePayload, List.length_append, Nat.add_assoc, Nat.add_comm 4]

theorem length_codePayload (code : String) (document : Bytes) :
    (codePayload code document).length = 4 + (prefixed code).length + document.length := by
  rw [codePayload, List.length_append, List.length_append, length_lengthField, Nat.add_assoc]

namespace Action

variable {w w' u v : Writer} {slot : Option Nat} {code : String}

/-- Takes the type byte for code with a scope at a place, and fills it. -/
def typeAt (place : Place) : Action Unit := do
  let slot ← take place .scalar .javaScript
  fillScalar slot .javaScriptCodeWithScope

theorem eq_of_run_fillScalar {type : ElementType}
    (h : (fillScalar slot type).run v = .ok () u) : ∃ buffer, u = { v with buffer } := by
  cases slot with
  | none => cases h
  | some start => exact @eq_of_run_fill v u (some start) type h

/-- Without a table a text can be written if its length can be. -/
theorem string_plain (code : String) : Payload.string none code = Payload.sized (utf8 code) := rfl

/-- The scope begins if the length of the code can be written. -/
theorem openScopeAt_eq_ok_iff {mark : ScopeMark} (hu : u.Hosts)
    (hf : (fillScalar slot .javaScriptCodeWithScope).run v = .ok () u) :
    (openScopeAt code slot).run v = .ok mark w' ↔ (utf8 code).length + 1 < lengthBound ∧
      mark = ⟨u.buffer.size, u.expectations.length + 1⟩ ∧
      w' = (u.put (lengthField 0 ++ prefixed code)).opened .document := by
  rw [run_eq_ok_iff, openScopeAt]
  simp only [yields_tracked, yields_andThen]
  rw [yields_iff_of_ok hf]
  simp only [yields_offset, yields_append, yields_get, yields_emit, hu.escapes, string_plain]
  by_cases hl : (utf8 code).length + 1 < lengthBound
  · rw [sized_utf8 hl]
    simp [hl, Writer.put, Writer.opened, eq_comm, hu.escapes]
  · rw [Payload.sized, if_neg hl]
    simp [hl, Payload.fault]

/-- At the depth where the scope began, its end is that of the document and then the total
length. -/
theorem run_endScope_eq {mark : ScopeMark} (hs : w.options.streaming = false)
    (hd : w.expectations.length = mark.depth) : (endScope mark).run w =
      (tracked (do endDocument; patchLength mark.start)).run w := by
  apply run_eq_of_yields
  intro Q E
  unfold endScope
  simp only [yields_tracked, yields_andThen, yields_get, yields_ite, hd, if_true]
  cases hend : endDocument.run w with
  | error e v => simp only [Yields, hend]
  | ok x v =>
    obtain ⟨rest, _, containers, b, -, -, -, -, -, rfl⟩ :=
      @endContainer_eq_ok w v .document hs hend
    rw [yields_iff_of_ok hend, yields_iff_of_ok hend]
    simp [hs]

/-- What is written in the scope ends with its document, and then the total length is filled
in. -/
theorem inScope_eq_ok_iff {scope : Action Unit} {mark : ScopeMark}
    (hscope : ∀ m, scope.run w = .ok () m →
      m.options.streaming = false ∧ m.expectations.length = mark.depth) :
    (inScope scope mark).run w = .ok () w' ↔ ∃ m,
      (do scope; endDocument : Action Unit).run w = .ok () m ∧
        (patchLength mark.start).run m = .ok () w' := by
  rw [inScope, run_andThen, run_tracked, run_andThen]
  cases hr : scope.run w with
  | error e m => simp
  | ok x m =>
    obtain ⟨hs, hd⟩ := hscope m hr
    dsimp only
    rw [run_endScope_eq hs hd, run_tracked, run_andThen]
    cases endDocument.run m with
    | error e k => simp
    | ok x k =>
      dsimp only
      cases hp : (patchLength mark.start).run k with
      | error e l => simp [hp]
      | ok x l => simp [hp]

/-- The length field that was written first can be filled in if the number of bytes from
there on fits. -/
theorem patchLength_eq_ok_iff {bs : Bytes} :
    (patchLength u.buffer.size).run (u.put (lengthField 0 ++ bs)) = .ok () w' ↔
      bs.length + 4 < lengthBound ∧ w' = u.put (lengthField (bs.length + 4) ++ bs) := by
  have hsize : (u.put (lengthField 0 ++ bs)).buffer.size - u.buffer.size = bs.length + 4 := by
    simp only [Writer.put, Buffer.size_append, List.length_append, length_lengthField]
    omega
  constructor
  · intro h
    have hl := (patchLength_eq_ok h).1
    rw [hsize] at hl
    rw [@run_patchLength (u.put (lengthField 0 ++ bs)) u.buffer bs _ rfl rfl hl] at h
    cases h
    exact ⟨hl, rfl⟩
  · rintro ⟨hl, rfl⟩
    exact @run_patchLength (u.put (lengthField 0 ++ bs)) u.buffer bs _ rfl rfl hl

/-! ## What a value leaves alone -/

/-- Type bytes and names do not touch the table. -/
theorem keeps_escapes_take (table : Option EscapeTable) (place : Place) (kind : ValueKind)
    (activity : Activity) : Keeps (fun w => w.escapes = table) (take place kind activity) := by
  have hfail : ∀ w : Writer, w.escapes = table → w.fail.escapes = table := by
    intro w hw
    unfold Writer.fail
    split <;> exact hw
  apply Keeps.take
  · intro kind activity w hw
    apply yields_takePosition
    · exact fun _ => hfail w hw
    · exact fun _ _ _ _ => hw
    · exact fun _ _ _ _ _ _ _ => ⟨hw, fun _ => hfail _ hw⟩
  · intro name w hw
    apply yields_fieldName
    · exact fun _ => hfail w hw
    · exact fun _ _ _ _ => ⟨hw, fun _ => hfail _ hw⟩
  · intro w hw
    exact yields_checkArray (fun _ => hfail w hw) hw

end Action

namespace Robust

variable {I : Writer → Prop}

/-- Data keep what their calls keep. -/
theorem inherited (h : Robust I) : Datum.Inherited (Keeps I) where
  nothing _ hw := hw
  raised _ _ hw := hw
  followed ha hb := ha.andThen fun _ => hb
  named := h.fieldName
  began shape := (h.takePosition _ _).andThen fun slot => h.openAt shape slot
  ended := h.endContainer
  written value := (h.takePosition _ _).andThen fun slot => h.writeTo value slot

theorem codeWithDatum (h : Robust I) (place : Place) (code : String) (d : Datum) :
    Keeps I (codeWithScope place code d.asScope) := by
  rw [codeWithScope_eq]
  apply Keeps.andThen
  · exact Keeps.take h.takePosition h.fieldName h.checkArray place _ _
  · intro slot
    apply Keeps.andThen
    · exact h.openScopeAt code slot
    · intro mark
      exact ((h.inherited.datum .fields d).tracked h.failed).andThen fun _ => h.endScope mark

end Robust

/-! ## A datum as the scope -/

section OfDatum

variable {w u : Writer} {place : Place}

/-- Where the type byte has been taken, the session can take in the rest of the value. -/
theorem exists_of_typeAt (hw : w.Consistent) (hs : w.options.streaming = false)
    (he : w.escapes = none) (ht : (typeAt place).run w = .ok () u) :
    u.Hosts ∧ u.slot = none ∧ ∃ slot v, Settled v ∧
      (take place .scalar .javaScript).run w = .ok slot v ∧
        (fillScalar slot .javaScriptCodeWithScope).run v = .ok () u := by
  obtain ⟨slot, v, htake, hfill⟩ := run_andThen_eq_ok ht
  have hv : Settled v := (settled_take hw place _ _).of_ok htake
  have hframed : Framed (w.containers.map Container.header) w.options v :=
    (framed_take place .scalar .javaScript w ⟨rfl, rfl⟩).of_ok htake
  have hescapes : v.escapes = none :=
    (keeps_escapes_take none place .scalar .javaScript w he).of_ok htake
  obtain ⟨buffer, rfl⟩ := eq_of_run_fillScalar hfill
  refine ⟨⟨hv.running, ?_, hescapes⟩, hv.slotless, slot, v, hv, htake, hfill⟩
  show v.options.streaming = false
  rw [hframed.2, hs]

/-- The session has not failed or been closed. -/
theorem running_of_typeAt (ht : (typeAt place).run w = .ok () u) : w.phase = .running := by
  by_contra hp
  obtain ⟨slot, v, htake, -⟩ := run_andThen_eq_ok ht
  obtain ⟨e, he, -⟩ := exists_run_of_barred (barred_take place .scalar .javaScript) hp
  rw [htake] at he
  cases he

/-- At such a place the scope begins behind the code, if the length of the code can be
written. -/
theorem codeWithScope_eq_ok_iff {w' v : Writer} {slot : Option Nat} {code : String}
    {scope : Action Unit} (hu : u.Hosts)
    (htake : (take place .scalar .javaScript).run w = .ok slot v)
    (hfill : (fillScalar slot .javaScriptCodeWithScope).run v = .ok () u) :
    (codeWithScope place code scope).run w = .ok () w' ↔ (utf8 code).length + 1 < lengthBound ∧
      (inScope scope ⟨u.buffer.size, u.expectations.length + 1⟩).run
        ((u.put (lengthField 0 ++ prefixed code)).opened .document) = .ok () w' := by
  rw [codeWithScope_eq, run_andThen, htake]
  dsimp only
  constructor
  · intro h
    obtain ⟨mark, begun, hopen, hin⟩ := run_andThen_eq_ok h
    obtain ⟨hl, rfl, rfl⟩ := (openScopeAt_eq_ok_iff hu hfill).mp hopen
    exact ⟨hl, hin⟩
  · rintro ⟨hl, hin⟩
    rw [run_andThen, (openScopeAt_eq_ok_iff hu hfill).mpr ⟨hl, rfl, rfl⟩]
    exact hin

/-- The fields of a datum leave the document of the scope open. -/
theorem depth_asScope (hu : u.Hosts) (hslot : u.slot = none) {d : Datum} {v : Writer}
    (h : d.asScope.run (u.opened .document) = .ok () v) :
    v.options.streaming = false ∧ v.expectations.length = u.expectations.length + 1 := by
  rw [← Fragment.document_within hslot] at h
  rcases d.uniform_asScope with ⟨_, f, hf, hrun⟩ | herror
  · rw [hrun u hu] at h
    cases h
    refine ⟨hu.keeps, ?_⟩
    rw [Fragment.expectations_within, List.length_append, hf.aligned.length_eq, hf.count,
      Nat.add_comm]
  · obtain ⟨e, w, he⟩ := herror u hu
    rw [h] at he
    cases he

/-- Code with the fields of a datum as its scope. At a place that takes the type byte of such
a value, in a session that keeps its output and replaces no characters, a datum that is a map or
a record is written exactly if a session of its own writes it, as long as the length of the
whole can be written: after the total length and the code comes, byte for byte, the document
of that session. No other datum is written, and whatever fails, fails the session. -/
theorem scope_is_document_of_datum (hw : w.Reachable) (hs : w.options.streaming = false)
    (he : w.escapes = none) (ht : (typeAt place).run w = .ok () u) (code : String) (d : Datum) :
    (d.unmarked.HoldsFields → ∀ w', (codeWithScope place code d.asScope).run w = .ok () w' ↔
      ∃ document, d.toBytes {} = .ok document ∧ (codePayload code document).length < lengthBound ∧
        w' = u.put (codePayload code document)) ∧
    (¬d.unmarked.HoldsFields →
      ∃ e w', (codeWithScope place code d.asScope).run w = .error e w') ∧
    ∀ e w', (codeWithScope place code d.asScope).run w = .error e w' → w'.phase = .failed := by
  obtain ⟨hu, hslot, slot, v, hv, htake, hfill⟩ := exists_of_typeAt hw.consistent hs he ht
  -- For the document the total length and the code are only more bytes before it.
  let host := u.put (lengthField 0 ++ prefixed code)
  have hhost : host.Hosts := ⟨hu.running, hu.keeps, hu.escapes⟩
  refine ⟨fun hd w' => ?_, fun hd => ?_, fun e w' hrun => ?_⟩
  · have hput : ∀ document, host.put document =
        u.put (lengthField 0 ++ (prefixed code ++ document)) := by
      intro document
      rw [Writer.put_put, List.append_assoc]
    have hdocument := fun m => @Datum.run_document_iff d hd host m hhost hslot
    rw [codeWithScope_eq_ok_iff hu htake hfill,
      inScope_eq_ok_iff fun m hm => depth_asScope (u := host) hhost hslot hm]
    constructor
    · rintro ⟨-, m, hm, hp⟩
      obtain ⟨document, hbytes, rfl⟩ := (hdocument m).mp hm
      rw [hput] at hp
      obtain ⟨hl, rfl⟩ := patchLength_eq_ok_iff.mp hp
      refine ⟨document, hbytes, ?_, ?_⟩
      · rw [codePayload_eq, List.length_append, length_lengthField, Nat.add_comm]
        exact hl
      · rw [codePayload_eq]
    · rintro ⟨document, hbytes, hl, rfl⟩
      rw [length_codePayload, length_prefixed] at hl
      refine ⟨by omega, host.put document, (hdocument _).mpr ⟨document, hbytes, rfl⟩, ?_⟩
      rw [hput, codePayload_eq]
      refine patchLength_eq_ok_iff.mpr ⟨?_, rfl⟩
      rw [List.length_append, length_prefixed]
      omega
  · -- The scope expects a name where the datum comes as a value.
    apply exists_error
    intro _ w' hrun
    obtain ⟨hl, hin⟩ := (codeWithScope_eq_ok_iff hu htake hfill).mp hrun
    obtain ⟨_, m, hscope, -⟩ := run_andThen_eq_ok hin
    have hopen := (@openScopeAt_eq_ok_iff _ u v slot code _ hu hfill).mpr ⟨hl, rfl, rfl⟩
    have hbegun := (consistent_openScopeAt code slot hv).of_ok hopen
    obtain ⟨parts, hvalue⟩ := d.writesValue_asScope.resolve_left hd
    obtain ⟨-, ⟨expectations, hadmit, -⟩, -⟩ := hvalue _ m hbegun (tracked_eq_ok hscope)
    cases hadmit
  · have hstopped := ((Call.codeWithDatum place code d).stops w).of_error hrun
    have hopen := (Step.robust_open.codeWithDatum place code d w (by
      rw [running_of_typeAt ht]
      exact Phase.noConfusion)).of_error hrun
    cases hp : w'.phase with
    | running => exact absurd hp hstopped
    | closed => exact absurd hp hopen
    | failed => rfl

end OfDatum

/-- A map in a wrapper that marks nothing, and an alternative, which is no map. -/
theorem scope_is_document_of_datum_map :
    let d := Datum.present (.wrapper "S" (.map [(.key, .text "a"), (.value, .boolean true)]))
    let document : Bytes := [9, 0, 0, 0, 8, 97, 0, 1, 0]
    ∃ u, (typeAt .direct).run afterName = .ok () u ∧
      (codeWithScope .direct "c" d.asScope).run afterName =
        .ok () (u.put (codePayload "c" document)) ∧
      ∃ e w', (codeWithScope .direct "c" (Datum.choice "a").asScope).run afterName = .error e w' ∧
        w'.phase = .failed := by
  intro d document
  have hw : afterName.Reachable :=
    ⟨{}, {}, [], [.begin .container .startObject .document, .name "f"], [], rfl⟩
  have hok : (match (typeAt .direct).run afterName with
    | .ok _ _ => true
    | .error _ _ => false) = true := by decide +kernel
  cases ht : (typeAt .direct).run afterName with
  | error e u => simp [ht] at hok
  | ok x u =>
    obtain ⟨hfields, -, -⟩ := scope_is_document_of_datum hw rfl rfl ht "c" d
    obtain ⟨-, hother, hfailed⟩ := scope_is_document_of_datum hw rfl rfl ht "c" (.choice "a")
    have hbytes : d.toBytes {} = .ok document := by decide +kernel
    obtain ⟨e, w', hrun⟩ := hother id
    refine ⟨u, rfl, ?_, e, w', hrun, hfailed e w' hrun⟩
    exact (hfields trivial _).mpr ⟨document, hbytes, by decide +kernel, rfl⟩

end BsonWriter
