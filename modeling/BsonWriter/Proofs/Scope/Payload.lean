import BsonWriter.Proofs.Run.Consistent
import BsonWriter.Proofs.Run.Inversion
import BsonWriter.Proofs.Run.Script
import BsonWriter.Proofs.Scope.Watch

/-!
When code with a scope is one exact value. The end of a scope only compares how
deep the session is. That is less than the scope document still being open: whoever
writes the scope may end it and begin another document at the same depth, and then
the total length covers both. `codeWithScope_exact_iff` is the exact condition.
-/

namespace BsonWriter

open BsonWriter.Action

/-- One value of code with its scope, from its total length on: the code, and one
document that ends where the total does. -/
def ScopePayload (table : Option EscapeTable) (code : String) (bs : Bytes) : Prop :=
  ∃ text content, writtenText table code = some text ∧
    bs = lengthField (4 + (prefixed text).length + (enclosed content).length) ++
      (prefixed text ++ enclosed content) ∧
    bs.length < lengthBound

namespace Action

/-! ## Where a value goes -/

/-- What a type byte that is taken leaves alone. -/
def Framed (headers : List Nat) (options : Options) (w : Writer) : Prop :=
  w.containers.map Container.header = headers ∧ w.options = options

variable {headers : List Nat} {options : Options}

theorem Framed.fail {w : Writer} (h : Framed headers options w) : Framed headers options w.fail :=
  ⟨by rw [w.containers_fail]; exact h.1, by rw [w.options_fail]; exact h.2⟩

theorem framed_takePosition (kind : ValueKind) (activity : Activity) :
    Keeps (Framed headers options) (takePosition kind activity) := by
  intro w h
  refine yields_takePosition (fun _ => h.fail) (fun _ _ _ _ => h) ?_
  intro expectations index containers bs hr ha hn
  have hv : Framed headers options { w with
      expectations, containers, buffer := w.buffer.append (0 :: bs) } :=
    ⟨by rw [← h.1]; exact Container.header_nextElement hn, h.2⟩
  exact ⟨hv, fun _ => hv.fail⟩

theorem framed_fieldName (name : String) : Keeps (Framed headers options) (fieldName name) := by
  intro w h
  refine yields_fieldName (fun _ => h.fail) fun expectations bs _ _ => ⟨h, fun _ => ?_⟩
  exact @Framed.fail _ _ { w with expectations, buffer := w.buffer.append (0 :: bs) } h

theorem framed_take (place : Place) (kind : ValueKind) (activity : Activity) :
    Keeps (Framed headers options) (take place kind activity) :=
  Keeps.take framed_takePosition framed_fieldName
    (fun _ h => yields_checkArray (fun _ => h.fail) h) place kind activity

end Action

/-! ## The scope document -/

namespace Opening

variable {o : Opening} {w w' : Writer} {mark : ScopeMark}

/-- When the scope has begun, its document is the innermost container. -/
theorem exists_of_openScopeAt {v : Writer} {code : String} {slot : Option Nat}
    (hv : Settled v) (hs : v.options.streaming = false)
    (h : (openScopeAt code slot).run v = .ok mark w) :
    ∃ o : Opening, writtenText v.escapes code = some o.text ∧ o.start = v.buffer.size ∧
      o.outer = v.containers ∧ mark = ⟨o.start, v.containers.length + 1⟩ ∧
      w.containers = ⟨o.header, none⟩ :: o.outer ∧ o.Watched [] w := by
  obtain ⟨start, text, b, -, hp, ht, rfl, rfl⟩ := openScopeAt_eq_ok h
  have hb := Buffer.size_of_patch hp
  have hlen := hv.consistent.aligned.length_eq
  let o : Opening := ⟨b.size, text, v.containers, by rw [hb]; exact hv.consistent.written⟩
  have hheader : (b.append (lengthField 0 ++ prefixed text)).size = o.header := by
    rw [Buffer.size_append]
    exact o.start_add_length_code
  refine ⟨o, ht, hb, rfl, by rw [hlen], ?_, hs, fun _ _ => ⟨?_, ?_, by simp⟩⟩
  · rw [← hheader]
    rfl
  · refine .inside [] ?_ (by rw [Writer.opened, hheader]; rfl) (by simp)
    rw [Writer.opened, Buffer.append_append]
    exact Buffer.holds_append_self b _
  · intro start hstart
    have hslot := hv.slotless
    rw [show v.slot = some start from hstart] at hslot
    cases hslot

/-- As long as the scope document is open, no length has been filled in. -/
theorem Stage.holds_of_mem {b : Buffer} {containers : List Container}
    (h : o.Stage b containers) (hm : ⟨o.header, none⟩ ∈ containers) :
    b.Holds o.start (o.front 0) := by
  cases h with
  | inside inner holds => exact holds
  | ended length holds bounds past beside =>
    have hbeside := beside _ hm
    simp only [header] at hbeside
    omega

/-- What the end of a scope reaches only if the front of the value is here. -/
theorem Watched.present_of_patch (h : o.Watched [] w) (hr : w.phase = .running) {b c : Buffer}
    {offset : Nat} {bs new : Bytes} (hb : (w.buffer.append [endOfDocument]).patch offset bs = .ok b)
    (hc : b.patch o.start new = .ok c) : o.Present [] w := by
  refine h.present hr ?_
  have hg := (Buffer.patch_eq_ok_iff.mp hc).1
  rwa [Buffer.gone_of_patch hb, Buffer.gone_append] at hg

/-- If the scope document is the innermost container again, its end makes the value
exact. -/
theorem since_of_containers (hw : o.Watched [] w)
    (hc : w.containers = ⟨o.header, none⟩ :: o.outer) {depth : Nat}
    (h : (endScope ⟨o.start, depth⟩).run w = .ok () w') :
    w'.buffer.gone ≤ o.start ∧ w'.containers = o.outer ∧ ∃ content,
      w'.buffer.since o.start =
        lengthField (4 + (prefixed o.text).length + (enclosed content).length) ++
          (prefixed o.text ++ enclosed content) ∧
      (w'.buffer.since o.start).length < lengthBound := by
  obtain ⟨rest, container, containers, b, c, hr, he, hd, -, hl, hb, hcp, -⟩ :=
    endScope_eq_ok hw.keeps h
  have hp := hw.present_of_patch hr hb hcp
  have hholds := hp.stage.holds_of_mem (by rw [hc]; exact List.mem_cons_self)
  obtain ⟨front, hgone, hsize, hbuffer⟩ := hholds.eq_append
  generalize w.buffer.since (o.start + (o.front 0).length) = content at hbuffer
  have htotal : 4 + (prefixed o.text).length + (enclosed content).length =
      w.buffer.size + 1 - o.start := by
    rw [hbuffer, Buffer.size_append, hsize, List.length_append, Opening.front, length_enclosed]
    simp only [List.length_append, length_lengthField]
    omega
  have hend := @run_endScope w front o.text content o.start depth rest ⟨o.header, none⟩ o.outer hr
    hw.keeps he hd hc hsize.symm (by rw [hsize]; rfl) (by rw [hbuffer]; simp [Opening.front])
    (by rw [htotal]; exact hl)
  rw [hend] at h
  cases h
  refine ⟨hsize ▸ front.gone_le_size, rfl, content, ?_, ?_⟩
  · rw [← hsize]
    exact Buffer.since_append_self front _
  · rw [← hsize, Buffer.since_append_self, List.length_append, List.length_append,
      length_lengthField, ← Nat.add_assoc, htotal]
    exact hl

/-- Once the scope document has been ended, its length field stays as it is. -/
theorem holds_length_of_ended {length : Nat} {container : Container} {b c : Buffer}
    (holds : w.buffer.Holds o.start (o.front length))
    (hbeside : container.header + 4 ≤ o.start ∨ o.header + length ≤ container.header)
    (hlength : 4 ≤ length) {m n : Nat}
    (hb : (w.buffer.append [endOfDocument]).patch container.header (lengthField m) = .ok b)
    (hc : b.patch o.start (lengthField n) = .ok c) : c.Holds o.header (lengthField length) := by
  have hfield := (Buffer.Holds.append_iff.mp holds).2
  rw [o.start_add_length_code] at hfield
  refine ((hfield.append [endOfDocument]).patch hb ?_).patch hc ?_
  · simp only [length_lengthField, header] at hbeside ⊢
    omega
  · simp only [length_lengthField, header]
    omega

/-- In an exact value the length field says that the document ends with the value. -/
theorem holds_length_of_since {c : Buffer} {total : Nat} {content : Bytes}
    (hg : c.gone ≤ o.start) (hs : o.start ≤ c.size)
    (hsince : c.since o.start = lengthField total ++ (prefixed o.text ++ enclosed content)) :
    c.Holds o.header (lengthField (content.length + 5)) := by
  have hvalue := Buffer.holds_since hg hs
  rw [hsince, Buffer.Holds.append_iff, Buffer.Holds.append_iff] at hvalue
  have hdocument := hvalue.2.2
  rw [enclosed, List.append_assoc, Buffer.Holds.append_iff, length_lengthField] at hdocument
  exact hdocument.1

/-- If the value is exact, the scope document was the innermost container. -/
theorem containers_of_since (hw : o.Watched [] w) (hcons : w.Consistent)
    (h : (endScope ⟨o.start, o.outer.length + 1⟩).run w = .ok () w') {content : Bytes}
    (hlt : (w'.buffer.since o.start).length < lengthBound)
    (hsince : w'.buffer.since o.start =
      lengthField (4 + (prefixed o.text).length + (enclosed content).length) ++
        (prefixed o.text ++ enclosed content)) :
    w.containers = ⟨o.header, none⟩ :: o.outer := by
  obtain ⟨rest, container, containers, b, c, hr, he, hd, hcs, hl, hb, hcp, rfl⟩ :=
    endScope_eq_ok hw.keeps h
  have hp := hw.present_of_patch hr hb hcp
  cases hp.stage with
  | inside inner holds nested within =>
    have hlen := hcons.aligned.length_eq
    rw [he, nested, List.length_append, List.length_cons, List.length_cons] at hlen
    have hinner : inner = [] := List.eq_nil_of_length_eq_zero (by simp only at hd; omega)
    rw [nested, hinner]
    rfl
  | ended length holds bounds past beside =>
    have hsize : c.size = w.buffer.size + 1 := by
      rw [Buffer.size_of_patch hcp, Buffer.size_of_patch hb, Buffer.size_append]
      rfl
    have hstart : o.start ≤ c.size := by
      have hbody := hp.stage.body_le_size
      simp only [body, header] at hbody
      omega
    have hg : c.gone ≤ o.start := by
      rw [Buffer.gone_of_patch hcp]
      exact (Buffer.patch_eq_ok_iff.mp hcp).1
    -- The field still says where the document ended, which is before the last byte.
    have hbeside := beside container (by rw [hcs]; exact List.mem_cons_self)
    have hended := holds_length_of_ended holds hbeside (by omega) hb hcp
    have hexact := holds_length_of_since hg hstart hsince
    have hcount := Buffer.length_since hg
    rw [hsince] at hcount hlt
    simp only [List.length_append, length_lengthField, length_enclosed] at hcount hlt
    have heq := hended.unique hexact (by simp)
    have hlength := littleEndian_inj (by simp only [lengthBound] at bounds; omega)
      (by simp only [lengthBound] at hlt; omega) heq
    simp only [header] at past
    omega

end Opening

/-! ## The whole call -/

/-- The parts of a call that goes well: it takes its type byte, begins the scope,
lets the scope be written and ends it. -/
theorem Action.codeWithScope_eq_ok {w w' : Writer} {place : Place} {code : String}
    {scope : Action Unit} (h : (codeWithScope place code scope).run w = .ok () w') :
    ∃ slot v mark begun u, (take place .scalar .javaScript).run w = .ok slot v ∧
      (openScopeAt code slot).run v = .ok mark begun ∧ scope.run begun = .ok () u ∧
      (endScope mark).run u = .ok () w' := by
  rw [codeWithScope_eq] at h
  obtain ⟨slot, v, htake, h⟩ := run_andThen_eq_ok h
  obtain ⟨mark, begun, hopen, h⟩ := run_andThen_eq_ok h
  obtain ⟨x, u, hscope, hend⟩ := run_andThen_eq_ok h
  exact ⟨slot, v, mark, begun, u, htake, hopen, tracked_eq_ok hscope, hend⟩

theorem Action.run_beginScope_eq {w v begun : Writer} {place : Place} {code : String}
    {slot : Option Nat} {mark : ScopeMark}
    (ht : (take place .scalar .javaScript).run w = .ok slot v)
    (ho : (openScopeAt code slot).run v = .ok mark begun) :
    (beginScope place code).run w = .ok mark begun := by
  rw [show beginScope place code = take place .scalar .javaScript >>= openScopeAt code from rfl,
    run_andThen, ht]
  exact ho

/-- What a call writes that takes its type byte from `w` to `v` and ends in `w'`:
one exact value, in the containers that were open before. -/
structure WroteScope (code : String) (w v w' : Writer) : Prop where
  here : w'.buffer.gone ≤ v.buffer.size
  payload : ScopePayload v.escapes code (w'.buffer.since v.buffer.size)
  enclosing : w'.containers.map Container.header = w.containers.map Container.header

/-- A call that goes well writes one exact value if and only if the writer of the
scope has left the open containers as it found them. -/
theorem codeWithScope_exact_iff {w w' : Writer} {place : Place} {code : String}
    {scope : Action Unit} (hw : w.Reachable) (hs : w.options.streaming = false)
    (hscope : scope.Issues) (h : (codeWithScope place code scope).run w = .ok () w') :
    WroteScope code w ((take place .scalar .javaScript).after w) w' ↔
      (scope.after ((beginScope place code).after w)).containers =
        ((beginScope place code).after w).containers := by
  obtain ⟨slot, v, mark, begun, u, htake, hopen, hwrite, hend⟩ := codeWithScope_eq_ok h
  rw [after_of_ok htake, after_of_ok (run_beginScope_eq htake hopen), after_of_ok hwrite]
  have hv : Settled v := (settled_take hw.consistent place .scalar .javaScript).of_ok htake
  have hframed : Framed (w.containers.map Container.header) w.options v :=
    (framed_take place .scalar .javaScript w ⟨rfl, rfl⟩).of_ok htake
  obtain ⟨o, htext, hstart, houter, rfl, hbegun, hwatched⟩ :=
    Opening.exists_of_openScopeAt hv (hframed.2 ▸ hs) hopen
  have hbc : begun.Consistent := (consistent_openScopeAt code slot hv).of_ok hopen
  obtain ⟨steps, hsteps⟩ := hscope begun []
  rw [after_of_ok hwrite] at hsteps
  have huw := @Opening.watched_run o ⟨begun, []⟩ hwatched steps
  have huc := @Step.consistent_run ⟨begun, []⟩ hbc steps
  rw [hsteps] at huw huc
  rw [← houter] at hend
  rw [hbegun]
  constructor
  · rintro ⟨-, ⟨text, content, ht, hsince, hlt⟩, -⟩
    rw [← hstart] at hsince hlt
    obtain rfl : o.text = text := Option.some.inj (htext.symm.trans ht)
    exact Opening.containers_of_since huw huc hend hlt hsince
  · intro hc
    obtain ⟨hg, hcontainers, content, hsince, hlt⟩ := Opening.since_of_containers huw hc hend
    refine ⟨hstart ▸ hg, ?_, ?_⟩
    · rw [← hstart]
      exact ⟨o.text, content, htext, hsince, hlt⟩
    · rw [hcontainers, houter, hframed.1]

/-- A session in a document after a field name. -/
def afterName : Writer :=
  (Step.run ⟨{}, []⟩ [.begin .container .startObject .document, .name "f"]).writer

/-- Ends the scope document and begins another document in the next field. -/
def reopening : Action Unit := Call.scopeAction false
  [.endContainer .document, .fieldName "x", .beginContainer .direct .document]

theorem codeWithScope_reopening :
    ∃ w', (codeWithScope .direct "c" reopening).run afterName = .ok () w' ∧
      ¬WroteScope "c" afterName ((take .direct .scalar .javaScript).after afterName) w' := by
  have hr : afterName.Reachable :=
    ⟨{}, {}, [], [.begin .container .startObject .document, .name "f"], [], rfl⟩
  have hok : (match (codeWithScope .direct "c" reopening).run afterName with
    | .ok _ _ => true
    | .error _ _ => false) = true := by decide +kernel
  cases hrun : (codeWithScope .direct "c" reopening).run afterName with
  | error e w' => simp [hrun] at hok
  | ok x w' =>
    refine ⟨w', rfl, ?_⟩
    rw [codeWithScope_exact_iff hr rfl (Call.scope_issues false _) hrun]
    decide +kernel

end BsonWriter
