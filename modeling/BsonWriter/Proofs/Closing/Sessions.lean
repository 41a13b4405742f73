import BsonWriter.Proofs.Closing.Writing
import BsonWriter.Proofs.Run.Failure

/-!
What the sink has when a session is closed that keeps its output. Closing ends the open
containers. At the top that leaves finished documents, but in a scope it ends the
document of the scope and not the value around it, whose total length nobody fills any
more: `close_delivers_finished_documents` has both.
-/

namespace BsonWriter

open BsonWriter.Action
open WireValue (content encodings readDocuments ReadableFields)

namespace Draft

variable {d : Draft} {w w' : Writer}

/-! ## Closing -/

/-- All containers are ended. -/
theorem Describes.endAll {tail : Bytes} {containers : List Container} (h : d.Describes tail w)
    (hl : containers.length = d.frames.length)
    (hrun : (containers.forM fun c => Action.endContainer c.shape).run w = .ok () w') :
    (d.around []).Describes (Draft.ended d.frames tail) w' ∧
      (d.frames ≠ [] → Nested d.frames → (Draft.ended d.frames tail).length < lengthBound) := by
  induction containers generalizing d tail w with
  | nil =>
    have hf : d.frames = [] := List.eq_nil_of_length_eq_zero hl.symm
    have haround : d.around [] = d := by rw [around, ← hf]
    cases hrun
    rw [hf, haround]
    exact ⟨h, fun hne => absurd rfl hne⟩
  | cons c containers ih =>
    obtain ⟨f, outer, hf⟩ := List.exists_cons_of_length_eq_add_one hl.symm
    rw [hf, List.length_cons, List.length_cons] at hl
    obtain ⟨u, v, hend, hrest⟩ := run_andThen_eq_ok hrun
    obtain ⟨hended, hlt, -, -⟩ := h.ended hf hend
    obtain ⟨hdescribes, hbound⟩ := ih hended (Nat.succ.inj hl) hrest
    rw [hf, Draft.ended]
    refine ⟨hdescribes, fun _ hn => ?_⟩
    by_cases ho : outer = []
    · have hroot : f.IsRoot := hn.1.mpr ho
      cases f with
      | root shape fields =>
        rw [ho]
        exact hlt
      | nested | scope => exact hroot.elim
    · exact hbound ho hn.2

theorem Stands.exists_describes (h : d.Stands w) : ∃ tail, d.Describes tail w := by
  rcases h with h | ⟨key, -, h⟩
  · exact ⟨_, h.toDescribes⟩
  · exact ⟨_, h.toDescribes⟩

/-- A session with no open container is between two values. -/
theorem Stands.rests_of_nil (h : d.Stands w) (hc : w.containers = []) : d.Rests w := by
  rcases h with h | ⟨key, -, h⟩
  · exact h
  · obtain ⟨rest, he, -⟩ := h.expects
    rw [Draft.expectations, h.frames_eq_nil hc] at he
    cases he

/-- What the ends of all containers add to what has been written. -/
theorem Rests.length_ended (h : d.Rests w) :
    d.gone + (encodings d.done ++ ended d.frames []).length =
      w.buffer.size + w.containers.length := by
  rw [h.length_containers, h.buffer, Buffer.append_nil]
  simp only [Draft.buffer, Buffer.size, List.length_append, Draft.length_ended, List.length_nil]
  omega

/-- A session that is closed hands over what is finished and what becomes of the rest. -/
theorem Stands.close (h : d.Stands w) (hd : d.Valid) (hrun : close.run w = .ok () w') :
    d.Rests w ∧ w'.phase = .closed ∧
      w'.sink.held = d.delivered ++ (encodings d.done ++ ended d.frames []) ∧
      (d.frames ≠ [] → (ended d.frames []).length < lengthBound) := by
  obtain ⟨tail, hstands⟩ := h.exists_describes
  rw [Action.run_close hstands.running] at hrun
  obtain ⟨u, v, hend, hrun⟩ := run_andThen_eq_ok hrun
  obtain ⟨u', v', hflush, hrun⟩ := run_andThen_eq_ok hrun
  rw [Action.endAll, if_pos hstands.closes] at hend
  have hrests : d.Rests w := by
    cases hc : w.containers with
    | nil => exact h.rests_of_nil hc
    | cons c containers =>
      rw [hc] at hend
      obtain ⟨x, y, hfirst, -⟩ := run_andThen_eq_ok hend
      obtain ⟨rest, -, -, -, -, he, -⟩ := endContainer_eq_ok hstands.keeps hfirst
      exact h.rests_of_end he
  obtain ⟨hdescribes, hbound⟩ := hrests.endAll hrests.length_containers hend
  obtain ⟨sink, hheld, rfl⟩ := flushSink_eq_ok (tracked_eq_ok hflush)
  cases hrun
  refine ⟨hrests, rfl, ?_, fun hf => hbound hf hd.nested⟩
  show sink.held = _
  rw [hheld, hdescribes.sink, hdescribes.buffer]
  simp only [around, Draft.buffer, layout, Buffer.append, List.append_nil]

/-- Without scopes what becomes of the draft is finished documents. -/
theorem Valid.exists_documents (h : d.Valid) (hm : marks d.base d.frames = [])
    (hl : d.frames ≠ [] → (ended d.frames []).length < lengthBound) : ∃ documents,
      encodings d.done ++ ended d.frames [] = encodings documents ∧ Finished documents := by
  by_cases hf : d.frames = []
  · exact ⟨d.done, by rw [hf, ended, List.append_nil], h.finished⟩
  · obtain ⟨document, he, hr⟩ := @exists_document _ _ hf h.nested hm h.readable [] trivial
    rw [content] at he
    have hlt := hl hf
    rw [he] at hlt
    refine ⟨d.done ++ [document], ?_, h.finished.append (finished_singleton hr hlt)⟩
    rw [he, WireValue.encodings_append]
    simp [encodings]

/-- Since it held `before`, the sink has received finished documents. -/
def Delivers (d : Draft) (before : Bytes) : Prop :=
  ∃ sunk, Finished sunk ∧ d.delivered = before ++ encodings sunk ∧
    d.gone = (encodings sunk).length

theorem Delivers.congr {before : Bytes} (h : d.Delivers before) {d' : Draft}
    (hd : d'.delivered = d.delivered) (hg : d'.gone = d.gone) : d'.Delivers before := by
  rw [Delivers, hd, hg]
  exact h

/-- A flush with no open container delivers what is finished. -/
theorem Rests.flush {before : Bytes} (h : d.Rests w) (hd : d.Delivers before) (hv : d.Valid)
    (hf : d.frames = []) (hrun : Action.flush.run w = .ok () w') :
    ∃ d' : Draft, d'.frames = [] ∧ d'.Rests w' ∧ d'.Valid ∧ d'.Delivers before := by
  obtain ⟨sink, hheld, rfl⟩ := flushSink_eq_ok (flush_eq_ok hrun)
  obtain ⟨sunk, hsunk, hdelivered, hgone⟩ := hd
  have hbuffer : w.buffer = ⟨d.gone, encodings d.done, d.keeps, d.spare⟩ := by
    rw [h.buffer, Buffer.append_nil, Draft.buffer, hf, layout, List.append_nil]
  let d' : Draft := ⟨d.delivered ++ encodings d.done, d.gone + (encodings d.done).length,
    w.buffer.drained.keeps, w.buffer.drained.spare, [], []⟩
  refine ⟨d', rfl, ⟨⟨h.keeps, h.closes, h.running, ?_, ?_, ?_⟩, ?_, h.slotless⟩, ?_,
    sunk ++ d.done, hsunk.append hv.finished, ?_, ?_⟩
  · rw [hheld, h.sink, hbuffer]
  · simp only [d', hbuffer]
    rfl
  · have hheaders := h.headers
    rwa [hf] at hheaders
  · have hexpects := h.expects
    rwa [Draft.expectations, hf] at hexpects
  · exact ⟨trivial, by simp [d'], by simp [d', Finished]⟩
  · rw [WireValue.encodings_append, ← List.append_assoc, ← hdelivered]
  · rw [WireValue.encodings_append, List.length_append, ← hgone]

/-- The escape table is no part of the draft. -/
theorem Stands.withEscapes (h : d.Stands w) (escapes : Option EscapeTable) :
    d.Stands { w with escapes } := by
  rcases h with h | ⟨key, hk, h⟩
  · exact .inl ⟨⟨h.keeps, h.closes, h.running, h.sink, h.buffer, h.headers⟩, h.expects, h.slotless⟩
  · exact .inr ⟨key, hk, ⟨h.keeps, h.closes, h.running, h.sink, h.buffer, h.headers⟩, h.expects,
      h.slot⟩

end Draft

/-! ## Steps -/

namespace Step

/-- A step that keeps to what the closing relies on: no range of binary data is clipped,
nothing is flushed while a container is open, and the writer of a scope does not end the
document of the scope. -/
def InOrder (p : Progress) : Step → Prop
  | write _ value => value.Unclipped
  | finish _ => ∀ mark ∈ p.scopes.head?, mark.depth < p.writer.expectations.length
  | flush => p.writer.containers = []
  | _ => True

/-- Every step goes well and is in order. -/
def Orderly (p : Progress) : List Step → Prop
  | [] => True
  | step :: steps => ¬step.Fails p ∧ step.InOrder p ∧ Orderly (step.apply p) steps

instance (p : Progress) : (step : Step) → Decidable (step.InOrder p)
  | write _ value => inferInstanceAs (Decidable value.Unclipped)
  | finish _ => inferInstanceAs (Decidable
      (∀ mark ∈ p.scopes.head?, mark.depth < p.writer.expectations.length))
  | flush => inferInstanceAs (Decidable (p.writer.containers = []))
  | name _ | checkArray | begin .. | drop _ | beginScope .. | endScope | failScope | fail
  | close | setEscapes _ => isTrue trivial

instance decidableOrderly : (p : Progress) → (steps : List Step) → Decidable (Orderly p steps)
  | _, [] => isTrue trivial
  | p, step :: steps =>
    have := decidableOrderly (step.apply p) steps
    inferInstanceAs (Decidable (¬step.Fails p ∧ step.InOrder p ∧ Orderly (step.apply p) steps))

end Step

/-- The session has delivered finished documents since its sink held `before`, and writes
the draft. -/
structure Progress.Drafts (before : Bytes) (p : Progress) (d : Draft) : Prop where
  stands : d.Stands p.writer
  valid : d.Valid
  delivers : d.Delivers before
  scopes : p.scopes = Draft.marks d.base d.frames

namespace Progress.Drafts

variable {before : Bytes} {p : Progress} {d : Draft} {w' : Writer}

theorem start (sink : Sink) {options : Options} (hs : options.streaming = false)
    (ha : options.autoClose = true) (storage : Bytes) :
    Drafts sink.held ⟨Writer.onStorage sink options storage, []⟩
      ⟨sink.held, 0, options.keepsStorage, storage.length, [], []⟩ := by
  refine ⟨.inl ⟨⟨hs, ha, rfl, rfl, rfl, rfl⟩, rfl, rfl⟩, ?_, ?_, rfl⟩
  · exact ⟨trivial, by simp, by simp [Draft.Finished]⟩
  · exact ⟨[], by simp [Draft.Finished], (List.append_nil _).symm, rfl⟩

theorem write (h : Drafts before p d) (hc : p.writer.Consistent) {activity : Activity}
    {value : Scalar} (hu : value.Unclipped)
    (hrun : (takePosition .scalar activity >>= writeTo value).run p.writer = .ok () w') :
    ∃ d', Drafts before ⟨w', p.scopes⟩ d' := by
  obtain ⟨slot, u, htake, hwrite⟩ := run_andThen_eq_ok hrun
  obtain ⟨key, v, hk, hv, hf, hrests⟩ :=
    Draft.rests_writeTo (h.stands.positioned hc htake) hu hwrite
  refine ⟨d.put key v, .inl hrests, h.valid.put hf key v hk hv, ?_, ?_⟩
  · exact h.delivers.congr (Draft.delivered_put key v) (Draft.gone_put key v)
  · exact h.scopes.trans (Draft.marks_base_put hf key v).symm

theorem begin (h : Drafts before p d) (hc : p.writer.Consistent) {kind : ValueKind}
    {activity : Activity} {shape : Shape}
    (hrun : (takePosition kind activity >>= openAt shape).run p.writer = .ok () w') :
    ∃ d', Drafts before ⟨w', p.scopes⟩ d' := by
  obtain ⟨slot, u, htake, hopen⟩ := run_andThen_eq_ok hrun
  obtain ⟨f, hmarks, hvalid, hrests⟩ :=
    Draft.rests_openAt (h.stands.positioned hc htake) h.valid hopen
  exact ⟨d.push f, .inl hrests, hvalid, h.delivers, h.scopes.trans hmarks.symm⟩

theorem beginScope (h : Drafts before p d) (hc : p.writer.Consistent) {activity : Activity}
    {code : String} {mark : ScopeMark}
    (hrun : (Step.openScope activity code).run p.writer = .ok mark w') :
    ∃ d', Drafts before ⟨w', mark :: p.scopes⟩ d' := by
  obtain ⟨slot, u, htake, hopen⟩ := run_andThen_eq_ok hrun
  obtain ⟨f, hmarks, hvalid, hrests⟩ :=
    Draft.rests_openScopeAt (h.stands.positioned hc htake) h.valid hopen
  refine ⟨d.push f, .inl hrests, hvalid, h.delivers, ?_⟩
  rw [h.scopes]
  exact hmarks.symm

theorem finish (h : Drafts before p d) {shape : Shape}
    (ho : ∀ mark ∈ p.scopes.head?, mark.depth < p.writer.expectations.length)
    (hrun : (endContainer shape).run p.writer = .ok () w') :
    ∃ d', Drafts before ⟨w', p.scopes⟩ d' := by
  obtain ⟨tail, hstands⟩ := h.stands.exists_describes
  obtain ⟨rest, -, -, -, -, he, -⟩ := endContainer_eq_ok hstands.keeps hrun
  rw [h.scopes] at ho
  obtain ⟨hmarks, hvalid, hrests⟩ := (h.stands.rests_of_end he).endContainer h.valid ho hrun
  refine ⟨d.finish, .inl hrests, hvalid, ?_, h.scopes.trans hmarks.symm⟩
  exact h.delivers.congr Draft.delivered_finish Draft.gone_finish

theorem endScope (h : Drafts before p d) {mark : ScopeMark} {scopes : List ScopeMark}
    (hs : p.scopes = mark :: scopes) (hrun : (Action.endScope mark).run p.writer = .ok () w') :
    ∃ d', Drafts before ⟨w', scopes⟩ d' := by
  obtain ⟨tail, hstands⟩ := h.stands.exists_describes
  obtain ⟨rest, -, -, -, -, -, he, -⟩ := endScope_eq_ok hstands.keeps hrun
  have hrests := @Draft.Stands.rests_of_end d p.writer .document rest h.stands he
  obtain ⟨hmarks, hvalid, hrests⟩ := hrests.endScope h.valid (h.scopes.symm.trans hs) hrun
  refine ⟨d.finish, .inl hrests, hvalid, ?_, hmarks.symm⟩
  exact h.delivers.congr Draft.delivered_finish Draft.gone_finish

theorem flush (h : Drafts before p d) (hc : p.writer.containers = [])
    (hrun : Action.flush.run p.writer = .ok () w') : ∃ d', Drafts before ⟨w', p.scopes⟩ d' := by
  have hrests := h.stands.rests_of_nil hc
  have hf := hrests.frames_eq_nil hc
  obtain ⟨d', hf', hrests', hvalid, hdelivers⟩ := hrests.flush h.delivers h.valid hf hrun
  refine ⟨d', .inl hrests', hvalid, hdelivers, ?_⟩
  rw [h.scopes, hf, hf']
  rfl

/-- A step before the closing that goes well and is in order. -/
theorem apply (h : Drafts before p d) (hc : p.writer.Consistent) {step : Step}
    (hclose : step ≠ .close) (hf : ¬step.Fails p) (ho : step.InOrder p) :
    ∃ d', Drafts before (step.apply p) d' := by
  cases step with
  | close => exact absurd rfl hclose
  | drop | fail | failScope => exact absurd trivial hf
  | name text =>
    obtain ⟨key, hk, hwaits⟩ := h.stands.waits (run_of_not_failed hf)
    exact ⟨d, .inr ⟨key, hk, hwaits⟩, h.valid, h.delivers, h.scopes⟩
  | checkArray =>
    have hsame : (checkArray.after p.writer) = p.writer := by
      refine (@yields_checkArray p.writer (fun _ w => w = p.writer) (fun _ _ => True)
        (fun _ => trivial) rfl).of_ok (run_of_not_failed hf)
    refine ⟨d, ?_, h.valid, h.delivers, h.scopes⟩
    show d.Stands (checkArray.after p.writer)
    rw [hsame]
    exact h.stands
  | write activity value => exact h.write hc ho (run_of_not_failed hf)
  | begin kind activity shape => exact h.begin hc (run_of_not_failed hf)
  | finish shape => exact h.finish ho (run_of_not_failed hf)
  | flush => exact h.flush ho (run_of_not_failed hf)
  | setEscapes table =>
    exact ⟨d, h.stands.withEscapes table, h.valid, h.delivers, h.scopes⟩
  | beginScope activity code =>
    cases hr : (Step.openScope activity code).run p.writer with
    | ok mark w' =>
      simp only [Step.apply, hr]
      exact h.beginScope hc hr
    | error e w' =>
      refine absurd ⟨e, ?_⟩ hf
      rw [Step.result, result_of_error hr]
      rfl
  | endScope =>
    unfold Step.apply
    cases hs : p.scopes with
    | nil => exact ⟨d, h⟩
    | cons mark rest =>
      have hok : ¬∃ e, (Action.endScope mark).result p.writer = .error e := by
        rintro ⟨e, he⟩
        refine hf ⟨e, ?_⟩
        rw [Step.result, hs]
        exact he
      exact h.endScope hs (run_of_not_failed hok)

theorem run (h : Drafts before p d) (hc : p.writer.Consistent) {steps : List Step}
    (hclose : .close ∉ steps) (ho : Step.Orderly p steps) :
    ∃ d', Drafts before (Step.run p steps) d' := by
  induction steps generalizing p d with
  | nil => exact ⟨d, h⟩
  | cons step steps ih =>
    rw [List.mem_cons, not_or] at hclose
    obtain ⟨hf, hin, ho⟩ := ho
    obtain ⟨d', h'⟩ := h.apply hc (Ne.symm hclose.1) hf hin
    exact ih h' (Step.consistent_apply hc step) hclose.2 ho

end Progress.Drafts

/-- A session that keeps its output and ends what is open when it is closed, and any
steps before the closing that go well and are in order. If the closing goes well, the
sink has everything that has been written, and one more byte for every container that was
open. Outside of all scopes that is finished documents, which are read back to the last
byte: every length in them is exact. In a scope it has zero where the total length of the
value belongs, for this scope and for all around it. Nothing that comes later changes
what the sink has. -/
theorem close_delivers_finished_documents (sink : Sink) (options : Options) (storage : Bytes)
    (hs : options.streaming = false) (ha : options.autoClose = true) (steps rest : List Step)
    (ho : Step.Orderly ⟨Writer.onStorage sink options storage, []⟩ steps)
    (hn : .close ∉ steps) :
    let p := Step.run ⟨Writer.onStorage sink options storage, []⟩ steps
    let q := Step.run p (.close :: rest)
    ¬Step.Fails p .close →
      q.writer.sink.held.length =
        sink.held.length + (p.writer.buffer.size + p.writer.containers.length) ∧
      (p.scopes = [] → ∃ documents, q.writer.sink.held = sink.held ++ encodings documents ∧
        readDocuments (encodings documents) = some documents) ∧
      ∀ mark ∈ p.scopes,
        (q.writer.sink.held.drop (sink.held.length + mark.start)).take 4 = lengthField 0 := by
  intro p q hclose
  have hconsistent := Writer.consistent_onStorage sink options storage
  obtain ⟨d, hd⟩ := (Progress.Drafts.start sink hs ha storage).run hconsistent hn ho
  obtain ⟨sunk, hsunk, hdelivered, hgone⟩ := hd.delivers
  obtain ⟨hrests, hphase, hheld, hbound⟩ := hd.stands.close hd.valid (run_of_not_failed hclose)
  have hq : q.writer.sink.held =
      sink.held ++ encodings sunk ++ (encodings d.done ++ Draft.ended d.frames []) := by
    rw [← hdelivered, ← hheld]
    exact congrArg Sink.held (Step.run_of_closed (p := Step.close.apply p) hphase rest).1
  refine ⟨?_, fun hscopes => ?_, fun mark hm => ?_⟩
  · rw [hq, ← hrests.length_ended, hgone, List.length_append, List.length_append]
    omega
  · obtain ⟨documents, he, hf⟩ := hd.valid.exists_documents (hd.scopes.symm.trans hscopes) hbound
    have hall : Draft.Finished (sunk ++ documents) := hsunk.append hf
    refine ⟨sunk ++ documents, ?_, ?_⟩
    · rw [hq, he, List.append_assoc, WireValue.encodings_append]
    · exact WireValue.readDocuments_encodings (fun document hm => (hall document hm).1)
        fun document hm => (hall document hm).2
  · obtain ⟨hle, hzero⟩ := Draft.total_ended (hd.scopes ▸ hm) []
    have hsplit : sink.held.length + mark.start =
        (sink.held ++ encodings sunk ++ encodings d.done).length + (mark.start - d.base) := by
      simp only [Draft.base, hgone, List.length_append] at hle ⊢
      omega
    rw [hq, ← List.append_assoc, hsplit, List.drop_length_add_append]
    exact hzero

/-- A document and an array in it are open. -/
def arrayOpen : List Step :=
  [.begin .container .startObject .document, .name "a", .begin .container .startArray .array]

/-- A document is open, and the scope of code in it. -/
def scopeOpen : List Step :=
  [.begin .container .startObject .document, .name "f", .beginScope .javaScript "c"]

/-- Closed in the array, the session has delivered a document. Closed in the scope, it has
delivered one in which the total length of the code and its scope, at offset 7, is zero. -/
theorem close_delivers_finished_documents_scope :
    (∃ documents, (Step.run (Step.run ⟨Writer.onStorage {} {} [], []⟩ arrayOpen)
        [.close]).writer.sink.held = encodings documents ∧
      readDocuments (encodings documents) = some documents) ∧
    (Step.run (Step.run ⟨Writer.onStorage {} {} [], []⟩ scopeOpen) [.close]).writer.sink.held =
      [23, 0, 0, 0, 15, 102, 0, 0, 0, 0, 0, 2, 0, 0, 0, 99, 0, 5, 0, 0, 0, 0, 0] ∧
    ((Step.run (Step.run ⟨Writer.onStorage {} {} [], []⟩ scopeOpen)
      [.close]).writer.sink.held.drop 7).take 4 = lengthField 0 := by
  obtain ⟨documents, hheld, hread⟩ := (close_delivers_finished_documents {} {} [] rfl rfl
    arrayOpen [] (by decide +kernel) (by decide) (by decide +kernel)).2.1 (by decide +kernel)
  rw [List.nil_append] at hheld
  have htorn := (close_delivers_finished_documents {} {} [] rfl rfl scopeOpen []
    (by decide +kernel) (by decide) (by decide +kernel)).2.2 ⟨7, 2⟩ (by decide +kernel)
  exact ⟨⟨documents, hheld, hread⟩, by decide +kernel, htorn⟩

end BsonWriter
