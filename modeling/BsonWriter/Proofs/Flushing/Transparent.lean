import BsonWriter.Proofs.Flushing.Recut
import BsonWriter.Proofs.Flushing.Watermark
import BsonWriter.Proofs.Run.Refusal
import BsonWriter.Proofs.Streaming.Runs

/-!
Flushes that nobody notices. Where nothing that has been written is still to be filled, a
flush may come in between: the steps before and after it report the same and leave the same
bytes, whether in the sink or here (`flush_transparent`). With streaming that is so whenever
no field name waits for its value; without it, no container and no scope may be open.
-/

namespace BsonWriter

open BsonWriter.Action

/-- A running session that leaves nothing behind to be filled: no field name waits for its
value, and unless it streams, it is outside of all containers and scopes. -/
def Progress.Flushable (p : Progress) : Prop :=
  p.writer.phase = .running ∧ p.writer.slot = none ∧
    (p.writer.options.streaming = true ∨ p.writer.depth = 0 ∧ p.scopes = [])

instance (p : Progress) : Decidable p.Flushable := by
  unfold Progress.Flushable
  infer_instance

/-- From a point on, the second steps are the first with flushes in between, wherever the
session is flushable. -/
inductive Step.Interspersed : Progress → List Step → List Step → Prop
  | nil (p : Progress) : Interspersed p [] []
  | cons {p : Progress} {steps flushed : List Step} (step : Step) :
    Interspersed (step.apply p) steps flushed → Interspersed p (step :: steps) (step :: flushed)
  | flush {p : Progress} {steps flushed : List Step} : p.Flushable →
    Interspersed p steps flushed → Interspersed p steps (.flush :: flushed)

/-- A step that is followed by others is followed by them among flushes. -/
theorem Step.Interspersed.split {p : Progress} {steps flushed : List Step}
    (h : Interspersed p steps flushed) {earlier later : List Step} {step : Step}
    (hs : steps = earlier ++ step :: later) : ∃ earlier' later',
      flushed = earlier' ++ step :: later' ∧ Interspersed p earlier earlier' ∧
        Interspersed (step.apply (run p earlier)) later later' := by
  induction h generalizing earlier with
  | nil p => simp at hs
  | @cons p steps flushed first hrest ih =>
    cases earlier with
    | nil =>
      obtain ⟨rfl, rfl⟩ := List.cons.inj hs
      exact ⟨[], flushed, rfl, .nil p, hrest⟩
    | cons first' earlier =>
      obtain ⟨rfl, htail⟩ := List.cons.inj hs
      obtain ⟨earlier', later', rfl, hearlier, hlater⟩ := ih htail
      exact ⟨first :: earlier', later', rfl, .cons first hearlier, hlater⟩
  | @flush p steps flushed hp _ ih =>
    obtain ⟨earlier', later', rfl, hearlier, hlater⟩ := ih hs
    exact ⟨.flush :: earlier', later', rfl, .flush hp hearlier, hlater⟩

/-- Two sessions under way that differ in what has left, with the same scopes. -/
structure Progress.Recut (lost : Prop) (before : Bytes) (p q : Progress) : Prop where
  recut : BsonWriter.Recut lost before (p.scopes.map ScopeMark.start) p.writer q.writer
  scopes : q.scopes = p.scopes

namespace Progress.Recut

variable {lost gone : Prop} {before : Bytes} {p q : Progress} {steps flushed : List Step}

theorem start {sink : Sink} (ht : sink.TakesAll) (options : Options) (storage : Bytes) :
    Recut False sink.held ⟨Writer.onStorage sink options storage, []⟩
      ⟨Writer.onStorage sink options storage, []⟩ := by
  have hshows : Shows sink.held sink {} [] := ⟨[], (List.append_nil _).symm, rfl, rfl⟩
  constructor
  · exact ⟨rfl, ht, ht, rfl, fun _ _ _ => Iff.rfl, fun _ _ _ _ => Iff.rfl,
      fun _ => ⟨[], hshows, hshows⟩⟩
  · rfl

theorem depth (h : Recut lost before p q) : q.writer.depth = p.writer.depth := by
  rw [h.recut.same]
  rfl

/-- An action that begins no scope reports the same in both. -/
theorem of_coupled {a : Action Unit} {w v : Writer} {scopes : List ScopeMark}
    (ha : Coupled a w v (fun _ => BsonWriter.Recut lost before (scopes.map ScopeMark.start))
      (BsonWriter.Recut lost before (scopes.map ScopeMark.start))) :
    a.result v = a.result w ∧ Recut lost before ⟨a.after w, scopes⟩ ⟨a.after v, scopes⟩ := by
  obtain ⟨hresult, hrecut⟩ := ha.result not_false
  exact ⟨hresult, hrecut, rfl⟩

/-- A step reports the same in both sessions. -/
theorem apply (h : Recut lost before p q) (step : Step)
    (hg : gone ↔ lost ∨ step = .close ∧ p.writer.phase = .failed) :
    step.result q = step.result p ∧ Recut gone before (step.apply p) (step.apply q) := by
  have hsame := h.scopes
  have hr := h.recut
  obtain ⟨v, scopes⟩ := q
  obtain ⟨w, scopes⟩ := p
  subst hsame
  have hstay : step ≠ .close →
      BsonWriter.Recut gone before (scopes.map ScopeMark.start) w v := fun hs =>
    hr.of_iff (by simp [hg, hs])
  have hfailed : ∀ {fields fewer}, fewer ⊆ fields → BsonWriter.Recut gone before fields w v →
      Coupled (modify Writer.fail) w v (fun _ => BsonWriter.Recut gone before fewer)
        (BsonWriter.Recut gone before fewer) :=
    fun hf hv => paired_modify (hv.mono hf).fail
  cases step with
  | name text => exact of_coupled (coupled_fieldName (hstay nofun) text)
  | checkArray => exact of_coupled (coupled_checkArray (hstay nofun))
  | write activity value =>
    apply of_coupled
    exact coupled_andThen ((coupled_takePosition (hstay nofun) _ _).mono
      (fun _ _ _ hw => coupled_writeTo hw.1 hw.2 value) fun _ _ hw => hw)
  | begin kind activity shape =>
    apply of_coupled
    exact coupled_andThen ((coupled_takePosition (hstay nofun) _ _).mono
      (fun _ _ _ hw => coupled_openAt hw.1 hw.2 shape) fun _ _ hw => hw)
  | finish shape => exact of_coupled (coupled_endContainer (hstay nofun) shape)
  | drop activity =>
    apply of_coupled
    exact coupled_andThen ((coupled_takePosition (hstay nofun) _ _).mono
      (fun _ _ _ hw => paired_modify hw.1.fail) fun _ _ hw => hw)
  | fail => exact of_coupled (hfailed (List.Subset.refl _) (hstay nofun))
  | flush => exact of_coupled (coupled_flush (hstay nofun))
  | close => exact of_coupled (coupled_close hr (by simp [hg]))
  | setEscapes table =>
    have hv := hstay nofun
    obtain ⟨sink, buffer, rfl⟩ := hv.exists_output
    have hspelled := hv.restructure w.expectations w.containers w.slot table w.phase id hv.waiting
      (List.Subset.refl _)
    have hset : Coupled (setEscapes table) w (w.recut sink buffer)
        (fun _ => BsonWriter.Recut gone before (scopes.map ScopeMark.start))
        (BsonWriter.Recut gone before (scopes.map ScopeMark.start)) := paired_modify hspelled
    exact of_coupled hset
  | failScope =>
    have hfewer : scopes.tail.map ScopeMark.start ⊆ scopes.map ScopeMark.start := by
      rw [List.map_tail]
      exact fun _ => List.mem_of_mem_tail
    exact ⟨rfl, (of_coupled (hfailed hfewer (hstay nofun))).2⟩
  | endScope =>
    cases scopes with
    | nil => exact ⟨rfl, hstay nofun, rfl⟩
    | cons mark rest => exact of_coupled (coupled_endScope (hstay nofun))
  | beginScope activity code =>
    have hopen : Coupled (Step.openScope activity code) w v
        (fun mark => BsonWriter.Recut gone before (mark.start :: scopes.map ScopeMark.start))
        (BsonWriter.Recut gone before (scopes.map ScopeMark.start)) :=
      coupled_andThen ((coupled_takePosition (hstay nofun) _ _).mono
        (fun _ _ _ hw => coupled_openScopeAt hw.1 hw.2 code) fun _ _ hw => hw)
    obtain ⟨hresult, hrelated⟩ := hopen.related not_false
    rw [Step.apply_beginScope, Step.apply_beginScope, Step.result, Step.result, hresult]
    refine ⟨rfl, ?_⟩
    cases hm : (Step.openScope activity code).result w with
    | error e =>
      rw [hm] at hrelated
      exact ⟨hrelated, rfl⟩
    | ok mark =>
      rw [hm] at hrelated
      exact ⟨hrelated, rfl⟩

/-- A flush of the second alone goes well and leaves the two as they are to each other. -/
theorem flush (h : Recut lost before p q) (hp : p.Flushable) :
    Step.flush.result q = .ok () ∧ Recut lost before p (Step.flush.apply q) := by
  obtain ⟨hr, hslot, hclear⟩ := hp
  have hphase : q.writer.phase = .running := h.recut.phase.trans hr
  obtain ⟨sink, hall, hok, hheld⟩ := Sink.handOver_of_takesAll h.recut.takes' q.writer.buffer.held
  have hrun : Action.flush.run q.writer = .ok ()
      { q.writer with sink := sink.flush.2, buffer := q.writer.buffer.drained } := by
    rw [run_eq_ok_iff, Action.flush]
    simp [hphase, hok, hall.flushes]
  constructor
  · exact result_of_ok hrun
  · constructor
    · rw [show (Step.flush.apply q).writer = _ from after_of_ok hrun]
      apply h.recut.flushed (Sink.takesAll_flush hall) hheld hslot
      intro hs
      rcases hclear with hstreaming | ⟨hdepth, hscopes⟩
      · rw [hs] at hstreaming
        cases hstreaming
      · rw [hscopes]
        exact ⟨rfl, List.length_eq_zero_iff.mp hdepth⟩
    · exact h.scopes

/-- So does a run, with flushes in between. -/
theorem run (h : Recut lost before p q) (hi : Step.Interspersed p steps flushed) :
    Recut (lost ∨ Step.GivesUp p steps) before (Step.run p steps) (Step.run q flushed) := by
  induction hi generalizing q lost with
  | nil p =>
    have hlost : (lost ∨ Step.GivesUp p []) = lost := propext (or_iff_left id)
    rw [hlost]
    exact h
  | cons step _ ih =>
    have hnext := ih (h.apply step Iff.rfl).2
    rwa [or_assoc] at hnext
  | flush hp _ ih => exact ih (h.flush hp).2

end Progress.Recut

/-- Once a failed session has been closed, it is closed for good. -/
theorem Step.phase_of_givesUp {p : Progress} {steps : List Step} (h : GivesUp p steps) :
    (run p steps).writer.phase = .closed := by
  induction steps generalizing p with
  | nil => exact h.elim
  | cons step steps ih =>
    rcases h with ⟨rfl, hp⟩ | h
    · have hclosed : (close.apply p).writer.phase = .closed := by rw [close_of_failed hp]
      obtain ⟨escapes, hw⟩ := writer_run_of_closed hclosed steps
      rw [run, hw]
      exact hclosed
    · exact ih h

theorem Step.givesUp_concat {p : Progress} {steps : List Step} {step : Step} :
    GivesUp p (steps ++ [step]) ↔
      GivesUp p steps ∨ step = .close ∧ (run p steps).writer.phase = .failed := by
  induction steps generalizing p with
  | nil => simp [GivesUp, run]
  | cons first steps ih =>
    rw [List.cons_append, GivesUp, GivesUp, ih, run, or_assoc]

/-- If no scope has its document ended from inside, a session that runs and keeps its output
is outside of all scopes as soon as it is outside of all containers. -/
theorem Progress.scopes_eq_nil {sink : Sink} {options : Options} {storage : Bytes}
    {steps : List Step} (hs : options.streaming = false)
    (hk : Step.Throughout Step.SparesScope ⟨Writer.onStorage sink options storage, []⟩ steps)
    (hr : (Step.run ⟨Writer.onStorage sink options storage, []⟩ steps).writer.phase = .running)
    (hd : (Step.run ⟨Writer.onStorage sink options storage, []⟩ steps).writer.depth = 0) :
    (Step.run ⟨Writer.onStorage sink options storage, []⟩ steps).scopes = [] := by
  have hbracketed := (Ledger.agrees_run sink hs storage hk hr).scopes
  rw [List.length_eq_zero_iff.mp hd] at hbracketed
  generalize (Step.run ⟨Writer.onStorage sink options storage, []⟩ steps).scopes = scopes
    at hbracketed
  cases hbracketed
  rfl

/-- Flushes that come where the session is flushable change nothing for anyone who makes
steps over a sink that takes everything. They go well, every step behind them reports the
same, at the same depth, and until a failed session is closed, what is in the sink and what is
here make up the same bytes; after a closing that goes well the sink holds the same. Without
streaming the session is flushable outside of all containers, unless a scope has had its
document ended from inside, so that the length of its value is still to be filled. -/
theorem flush_transparent {sink : Sink} (ht : sink.TakesAll) (options : Options) (storage : Bytes)
    {steps flushed : List Step}
    (h : Step.Interspersed ⟨Writer.onStorage sink options storage, []⟩ steps flushed) :
    let start : Progress := ⟨Writer.onStorage sink options storage, []⟩
    let p := Step.run start steps
    let q := Step.run start flushed
    (∀ step : Step, step.result q = step.result p ∧
      (step.apply q).writer.depth = (step.apply p).writer.depth ∧
      (¬Step.GivesUp start (steps ++ [step]) →
        (step.apply q).writer.sink.held ++ (step.apply q).writer.buffered =
          (step.apply p).writer.sink.held ++ (step.apply p).writer.buffered) ∧
      (step = .close → p.writer.phase = .running → step.result p = .ok () →
        (step.apply q).writer.sink.held = (step.apply p).writer.sink.held)) ∧
    (p.Flushable → Step.flush.result q = .ok ()) ∧
    (options.streaming = false → Step.Throughout Step.SparesScope start steps →
      p.writer.phase = .running → p.writer.depth = 0 → p.scopes = []) ∧
    -- so every step of the whole runs, one by one
    ∀ earlier step later, steps = earlier ++ step :: later → ∃ earlier' later',
      flushed = earlier' ++ step :: later' ∧ Step.Interspersed start earlier earlier' ∧
        Step.Interspersed (step.apply (Step.run start earlier)) later later' := by
  intro start p q
  have hstart : Progress.Recut False sink.held start start := .start ht options storage
  have hbefore := hstart.run h
  refine ⟨fun step => ?_, fun hp => (hbefore.flush hp).1,
    fun hs hk hr hd => Progress.scopes_eq_nil hs hk hr hd, fun _ _ _ hs => h.split hs⟩
  obtain ⟨hresult, hafter⟩ := hbefore.apply step Iff.rfl
  refine ⟨hresult, hafter.depth, fun hg => ?_, ?_⟩
  · apply hafter.recut.held_append
    rw [or_assoc, false_or, ← Step.givesUp_concat]
    exact hg
  · rintro rfl hr hok
    have hnot : ¬((False ∨ Step.GivesUp start steps) ∨
        Step.close = .close ∧ p.writer.phase = .failed) := by
      rintro ((hf | hg) | ⟨-, hp⟩)
      · exact hf
      · rw [show p.writer.phase = .closed from Step.phase_of_givesUp hg] at hr
        cases hr
      · rw [hr] at hp
        cases hp
    have hbytes := hafter.recut.held_append hnot
    have hclosed : (Step.close.apply p).writer.phase = .closed := by
      apply phase_of_close (w := p.writer)
      apply run_of_not_failed
      rintro ⟨e, he⟩
      have hclose : Action.close.result p.writer = .ok () := hok
      rw [hclose] at he
      cases he
    have hopen : p.writer.phase ≠ .closed := by simp [hr]
    have hopen' : q.writer.phase ≠ .closed := by
      rw [hbefore.recut.phase]
      exact hopen
    rw [Step.buffered_close hopen hclosed,
      Step.buffered_close hopen' (hafter.recut.phase.trans hclosed)] at hbytes
    simpa using hbytes

/-- A session that streams is flushed in an open document and in the scope of code: the end of
the scope goes well as it would have done, and the bytes are the same. -/
theorem flush_transparent_scope :
    let start : Progress := ⟨Writer.onStorage {} { streaming := true } [], []⟩
    let steps : List Step := [.begin .container .startObject .document, .name "f",
      .beginScope .javaScript "c"]
    let flushed : List Step := [.begin .container .startObject .document, .flush, .name "f",
      .beginScope .javaScript "c", .flush]
    Step.endScope.result (Step.run start flushed) = .ok () ∧
      (Step.endScope.apply (Step.run start flushed)).writer.sink.held ++
          (Step.endScope.apply (Step.run start flushed)).writer.buffered =
        (Step.endScope.apply (Step.run start steps)).writer.sink.held ++
          (Step.endScope.apply (Step.run start steps)).writer.buffered := by
  intro start steps flushed
  have htakes : Sink.TakesAll {} := ⟨rfl, by decide, rfl⟩
  have hflushed : Step.Interspersed start steps flushed :=
    .cons _ (.flush (by decide +kernel) (.cons _ (.cons _ (.flush (by decide +kernel) (.nil _)))))
  have hkept : ¬Step.GivesUp start (steps ++ [.endScope]) := by decide +kernel
  obtain ⟨hresult, -, hbytes, -⟩ :=
    (flush_transparent htakes { streaming := true } [] hflushed).1 .endScope
  constructor
  · rw [hresult]
    decide +kernel
  · simp only [start]
    exact hbytes hkept

/-- Where a scope has had its own document and the one around it ended from inside, no
container is open, and still a flush makes the end of the scope fail. -/
theorem flush_in_ended_scope :
    let start : Progress := ⟨Writer.onStorage {} {} [], []⟩
    let p := Step.run start [.begin .container .startObject .document, .name "f",
      .beginScope .javaScript "c", .finish .document, .finish .document]
    let reopened : List Step := [.begin .container .startObject .document, .name "x",
      .begin .container .startObject .document]
    p.writer.depth = 0 ∧ Step.endScope.result (Step.run p reopened) = .ok () ∧
      Step.endScope.result (Step.run (Step.flush.apply p) reopened) =
        .error ⟨.alreadyFlushed 7, none⟩ := by
  decide +kernel

end BsonWriter
