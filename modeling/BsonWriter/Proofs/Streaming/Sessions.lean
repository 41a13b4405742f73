import BsonWriter.Proofs.Streaming.Runs

/-!
Streaming changes the length fields and nothing else. Two sessions of which only one
streams, over sinks that take everything, report the same at every step that is no
flush and write the same bytes, except that the length fields of the one that streams
stay zero (`streaming_differs_in_length_fields`). A caller who acts on what is
reported therefore makes the same steps in both.
-/

namespace BsonWriter

open BsonWriter.Action

/-- The same steps lead two sessions to two states, and no flush is among them. -/
def Step.Together (p₀ q₀ p q : Progress) : Prop :=
  ∃ steps, .flush ∉ steps ∧ run p₀ steps = p ∧ run q₀ steps = q

/-- Two reports agree on everything but the output: on the result, the depth and the
reports of the scope, and the same steps lead to the states they report. -/
inductive Report.Alike (p₀ q₀ : Progress) : Report → Report → Prop
  | intro {r s : Report} (result : s.result = r.result) (depth : s.after.depth = r.after.depth)
      (together : ∃ scopes, Step.Together p₀ q₀ ⟨r.after, scopes⟩ ⟨s.after, scopes⟩)
      (inner : List.Forall₂ (Alike p₀ q₀) r.inner s.inner) : Alike p₀ q₀ r s

section Twins

open Progress (Twins)

variable {lost : Prop} {before before' : Bytes} {fields : List Nat} {p q : Progress}

theorem Progress.Twins.depth (h : Twins lost before before' fields p q) :
    q.writer.depth = p.writer.depth := by
  rw [h.twin.same]
  rfl

theorem Progress.Twins.start {sink sink' : Sink} (hs : sink.TakesAll) (hs' : sink'.TakesAll)
    (options : Options) (storage : Bytes) : Twins False sink.held sink'.held []
      ⟨Writer.onStorage sink { options with streaming := false } storage, []⟩
      ⟨Writer.onStorage sink' { options with streaming := true } storage, []⟩ := by
  have hshows : ∀ sink : Sink, Shows sink.held sink {} [] := fun sink =>
    ⟨[], (List.append_nil _).symm, rfl, rfl⟩
  refine ⟨⟨rfl, rfl, hs, hs', rfl, nofun, nofun, fun _ => rfl, nofun, fun _ => ?_, False.elim⟩,
    rfl, nofun, Writer.consistent_onStorage sink _ storage⟩
  exact ⟨[], [], hshows sink, hshows sink', ⟨rfl, fun _ _ => rfl⟩, nofun⟩

/-- A script makes the same steps in both sessions and has the same result. -/
theorem Script.run_twins {α : Type} {t : Script α} (ht : t.Spares False)
    (h : Twins lost before before' fields p q)
    (hb : (t.run p).2.writer.buffer.size < lengthBound) :
    (t.run q).1 = (t.run p).1 ∧ t.steps q = t.steps p := by
  induction t generalizing p q lost fields with
  | stop result => exact ⟨rfl, rfl⟩
  | make step next ih =>
    have hsize : (step.apply p).writer.buffer.size < lengthBound := by
      have hle := Step.size_le_run (step.apply p) ((next (step.result p)).steps (step.apply p))
      rw [← Script.progress_run] at hle
      exact Nat.lt_of_le_of_lt hle hb
    obtain ⟨hresult, htwins⟩ := h.apply ht.1 Iff.rfl hsize
    obtain ⟨hrun, hsteps⟩ := ih (step.result p) (ht.2 _) htwins hb
    simp only [Script.run, Script.steps, hresult]
    exact ⟨hrun, congrArg (step :: ·) hsteps⟩

end Twins

namespace Step.Together

open Progress (Twins)

variable {before before' : Bytes} {p₀ q₀ p q : Progress}

theorem refl (p q : Progress) : Together p q p q := ⟨[], nofun, rfl, rfl⟩

theorem twins (h : Together p₀ q₀ p q) (hstart : Twins False before before' [] p₀ q₀)
    (hb : p.writer.buffer.size < lengthBound) :
    ∃ lost fields, Twins lost before before' fields p q := by
  obtain ⟨steps, hf, rfl, rfl⟩ := h
  exact ⟨_, _, hstart.run hf hb⟩

/-- A script goes on from two such states with the same steps. -/
theorem script {α : Type} (h : Together p₀ q₀ p q) (hstart : Twins False before before' [] p₀ q₀)
    {t : Script α} (ht : t.Spares False)
    (hb : (t.run p).2.writer.buffer.size < lengthBound) :
    (t.run q).1 = (t.run p).1 ∧ Together p₀ q₀ (t.run p).2 (t.run q).2 := by
  have hle := Step.size_le_run p (t.steps p)
  rw [← t.progress_run] at hle
  obtain ⟨lost, fields, htwins⟩ := h.twins hstart (Nat.lt_of_le_of_lt hle hb)
  obtain ⟨hresult, hsteps⟩ := Script.run_twins ht htwins hb
  refine ⟨hresult, ?_⟩
  obtain ⟨steps, hf, rfl, rfl⟩ := h
  refine ⟨steps ++ t.steps (run p₀ steps), fun hm => ?_, ?_, ?_⟩
  · rcases List.mem_append.mp hm with hm | hm
    · exact hf hm
    · exact ht.steps _ hm
  · rw [run_append, t.progress_run]
  · rw [run_append, t.progress_run, hsteps]

theorem scripted {α : Type} {w v : Writer} {scopes : List ScopeMark}
    (h : Together p₀ q₀ ⟨w, scopes⟩ ⟨v, scopes⟩)
    (hstart : Twins False before before' [] p₀ q₀) {a : Action α} (ha : a.Scripted False)
    (hb : (a.after w).buffer.size < lengthBound) : a.result v = a.result w ∧
      Together p₀ q₀ ⟨a.after w, scopes⟩ ⟨a.after v, scopes⟩ := by
  obtain ⟨t, hs, ht⟩ := ha
  have hscript := h.script hstart hs (by rw [ht]; exact hb)
  rwa [ht, ht] at hscript

theorem depth {w v : Writer} {scopes : List ScopeMark}
    (h : Together p₀ q₀ ⟨w, scopes⟩ ⟨v, scopes⟩)
    (hstart : Twins False before before' [] p₀ q₀) (hb : w.buffer.size < lengthBound) :
    v.depth = w.depth := by
  obtain ⟨lost, fields, htwins⟩ := h.twins hstart hb
  exact htwins.depth

/-- A scope begins in both sessions with the same mark, or in neither. -/
theorem beginScope {w v : Writer} {scopes : List ScopeMark}
    (h : Together p₀ q₀ ⟨w, scopes⟩ ⟨v, scopes⟩)
    (hstart : Twins False before before' [] p₀ q₀) (place : Place) (code : String)
    (hb : ((Action.beginScope place code).after w).buffer.size < lengthBound) :
    match (Action.beginScope place code).run w with
    | .ok mark w' => ∃ v', (Action.beginScope place code).run v = .ok mark v' ∧
        Together p₀ q₀ ⟨w', mark :: scopes⟩ ⟨v', mark :: scopes⟩
    | .error e w' => ∃ v', (Action.beginScope place code).run v = .error e v' ∧
        Together p₀ q₀ ⟨w', scopes⟩ ⟨v', scopes⟩ := by
  obtain ⟨t, hts, ht⟩ := @exists_script_beginScope False place code
  have hscript := h.script hstart hts
  rw [ht, ht] at hscript
  unfold Action.after at hb
  cases hr : (Action.beginScope place code).run w with
  | error e w' =>
    rw [hr] at hscript hb
    obtain ⟨hresult, htogether⟩ := hscript hb
    cases hs : (Action.beginScope place code).run v with
    | error f v' =>
      rw [hs] at hresult htogether
      obtain rfl := Except.error.inj hresult
      exact ⟨v', rfl, htogether⟩
    | ok mark v' =>
      rw [hs] at hresult
      cases hresult
  | ok mark w' =>
    rw [hr] at hscript hb
    obtain ⟨hresult, htogether⟩ := hscript hb
    cases hs : (Action.beginScope place code).run v with
    | error f v' =>
      rw [hs] at hresult
      cases hresult
    | ok other v' =>
      rw [hs] at htogether
      obtain ⟨lost, fields, htwins⟩ := htogether.twins hstart hb
      obtain rfl := (List.cons.inj htwins.scopes).1
      exact ⟨v', rfl, htogether⟩

end Step.Together

namespace Call

open Progress (Twins)
open Step (Together)

variable {before before' : Bytes} {p₀ q₀ : Progress} {w v : Writer} {scopes : List ScopeMark}

/-- The report of a call with no calls inside. -/
theorem alike_plain (hstart : Twins False before before' [] p₀ q₀)
    (h : Together p₀ q₀ ⟨w, scopes⟩ ⟨v, scopes⟩) {a : Action Unit} (ha : a.Scripted False)
    (hb : (a.after w).buffer.size < lengthBound) :
    Report.Alike p₀ q₀ (.ofAction a w []) (.ofAction a v []) := by
  obtain ⟨hresult, htogether⟩ := h.scripted hstart ha hb
  rw [Report.ofAction_eq, Report.ofAction_eq]
  exact .intro hresult (htogether.depth hstart hb) ⟨scopes, htogether⟩ .nil

theorem size_le_lastState_runScope (forgiving : Bool) (w : Writer) (calls : List Call) :
    w.buffer.size ≤ (Report.lastState w (runScope forgiving w calls)).buffer.size := by
  rw [lastState_runScope]
  have hle := (scope_issues forgiving calls).reaches w (Nat.le_refl w.buffer.size)
  exact hle.after

theorem size_le_finishScope (mark : ScopeMark) (result : Except Error Unit) (w : Writer) :
    w.buffer.size ≤ ((finishScope mark result).after w).buffer.size := by
  have hle := Step.size_le_run ⟨w, [mark]⟩ ((afterScope result).steps ⟨w, [mark]⟩)
  rw [← Script.progress_run, run_afterScope] at hle
  exact hle

mutual

/-- A call that does not flush reports the same in both sessions. -/
theorem alike_run (hstart : Twins False before before' [] p₀ q₀) :
    (call : Call) → call.Flushless → ∀ {w v : Writer} {scopes : List ScopeMark},
      Together p₀ q₀ ⟨w, scopes⟩ ⟨v, scopes⟩ →
      (call.run w).after.buffer.size < lengthBound →
      Report.Alike p₀ q₀ (call.run w) (call.run v)
  | codeWithCalls place code forgiving calls, hf, w, v, scopes, h, hb => by
    have hbegin := h.beginScope hstart place code
    unfold Action.after at hbegin
    rw [run] at hb ⊢
    rw [run]
    cases hr : (Action.beginScope place code).run w with
    | error e w' =>
      rw [hr] at hbegin hb
      obtain ⟨v', hs, htogether⟩ := hbegin hb
      rw [hs]
      exact .intro rfl (htogether.depth hstart hb) ⟨scopes, htogether⟩ .nil
    | ok mark w' =>
      simp only [hr, Report.ofAction_eq] at hbegin hb ⊢
      generalize hresult : Report.scopeResult forgiving (runScope forgiving w' calls) = result at *
      have hlast : (Report.lastState w' (runScope forgiving w' calls)).buffer.size < lengthBound :=
        Nat.lt_of_le_of_lt (size_le_finishScope mark result _) hb
      have hw' : w'.buffer.size < lengthBound :=
        Nat.lt_of_le_of_lt (size_le_lastState_runScope forgiving w' calls) hlast
      obtain ⟨v', hs, htogether⟩ := hbegin hw'
      have hinner := alike_runScope hstart forgiving calls hf htogether hlast
      have hscope := htogether.scripted hstart (@scope_scripted False forgiving calls fun _ => hf)
      rw [← lastState_runScope, ← lastState_runScope, ← result_runScope, ← result_runScope]
        at hscope
      obtain ⟨hsame, hjoin⟩ := hscope hlast
      rw [hs]
      dsimp only
      rw [hsame, hresult]
      have hfinish := hjoin.script hstart (@spares_afterScope False result)
      rw [run_afterScope, run_afterScope] at hfinish
      obtain ⟨hsame', hend⟩ := hfinish hb
      exact .intro hsame' (hend.depth hstart hb) ⟨scopes, hend⟩ hinner
  | beginContainer .., hf, w, v, scopes, h, hb | endContainer .., hf, w, v, scopes, h, hb
  | fieldName .., hf, w, v, scopes, h, hb | write .., hf, w, v, scopes, h, hb
  | abandon .., hf, w, v, scopes, h, hb | serialize .., hf, w, v, scopes, h, hb
  | close, hf, w, v, scopes, h, hb | setEscapes .., hf, w, v, scopes, h, hb
  | inspect, hf, w, v, scopes, h, hb | codeWithDatum .., hf, w, v, scopes, h, hb => by
    have ha := @scripted False _ fun _ => hf
    rw [after_run] at hb
    simp only [run]
    exact alike_plain hstart h ha hb

theorem alike_runScope (hstart : Twins False before before' [] p₀ q₀) (forgiving : Bool) :
    (calls : List Call) → AllFlushless calls → ∀ {w v : Writer} {scopes : List ScopeMark},
      Together p₀ q₀ ⟨w, scopes⟩ ⟨v, scopes⟩ →
      (Report.lastState w (runScope forgiving w calls)).buffer.size < lengthBound →
      List.Forall₂ (Report.Alike p₀ q₀) (runScope forgiving w calls) (runScope forgiving v calls)
  | [], _, _, _, _, _, _ => .nil
  | call :: rest, hf, w, v, scopes, h, hb => by
    rw [runScope, Report.lastState] at hb
    rw [runScope, runScope]
    have hcall : (call.run w).after.buffer.size < lengthBound := by
      refine Nat.lt_of_le_of_lt ?_ hb
      split
      · exact Nat.le_refl _
      · exact size_le_lastState_runScope forgiving _ rest
    have hsteps := h.scripted hstart (@scripted False call fun _ => hf.1)
    rw [← after_run, ← after_run, ← result_run, ← result_run] at hsteps
    obtain ⟨hresult, htogether⟩ := hsteps hcall
    have hfailed : (call.run v).failed = (call.run w).failed := by
      rw [Report.failed, Report.failed, hresult]
    refine .cons (alike_run hstart call hf.1 h hcall) ?_
    rw [hfailed]
    split
    · exact .nil
    · rename_i hstop
      rw [if_neg hstop] at hb
      exact alike_runScope hstart forgiving rest hf.2 htogether hb

end

theorem size_le_lastState_runAll (w : Writer) (calls : List Call) :
    w.buffer.size ≤ (Report.lastState w (runAll w calls)).buffer.size := by
  induction calls generalizing w with
  | nil => exact Nat.le_refl _
  | cons call rest ih =>
    have hle := call.issues.reaches w (Nat.le_refl w.buffer.size)
    have hafter := hle.after
    rw [← after_run] at hafter
    exact Nat.le_trans hafter (ih _)

/-- So do calls one after another. -/
theorem alike_runAll (hstart : Twins False before before' [] p₀ q₀) {calls : List Call}
    (hf : AllFlushless calls) (h : Together p₀ q₀ ⟨w, scopes⟩ ⟨v, scopes⟩)
    (hb : (Report.lastState w (runAll w calls)).buffer.size < lengthBound) :
    List.Forall₂ (Report.Alike p₀ q₀) (runAll w calls) (runAll v calls) := by
  induction calls generalizing w v with
  | nil => exact .nil
  | cons call rest ih =>
    have hcall := Nat.lt_of_le_of_lt (size_le_lastState_runAll (call.run w).after rest) hb
    have hsteps := h.scripted hstart (@scripted False call fun _ => hf.1)
    rw [← after_run, ← after_run] at hsteps
    exact .cons (alike_run hstart call hf.1 h hcall) (ih hf.2 (hsteps hcall).2 hb)

end Call

/-- Two sessions that differ in streaming only, over sinks that take everything, and
any steps without a flush whose output stays below the bound of a length field. At
every step both report the same and are equally deep. Unless a failed session has been
closed, they have written the same bytes outside of the length fields, which are zero
in the session that streams; what its sink has received of them is zero for good. That
session holds nothing back after a scalar or the end of a container. Whoever makes
calls makes the same steps in both sessions, also inside of scopes. -/
theorem streaming_differs_in_length_fields {sink sink' : Sink} (hs : sink.TakesAll)
    (hs' : sink'.TakesAll) (options : Options) (storage : Bytes) :
    let kept : Progress :=
      ⟨Writer.onStorage sink { options with streaming := false } storage, []⟩
    let streamed : Progress :=
      ⟨Writer.onStorage sink' { options with streaming := true } storage, []⟩
    (∀ steps step, .flush ∉ steps ++ [step] →
      let p := Step.run kept (steps ++ [step])
      let q := Step.run streamed (steps ++ [step])
      let fields := Step.lengthFields kept (steps ++ [step])
      p.writer.buffer.size < lengthBound →
        step.result (Step.run streamed steps) = step.result (Step.run kept steps) ∧
        q.writer.depth = p.writer.depth ∧
        (¬Step.GivesUp kept (steps ++ [step]) →
          Agree fields (p.writer.written sink.held) (q.writer.written sink'.held) ∧
          Blank fields (q.writer.written sink'.held)) ∧
        Unfilled fields sink'.held q.writer.sink q.writer.buffer ∧
        (step.Completes (Step.run kept steps) → step.result (Step.run kept steps) = .ok () →
          q.writer.buffered = [])) ∧
    ∀ calls, Call.AllFlushless calls →
      (Report.lastState kept.writer (Call.runAll kept.writer calls)).buffer.size < lengthBound →
        List.Forall₂ (Report.Alike kept streamed) (Call.runAll kept.writer calls)
          (Call.runAll streamed.writer calls) := by
  intro kept streamed
  have hstart : Progress.Twins False sink.held sink'.held [] kept streamed :=
    Progress.Twins.start hs hs' options storage
  refine ⟨?_, fun calls hf hb => Call.alike_runAll hstart hf (.refl kept streamed) hb⟩
  intro steps step hf p q fields hb
  have hend := hstart.run hf hb
  have hlast : p = step.apply (Step.run kept steps) := Step.run_append kept steps [step]
  have hlast' : q = step.apply (Step.run streamed steps) := Step.run_append streamed steps [step]
  have hb' : (step.apply (Step.run kept steps)).writer.buffer.size < lengthBound := by
    rw [← hlast]
    exact hb
  have hsteps : .flush ∉ steps := fun hm => hf (List.mem_append_left _ hm)
  have hstep : step ≠ .flush := fun he =>
    hf (List.mem_append_right _ (he ▸ List.mem_singleton_self _))
  have hbefore := hstart.run hsteps
    (Nat.lt_of_le_of_lt (Step.size_le_apply (Step.run kept steps) step) hb')
  refine ⟨(hbefore.apply hstep Iff.rfl hb').1, hend.depth, fun hg => ?_, ?_, fun hc hok => ?_⟩
  · obtain ⟨out, out', hshows, hshows', hagree, hblank⟩ := hend.twin.output (by simpa using hg)
    rw [List.append_nil] at hagree hblank
    rw [hshows.written_eq, hshows'.written_eq]
    exact ⟨hagree, hblank⟩
  · have hunfilled := hend.twin.unfilled
    rwa [List.append_nil] at hunfilled
  · rw [hlast']
    exact hbefore.drained hc hok hb'

/-- A document with code and an empty scope has three length fields. -/
theorem streaming_differs_in_length_fields_scope :
    let steps : List Step := [.begin .container .startObject .document, .name "a",
      .beginScope .value "x", .endScope, .finish .document]
    let kept : Progress := ⟨Writer.onStorage {} {} [], []⟩
    let p := Step.run kept steps
    let q := Step.run ⟨Writer.onStorage {} { streaming := true } [], []⟩ steps
    p.writer.written [] = [23, 0, 0, 0, 15, 97, 0, 15, 0, 0, 0, 2, 0, 0, 0, 120, 0,
      5, 0, 0, 0, 0, 0] ∧
    q.writer.written [] = [0, 0, 0, 0, 15, 97, 0, 0, 0, 0, 0, 2, 0, 0, 0, 120, 0,
      0, 0, 0, 0, 0, 0] ∧
    Agree (Step.lengthFields kept steps) (p.writer.written []) (q.writer.written []) ∧
    q.writer.buffered = [] := by
  have htakes : Sink.TakesAll {} := ⟨rfl, by decide, rfl⟩
  have h := (streaming_differs_in_length_fields htakes htakes {} []).1
    [.begin .container .startObject .document, .name "a", .beginScope .value "x", .endScope]
    (.finish .document) (by decide) (by decide +kernel)
  exact ⟨by decide +kernel, by decide +kernel, (h.2.2.1 (by decide +kernel)).1,
    h.2.2.2.2 trivial (by decide +kernel)⟩

end BsonWriter
