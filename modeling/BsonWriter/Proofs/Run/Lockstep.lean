import BsonWriter.Proofs.Run.Causes
import BsonWriter.Proofs.Run.Ledger

/-!
The bookkeeping of a session, as a whole. The expectations, the open containers, the
waiting type byte and the offsets of everything that is still to be filled agree in every
state, whatever has been called and has failed before (`bookkeeping_in_lockstep`).
-/

namespace BsonWriter

/-- The length fields of the scopes have been written. -/
def Writer.Covers (scopes : List ScopeMark) (w : Writer) : Prop :=
  ∀ mark ∈ scopes, mark.start + 4 ≤ w.buffer.size

theorem Writer.robust_covers (scopes : List ScopeMark) : Robust (Covers scopes) where
  grown _ _ h hb mark hm := Nat.le_trans (h mark hm) hb
  delivered _ _ h := h
  flushed _ h := h
  moved _ _ _ _ h := h
  spelled _ _ h := h
  failed w h mark hm := by
    rw [Writer.buffer_fail]
    exact h mark hm

namespace Step

open BsonWriter.Action
open Writer (robust_covers)

/-- The length field of a scope is written when the scope begins. -/
theorem covers_openScope {w : Writer} {scopes : List ScopeMark} (h : w.Covers scopes)
    (activity : Activity) (code : String) : (openScope activity code).Yields w
      (fun mark => Writer.Covers (mark :: scopes)) (fun _ => Writer.Covers scopes) := by
  have hmark : (openScope activity code).Yields w
      (fun mark v => mark.start + 4 ≤ v.buffer.size) (fun _ _ => True) := by
    unfold Yields
    cases hr : (openScope activity code).run w with
    | error e v => trivial
    | ok mark v =>
      obtain ⟨slot, u, -, hopen⟩ := run_andThen_eq_ok hr
      obtain ⟨rfl, v, -, hroom, rfl⟩ := extends_of_openScopeAt hopen
      exact Nat.le_trans hroom (v.buffer.size_le_append _)
  refine (hmark.and ((robust_covers scopes).openScope activity code w h)).mono
    (fun mark v hv => ?_) fun _ _ hv => hv.2
  exact List.forall_mem_cons.mpr hv

theorem covers_apply {p : Progress} (h : p.writer.Covers p.scopes) (step : Step) :
    (step.apply p).writer.Covers (step.apply p).scopes := by
  refine @apply_cases (fun p => p.writer.Covers p.scopes) p step h ?_
    (fun activity code => covers_openScope h activity code) (fun mark rest hs => ?_) ?_
  · exact (robust_covers p.scopes).action step (fun _ _ hw => hw) p.writer h
  · have hrest : p.writer.Covers rest := fun mark hm =>
      h mark (by rw [hs]; exact List.mem_cons_of_mem _ hm)
    exact (robust_covers rest).endScope mark p.writer hrest
  · have htail : p.writer.Covers p.scopes.tail := fun mark hm => h mark (List.mem_of_mem_tail hm)
    exact (robust_covers _).failed p.writer htail

theorem covers_run {p : Progress} (h : p.writer.Covers p.scopes) (steps : List Step) :
    (run p steps).writer.Covers (run p steps).scopes :=
  @run_induction (fun p => p.writer.Covers p.scopes) (fun _ step h => covers_apply h step) p h
    steps

end Step

/-- After any steps, also after failures, in scopes and after the closing: there is one
expectation for each open container, and it is one of an array exactly for an array; the
length fields of the containers follow each other from the outermost inwards, without
overlapping, and all of them have been written, as have those of the scopes, so every
length that is filled in later is the difference of an offset and a smaller one; the
output never gets shorter. While the session runs, a type byte waits exactly where a value
is expected, and the index of every open array is the number of elements that have begun
in it. No step that follows reports a container that was never begun, a patch beyond the
end, or a scalar without a type byte. -/
theorem bookkeeping_in_lockstep (sink : Sink) (options : Options) (storage : Bytes)
    (steps : List Step) :
    let start : Progress := ⟨Writer.onStorage sink options storage, []⟩
    let p := Step.run start steps
    let w := p.writer
    List.Forall₂ Container.Expects w.expectations w.containers ∧
      (w.containers.Pairwise fun inner outer => outer.header + 4 ≤ inner.header) ∧
      (∀ c ∈ w.containers, c.header + 4 ≤ w.buffer.size) ∧
      (∀ mark ∈ p.scopes, mark.start + 4 ≤ w.buffer.size) ∧
      (∀ later, w.buffer.size ≤ (Step.run p later).writer.buffer.size) ∧
      (w.phase = .running →
        (w.slot.isSome = true ↔ ∃ rest, w.expectations = .value :: rest) ∧
        List.Forall₂ Container.Counted w.containers (Ledger.run {} start steps).accounts) ∧
      ∀ (step : Step) e, step.result p = .error e → ¬e.cause.Internal := by
  intro start p w
  have hconsistent : w.Consistent :=
    Step.consistent_run (Writer.consistent_onStorage sink options storage) steps
  have hcovers : w.Covers p.scopes := @Step.covers_run start nofun steps
  exact ⟨hconsistent.aligned, hconsistent.apart, hconsistent.written, hcovers,
    fun later => Step.size_le_run p later,
    fun hr => ⟨hconsistent.waits hr, Ledger.counts_run sink options storage steps hr⟩,
    fun step e he => Step.not_internal hconsistent hcovers he⟩

/-- Two numbers and the beginning of a document in an array: three elements. -/
theorem bookkeeping_in_lockstep_elements :
    let start : Progress := ⟨Writer.onStorage {} {} [], []⟩
    let steps : List Step := [.begin .container .startObject .document, .name "a",
      .begin .container .startArray .array, .write .number (.int32 1), .write .number (.int32 2),
      .begin .container .startObject .document]
    (Step.run start steps).writer.phase = .running ∧
      (Ledger.run {} start steps).accounts.map Account.values = [0, 3, 1] ∧
      List.Forall₂ Container.Counted (Step.run start steps).writer.containers
        (Ledger.run {} start steps).accounts := by
  intro start steps
  have hr : (Step.run start steps).writer.phase = .running := by decide +kernel
  exact ⟨hr, by decide +kernel, ((bookkeeping_in_lockstep {} {} [] steps).2.2.2.2.2.1 hr).2⟩

end BsonWriter
