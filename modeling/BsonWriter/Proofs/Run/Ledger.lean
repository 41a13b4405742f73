import BsonWriter.Proofs.Run.Moves

/-!
A ledger kept beside a session, from the steps alone and from whether they fail. For every
open container it says how many values have begun in it and whether the output has been
flushed since it began, and for the field name that waits for its value whether the output
has been flushed since then. Nothing in the session reads it. What a running session knows
itself is compared with it by `Ledger.run_induction`, one step at a time.
-/

namespace BsonWriter

/-- What has happened since a container began. -/
structure Account where
  values : Nat := 0
  flushed : Bool := false
  deriving DecidableEq, Repr

/-- The accounts of the open containers, innermost first, and whether the last field name
has been flushed. -/
structure Ledger where
  accounts : List Account := []
  nameFlushed : Bool := false
  deriving DecidableEq, Repr

namespace Ledger

/-- A value begins in the innermost container. -/
def value (l : Ledger) : Ledger :=
  { l with accounts := l.accounts.modifyHead fun a => { a with values := a.values + 1 } }

def opened (l : Ledger) : Ledger := { l with accounts := {} :: l.accounts }

def ended (l : Ledger) : Ledger := { l with accounts := l.accounts.tail }

/-- Everything that has been written leaves. -/
def flush (l : Ledger) : Ledger :=
  ⟨l.accounts.map fun a => { a with flushed := true }, true⟩

/-- The ledger after a step that has gone well. Without a scope there is none to end. -/
def done (l : Ledger) (p : Progress) : Step → Ledger
  | .name _ => { l with nameFlushed := false }
  | .write .. => l.value
  | .begin .. | .beginScope .. => l.value.opened
  | .finish _ => l.ended
  | .endScope => if p.scopes = [] then l else l.ended
  | .flush => l.flush
  | .checkArray | .drop _ | .failScope | .fail | .close | .setEscapes _ => l

/-- The ledger after a step. A step that fails leaves it alone. -/
def after (l : Ledger) (p : Progress) (step : Step) : Ledger :=
  if step.Fails p then l else l.done p step

/-- The ledger after some steps. -/
def run (l : Ledger) (p : Progress) : List Step → Ledger
  | [] => l
  | step :: steps => run (l.after p step) (step.apply p) steps

end Ledger

/-- Every step of a run meets a condition in the state in which it is made. -/
def Step.Throughout (condition : Progress → Step → Prop) (p : Progress) : List Step → Prop
  | [] => True
  | step :: steps => condition p step ∧ Throughout condition (step.apply p) steps

theorem Step.throughout_of_forall {condition : Progress → Step → Prop}
    (h : ∀ p step, condition p step) (p : Progress) (steps : List Step) :
    Throughout condition p steps := by
  induction steps generalizing p with
  | nil => trivial
  | cons step steps ih => exact ⟨h p step, ih _⟩

/-- What is kept by every step that leaves the session running holds after every run that
does. -/
theorem Ledger.run_induction {P : Progress → Ledger → Prop}
    {condition : Progress → Step → Prop}
    (hstep : ∀ p (l : Ledger) step, p.writer.Consistent → condition p step → ¬step.Fails p →
      step.Moves p (step.apply p) → P p l → P (step.apply p) (l.after p step))
    {p : Progress} {l : Ledger} (hc : p.writer.Consistent) (h : P p l) {steps : List Step}
    (hs : Step.Throughout condition p steps)
    (hr : (Step.run p steps).writer.phase = .running) : P (Step.run p steps) (l.run p steps) := by
  induction steps generalizing p l with
  | nil => exact h
  | cons step steps ih =>
    have hafter : (step.apply p).writer.phase = .running := Step.running_of_run hr
    exact ih (Step.consistent_apply hc step)
      (hstep p l step hc hs.1 (Step.running_of_apply hafter).2 (Step.moves_of_running hc hafter) h)
      hs.2 hr

/-! ## Elements -/

/-- The index of an array is the number of values that have begun in it. -/
def Container.Counted (c : Container) (a : Account) : Prop :=
  ∀ index, c.nextIndex = some index → index = a.values

/-- The index of every open array is the number of values that have begun in it. -/
def Ledger.Counts (p : Progress) (l : Ledger) : Prop :=
  List.Forall₂ Container.Counted p.writer.containers l.accounts

theorem Container.counted_start (header : Nat) (shape : Shape) :
    (start header shape).Counted {} := by
  cases shape with
  | document => exact nofun
  | array =>
    intro index h
    exact (Option.some.inj h).symm

/-- A value that begins is counted by both. -/
theorem Ledger.counted_taken {containers : List Container} {l : Ledger}
    (h : List.Forall₂ Container.Counted containers l.accounts) :
    List.Forall₂ Container.Counted (Container.taken containers) l.value.accounts := by
  obtain ⟨accounts, nameFlushed⟩ := l
  cases h with
  | nil => exact .nil
  | @cons c a containers accounts hc hrest =>
    obtain ⟨header, nextIndex⟩ := c
    cases nextIndex with
    | none => exact .cons nofun hrest
    | some index =>
      refine .cons (fun next hnext => ?_) hrest
      have hindex : index = a.values := hc index rfl
      rw [← Option.some.inj hnext, hindex]

theorem Ledger.counts_after {p : Progress} {l : Ledger} {step : Step} (hf : ¬step.Fails p)
    (hm : step.Moves p (step.apply p)) (h : l.Counts p) :
    (l.after p step).Counts (step.apply p) := by
  rw [after, if_neg hf]
  generalize step.apply p = q at hm
  have htail : ∀ {container containers}, p.writer.containers = container :: containers →
      List.Forall₂ Container.Counted containers l.accounts.tail := by
    intro container containers hc
    rw [Counts, hc] at h
    obtain ⟨a, accounts, -, hrest, ha⟩ := List.forall₂_cons_left_iff.mp h
    rw [ha]
    exact hrest
  unfold Counts
  cases hm with
  | name _ hw =>
    rw [hw.containers]
    exact h
  | checkArray | setEscapes => exact h
  | write _ hw =>
    rw [hw.containers]
    exact counted_taken h
  | begin _ hw | beginScope _ hw =>
    refine .cons (Container.counted_start _ _) ?_
    rw [hw.containers]
    exact counted_taken h
  | finish _ hc hw =>
    rw [hw.containers]
    exact htail hc
  | endScope hs _ _ hc hw =>
    rw [hw.containers, done, if_neg (by simp [hs])]
    exact htail hc
  | noScope hs =>
    rw [done, if_pos hs]
    exact h
  | flush => exact List.forall₂_map_right_iff.mpr h

/-- In every run that leaves the session running, arrays count their elements. -/
theorem Ledger.counts_run (sink : Sink) (options : Options) (storage : Bytes) (steps : List Step)
    (hr : (Step.run ⟨Writer.onStorage sink options storage, []⟩ steps).writer.phase = .running) :
    (Ledger.run {} ⟨Writer.onStorage sink options storage, []⟩ steps).Counts
      (Step.run ⟨Writer.onStorage sink options storage, []⟩ steps) :=
  @run_induction (fun p l => l.Counts p) (fun _ _ => True)
    (fun _ _ _ _ _ hf hm h => counts_after hf hm h) ⟨Writer.onStorage sink options storage, []⟩ {}
    (Writer.consistent_onStorage sink options storage) .nil steps
    (Step.throughout_of_forall (fun _ _ => trivial) _ _) hr

end BsonWriter
