import BsonWriter.Proofs.Run.Frame
import BsonWriter.Proofs.Run.Script

/-!
The output of a session never gets shorter: what has been written is here, has left
or has been given up, and offsets count all of it (`Step.size_le_run`).
-/

namespace BsonWriter

/-- At least so many bytes have been written. -/
def Writer.Reaches (n : Nat) (w : Writer) : Prop := n ≤ w.buffer.size

theorem Writer.robust_reaches (n : Nat) : Robust (Reaches n) where
  grown _ _ h hb := Nat.le_trans h hb
  delivered _ _ h := h
  flushed _ h := h
  moved _ _ _ _ h := h
  spelled _ _ h := h
  failed w h := by
    rw [Reaches, Writer.buffer_fail]
    exact h

namespace Step

theorem size_le_apply (p : Progress) (step : Step) :
    p.writer.buffer.size ≤ (step.apply p).writer.buffer.size :=
  (Writer.robust_reaches _).apply (Nat.le_refl _) step fun _ _ h => h

theorem size_le_run (p : Progress) (steps : List Step) :
    p.writer.buffer.size ≤ (run p steps).writer.buffer.size :=
  (Writer.robust_reaches _).run (Nat.le_refl _) steps fun _ h => h

end Step

/-- Whatever is made of steps lets the output grow only. -/
theorem Action.Issues.reaches {α : Type} {a : Action α} (h : a.Issues) {n : Nat} :
    Action.Keeps (Writer.Reaches n) a := by
  intro w hw
  obtain ⟨steps, hrun⟩ := h w []
  have hle := Step.size_le_run ⟨w, []⟩ steps
  rw [hrun] at hle
  have hafter : (a.after w).Reaches n := Nat.le_trans hw hle
  unfold Action.after at hafter
  unfold Action.Yields
  cases hr : a.run w with
  | ok x v => rwa [hr] at hafter
  | error e v => rwa [hr] at hafter

end BsonWriter
