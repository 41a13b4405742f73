import BsonWriter.Session

/-!
Sessions in which nothing fails. `Call.Succeeds w calls w'` says that all calls,
carried out one after another from state `w`, end well, those inside scopes
included, and that the session is then in state `w'`. The scope of code with
calls ends well if its calls do and the scope document can be ended
(`Call.Succeeds.codeWithCalls`).
-/

namespace BsonWriter

/-- The call ended well, and so did every call inside it. -/
inductive Report.Clean : Report → Prop
  | intro {after : Writer} {inner : List Report} (h : ∀ r ∈ inner, r.Clean) :
      Clean ⟨.ok (), after, inner⟩

theorem Report.Clean.result {r : Report} (h : r.Clean) : r.result = .ok () := by
  cases h
  rfl

theorem Report.Clean.failed {r : Report} (h : r.Clean) : r.failed = false := by
  cases h
  rfl

theorem Report.lastState_append (w : Writer) (a b : List Report) :
    lastState w (a ++ b) = lastState (lastState w a) b := by
  induction a generalizing w with
  | nil => rfl
  | cons r a ih => rw [List.cons_append, lastState, lastState, ih]

namespace Call

/-- All calls and the calls inside them end well, and lead from `w` to `w'`. -/
def Succeeds (w : Writer) (calls : List Call) (w' : Writer) : Prop :=
  (∀ r ∈ runAll w calls, r.Clean) ∧ Report.lastState w (runAll w calls) = w'

theorem runAll_append (w : Writer) (a b : List Call) :
    runAll w (a ++ b) = runAll w a ++ runAll (Report.lastState w (runAll w a)) b := by
  induction a generalizing w with
  | nil => rfl
  | cons call a ih => simp [runAll, Report.lastState, ih]

/-- A forgiving scope carries out every call. -/
theorem runAll_eq_runScope (w : Writer) (calls : List Call) :
    runAll w calls = runScope true w calls := by
  induction calls generalizing w with
  | nil => simp [runAll, runScope]
  | cons call rest ih => simp [runAll, runScope, ih]

theorem length_runAll (w : Writer) (calls : List Call) :
    (runAll w calls).length = calls.length := by
  induction calls generalizing w with
  | nil => rfl
  | cons call rest ih => exact congrArg Nat.succ (ih _)

/-- A scope without failures carries out its calls like any other sequence. -/
theorem runScope_of_clean {w : Writer} {calls : List Call} (h : ∀ r ∈ runAll w calls, r.Clean)
    (forgiving : Bool) : runScope forgiving w calls = runAll w calls := by
  induction calls generalizing w with
  | nil => simp [runScope, runAll]
  | cons call rest ih =>
    simp only [runAll, List.mem_cons, forall_eq_or_imp] at h
    obtain ⟨hc, hr⟩ := h
    simp [runScope, runAll, hc.failed, ih hr]

theorem scopeResult_of_clean {reports : List Report} (h : ∀ r ∈ reports, r.Clean)
    (forgiving : Bool) : Report.scopeResult forgiving reports = .ok () := by
  unfold Report.scopeResult
  cases forgiving with
  | true => rfl
  | false =>
    cases hl : reports.getLast? with
    | none => simp
    | some r => simpa using (h r (List.mem_of_getLast? hl)).result

namespace Succeeds

variable {w w₁ w₂ : Writer} {a b : List Call}

theorem nil (w : Writer) : Succeeds w [] w := ⟨by simp [runAll], rfl⟩

/-- Calls lead to one state only. -/
theorem unique (h₁ : Succeeds w a w₁) (h₂ : Succeeds w a w₂) : w₁ = w₂ :=
  h₁.2.symm.trans h₂.2

theorem append (ha : Succeeds w a w₁) (hb : Succeeds w₁ b w₂) : Succeeds w (a ++ b) w₂ := by
  obtain ⟨hca, rfl⟩ := ha
  obtain ⟨hcb, rfl⟩ := hb
  rw [Succeeds, runAll_append, Report.lastState_append]
  refine ⟨fun r hr => ?_, rfl⟩
  obtain hr | hr := List.mem_append.mp hr
  · exact hca r hr
  · exact hcb r hr

/-- One call, whose report is that of an action that ends well. -/
theorem of_run {call : Call} {act : Action Unit} (hc : call.run w = .ofAction act w [])
    (h : act.run w = .ok () w₁) : Succeeds w [call] w₁ := by
  have hr : call.run w = ⟨.ok (), w₁, []⟩ := by rw [hc, Report.ofAction, h]
  rw [Succeeds, runAll, hr]
  refine ⟨?_, rfl⟩
  simp only [runAll, List.mem_singleton, forall_eq]
  exact .intro (by simp)

/-- Code whose scope is written by calls that all end well. -/
theorem codeWithCalls {place : Place} {code : String} {forgiving : Bool} {mark : ScopeMark}
    {w₃ : Writer} (hb : (Action.beginScope place code).run w = .ok mark w₁)
    (hs : Succeeds w₁ a w₂) (he : (Action.endScope mark).run w₂ = .ok () w₃) :
    Succeeds w [.codeWithCalls place code forgiving a] w₃ := by
  obtain ⟨hc, rfl⟩ := hs
  have hr : run w (.codeWithCalls place code forgiving a) = ⟨.ok (), w₃, runAll w₁ a⟩ := by
    rw [run, hb]
    simp only [runScope_of_clean hc, scopeResult_of_clean hc, finishScope, Report.ofAction, he]
  rw [Succeeds, runAll, hr]
  refine ⟨?_, rfl⟩
  simp only [runAll, List.mem_singleton, forall_eq]
  exact .intro hc

end Succeeds

end Call

end BsonWriter
