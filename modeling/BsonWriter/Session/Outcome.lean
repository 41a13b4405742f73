import BsonWriter.Session

/-!
Reports agree with actions: the report of a call has the result and the state
that the call's action ends with (`Call.outcome_run`), and the reports of a scope
end as the scope's action does (`Call.scopeOutcome_runScope`). What holds of
actions therefore holds of every step of a session.
-/

namespace BsonWriter

namespace Report

/-- What a report says an action did. -/
def outcome (r : Report) : EStateM.Result Error Writer Unit :=
  match r.result with
  | .ok () => .ok () r.after
  | .error e => .error e r.after

/-- What the reports of a scope say its action did. -/
def scopeOutcome (forgiving : Bool) (w : Writer) (reports : List Report) :
    EStateM.Result Error Writer Unit :=
  match scopeResult forgiving reports with
  | .ok () => .ok () (lastState w reports)
  | .error e => .error e (lastState w reports)

theorem outcome_ofAction (a : Action Unit) (w : Writer) (inner : List Report) :
    (ofAction a w inner).outcome = a.run w := by
  unfold ofAction outcome
  cases a.run w <;> rfl

theorem scopeOutcome_cons {r : Report} (h : r.result = .ok ()) (forgiving : Bool) (w : Writer)
    (rest : List Report) :
    scopeOutcome forgiving w (r :: rest) = scopeOutcome forgiving r.after rest := by
  unfold scopeOutcome scopeResult
  cases forgiving with
  | true => rfl
  | false =>
    cases rest with
    | nil => simp [h, lastState]
    | cons s rest => simp [lastState]

end Report

namespace Call

mutual

theorem outcome_run (w : Writer) : (c : Call) → (c.run w).outcome = c.action.run w
  | codeWithCalls place code forgiving calls => by
    rw [run, action, Action.codeWithScope, Action.run_andThen]
    cases h : (Action.beginScope place code).run w with
    | error e w' => rfl
    | ok mark w' =>
      have ih := scopeOutcome_runScope forgiving w' calls
      simp only [Report.outcome_ofAction]
      rw [Action.run_andThen, Action.run_tracked, ← ih, Report.scopeOutcome]
      cases Report.scopeResult forgiving (runScope forgiving w' calls) <;> rfl
  | beginContainer .. | endContainer .. | fieldName .. | write .. | abandon .. | serialize ..
  | flush | close | setEscapes .. | inspect | codeWithDatum .. => by
    simp only [run, Report.outcome_ofAction]

theorem scopeOutcome_runScope (forgiving : Bool) (w : Writer) : (calls : List Call) →
    Report.scopeOutcome forgiving w (runScope forgiving w calls) =
      (scopeAction forgiving calls).run w
  | [] => by cases forgiving <;> rfl
  | call :: rest => by
    have hc := outcome_run w call
    have ih := scopeOutcome_runScope forgiving (call.run w).after rest
    rw [scopeAction, runScope, Action.run_andThen, tolerate]
    cases hr : (call.run w).result with
    | ok u =>
      have hf : (call.run w).failed = false := by simp [Report.failed, hr]
      simp only [Report.outcome, hr] at hc
      simp only [hf, Bool.false_and, Bool.false_eq_true, if_false]
      rw [Report.scopeOutcome_cons hr, ih]
      cases forgiving <;> simp [Action.run_forgive, ← hc]
    | error e =>
      have hf : (call.run w).failed = true := by simp [Report.failed, hr]
      simp only [Report.outcome, hr] at hc
      cases forgiving with
      | true =>
        simp only [hf, Bool.true_and, Bool.not_true, Bool.false_eq_true, if_false, if_true,
          Action.run_forgive, ← hc]
        rw [← ih]
        rfl
      | false => simp [hf, ← hc, Report.scopeOutcome, Report.scopeResult, hr, Report.lastState]

end

end Call

end BsonWriter
