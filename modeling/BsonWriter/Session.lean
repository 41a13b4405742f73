import BsonWriter.Datum.Write

/-!
Whole sessions as data: a list of calls, in which the scope of code is again a
list of calls or a datum. Running a session carries out every call, also after
an error, and reports after each call its result and the state reached.
-/

namespace BsonWriter

/-- A call on a writer. -/
inductive Call
  | beginContainer (place : Place) (shape : Shape)
  | endContainer (shape : Shape)
  | fieldName (name : String)
  | write (place : Place) (value : Scalar)
  | abandon (place : Place)
  | serialize (d : Datum)
  | flush
  | close
  | setEscapes (table : Option EscapeTable)
  /-- Looks at the state and leaves it alone. -/
  | inspect
  /-- Code whose scope is written from a datum. -/
  | codeWithDatum (place : Place) (code : String) (d : Datum)
  /-- Code whose scope is written by calls. Unless `forgiving`, the scope stops
  at the first call that fails, and fails with it. -/
  | codeWithCalls (place : Place) (code : String) (forgiving : Bool) (calls : List Call)

/-- What a call did: its result, the state after it, and the reports of the
calls that wrote its scope. -/
structure Report where
  result : Except Error Unit
  after : Writer
  inner : List Report

namespace Report

def failed (r : Report) : Bool := match r.result with
  | .ok () => false
  | .error _ => true

/-- The report of an action, with those of the calls inside it. -/
def ofAction (a : Action Unit) (w : Writer) (inner : List Report) : Report :=
  match a.run w with
  | .ok () w => ⟨.ok (), w, inner⟩
  | .error e w => ⟨.error e, w, inner⟩

/-- The state after some calls that began in state `w`. -/
def lastState (w : Writer) : List Report → Writer
  | [] => w
  | r :: rest => lastState r.after rest

/-- The result of a scope: a forgiving one succeeds, any other has the result of
its last call. -/
def scopeResult (forgiving : Bool) (reports : List Report) : Except Error Unit :=
  if forgiving then .ok () else
    match reports.getLast? with
    | none => .ok ()
    | some r => r.result

end Report

namespace Call

/-- An action as a scope carries it out: a forgiving scope forgets errors. -/
def tolerate (forgiving : Bool) (a : Action Unit) : Action Unit :=
  if forgiving then Action.forgive a else a

mutual

/-- The action of a call. -/
def action : Call → Action Unit
  | beginContainer place shape => Action.beginContainer place shape
  | endContainer shape => Action.endContainer shape
  | fieldName name => Action.fieldName name
  | write place value => Action.write place value
  | abandon place => Action.abandon place
  | serialize d => Action.serialize d
  | flush => Action.flush
  | close => Action.close
  | setEscapes table => Action.setEscapes table
  | inspect => pure ()
  | codeWithDatum place code d => Action.codeWithScope place code d.asScope
  | codeWithCalls place code forgiving calls =>
    Action.codeWithScope place code (scopeAction forgiving calls)

/-- The action of the calls that write a scope. -/
def scopeAction (forgiving : Bool) : List Call → Action Unit
  | [] => pure ()
  | call :: rest => do
    tolerate forgiving call.action
    scopeAction forgiving rest

end

/-- What follows the calls of a scope: the end of the scope document, or the
scope's own error. -/
def finishScope (mark : ScopeMark) (result : Except Error Unit) : Action Unit :=
  match result with
  | .ok () => Action.endScope mark
  | .error e => Action.tracked (throw e)

mutual

/-- Carries out a call and reports on it. -/
def run (w : Writer) : Call → Report
  | codeWithCalls place code forgiving calls =>
    match (Action.beginScope place code).run w with
    | .error e w => ⟨.error e, w, []⟩
    | .ok mark w =>
      let inner := runScope forgiving w calls
      .ofAction (finishScope mark (Report.scopeResult forgiving inner)) (Report.lastState w inner)
        inner
  | call => .ofAction call.action w []

/-- Carries out the calls of a scope as far as it goes. -/
def runScope (forgiving : Bool) (w : Writer) : List Call → List Report
  | [] => []
  | call :: rest =>
    let report := call.run w
    report :: if report.failed && !forgiving then [] else runScope forgiving report.after rest

end

/-- Carries out all calls, in order. -/
def runAll (w : Writer) : List Call → List Report
  | [] => []
  | call :: rest =>
    let report := call.run w
    report :: runAll report.after rest

end Call

end BsonWriter
