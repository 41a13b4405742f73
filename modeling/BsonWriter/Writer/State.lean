import BsonWriter.Options
import BsonWriter.Output.Buffer
import BsonWriter.Text.Escape
import BsonWriter.Writer.Container

/-!
The state of a writing session: what it has been configured to do, where its
output goes and what is still here, which containers are open, and whether it can
still be used.
-/

namespace BsonWriter

/-- A session runs until something fails or it is closed. A failed session can
still be closed. -/
inductive Phase
  | running
  | failed
  | closed
  deriving DecidableEq, Repr, Inhabited

def Phase.text : Phase → String
  | running => "Open"
  | failed => "Failed"
  | closed => "Closed"

/-- `expectations` and `containers` describe the open containers, innermost
first; `slot` is the offset of a type byte that waits for its value. -/
structure Writer where
  options : Options := {}
  sink : Sink := {}
  buffer : Buffer := {}
  expectations : List Expectation := []
  containers : List Container := []
  slot : Option Nat := none
  escapes : Option EscapeTable := none
  phase : Phase := .running
  deriving DecidableEq, Repr, Inhabited

namespace Writer

/-- The number of open documents and arrays. -/
def depth (w : Writer) : Nat := w.containers.length

/-- The bytes that have not been handed to the sink. -/
def buffered (w : Writer) : Bytes := w.buffer.held

/-- A running session has failed from now on. -/
def fail (w : Writer) : Writer := if w.phase = .running then { w with phase := .failed } else w

theorem phase_fail (w : Writer) : w.fail.phase ≠ .running := by
  unfold fail
  split
  · exact Phase.noConfusion
  · assumption

@[simp] theorem buffer_fail (w : Writer) : w.fail.buffer = w.buffer := by
  unfold fail
  split <;> rfl

@[simp] theorem sink_fail (w : Writer) : w.fail.sink = w.sink := by
  unfold fail
  split <;> rfl

@[simp] theorem containers_fail (w : Writer) : w.fail.containers = w.containers := by
  unfold fail
  split <;> rfl

@[simp] theorem options_fail (w : Writer) : w.fail.options = w.options := by
  unfold fail
  split <;> rfl

def describe (w : Writer) : String :=
  "Generator \x7b options: " ++ w.options.describe ++ ", depth: " ++ w.depth.repr ++
    ", offset: " ++ w.buffer.size.repr ++ ", state: " ++ w.phase.text ++ ", .. \x7d"

/-- A new session on storage from an earlier one. -/
def onStorage (sink : Sink) (options : Options) (storage : Bytes) : Writer :=
  { options, sink, buffer := .onStorage storage options.keepsStorage }

/-- The sink and the emptied storage of a session. -/
def release (w : Writer) : Sink × Bytes := (w.sink, [])

end Writer

end BsonWriter
