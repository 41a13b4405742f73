/-!
What a writer can be configured to do.
-/

namespace BsonWriter

structure Options where
  /-- Leaves every length field at zero, so that output can leave after each
  value. Such documents do not follow the format. -/
  streaming : Bool := false
  /-- Writes decimals as text without trying a double. -/
  decimalsAsText : Bool := false
  /-- Ends the open containers when the session is closed. -/
  autoClose : Bool := true
  /-- Keeps the buffer's storage between flushes. -/
  reuseBuffers : Option Bool := none
  deriving DecidableEq, Repr, Inhabited

namespace Options

/-- Whether storage is kept; if that is not set, it follows `streaming`. -/
def keepsStorage (o : Options) : Bool := o.reuseBuffers.getD o.streaming

private def flag (b : Bool) : String := if b then "true" else "false"

def describe (o : Options) : String :=
  "GeneratorOptions \x7b enable_streaming: " ++ flag o.streaming ++
    ", force_decimals_as_strings: " ++ flag o.decimalsAsText ++
    ", auto_close_content: " ++ flag o.autoClose ++
    ", reuse_buffers: " ++
    (match o.reuseBuffers with
      | none => "None"
      | some b => "Some(" ++ flag b ++ ")") ++ " \x7d"

end Options

end BsonWriter
