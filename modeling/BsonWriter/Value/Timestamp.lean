/-!
Replication timestamps: seconds since the epoch and a counter that orders the
timestamps of one second.
-/

namespace BsonWriter

structure Timestamp where
  time : Int32
  increment : Int32
  deriving DecidableEq, Repr

namespace Timestamp

def text (t : Timestamp) : String :=
  "Timestamp(" ++ toString t.time.toInt ++ ", " ++ toString t.increment.toInt ++ ")"

def describe (t : Timestamp) : String :=
  "Timestamp \x7b time: " ++ toString t.time.toInt ++ ", increment: " ++
    toString t.increment.toInt ++ " \x7d"

end Timestamp

end BsonWriter
