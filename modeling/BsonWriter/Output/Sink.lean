import BsonWriter.Bytes.LittleEndian

/-!
Where finished bytes go. A sink may take fewer bytes than it is offered, may be
interrupted, and may stop for good at a limit; handing over a byte string
repeats the offer with what is left until all is taken or the sink gives up.
Bytes once taken stay taken.
-/

namespace BsonWriter

/-- What a full sink does with an offer: it takes nothing, or it breaks. -/
inductive WhenFull
  | takesNothing
  | breaks
  deriving DecidableEq, Repr, Inhabited

/-- A sink that holds at most `limit` bytes, takes at most `chunk` bytes of one
offer and is interrupted by the first `interrupts` offers. All offers and all
flushes are counted. -/
structure Sink where
  limit : Option Nat := none
  chunk : Option Nat := none
  whenFull : WhenFull := .breaks
  interrupts : Nat := 0
  flushFails : Bool := false
  held : Bytes := []
  offers : Nat := 0
  flushes : Nat := 0
  deriving DecidableEq, Repr, Inhabited

namespace Sink

/-- Why bytes could not be handed over. -/
inductive Fault
  | tookNothing
  | broken
  | flushFailed
  | reported (message : String)
  deriving DecidableEq, Repr, Inhabited

def Fault.message : Fault → String
  | tookNothing => "failed to write whole buffer"
  | broken => "sink is gone"
  | flushFailed => "flush failed"
  | reported message => message

/-- The answer to one offer. -/
inductive Reply
  | took (count : Nat)
  | interrupted
  | broken
  deriving DecidableEq, Repr

def isFull (s : Sink) : Bool := s.limit.any (· ≤ s.held.length)

/-- How many of `count` bytes a sink that is not full takes at once. -/
def appetite (s : Sink) (count : Nat) : Nat :=
  let count := match s.chunk with
    | none => count
    | some chunk => min count chunk
  match s.limit with
  | none => count
  | some limit => min count (limit - s.held.length)

/-- One offer. An interrupt comes before everything else. -/
def offer (s : Sink) (bs : Bytes) : Reply × Sink :=
  let s := { s with offers := s.offers + 1 }
  if 0 < s.interrupts then (.interrupted, { s with interrupts := s.interrupts - 1 })
  else if s.isFull then
    match s.whenFull with
    | .takesNothing => (.took 0, s)
    | .breaks => (.broken, s)
  else
    let count := s.appetite bs.length
    (.took count, { s with held := s.held ++ bs.take count })

/-- Repeats the offer at most `rounds` times. -/
def offerAll : (rounds : Nat) → Sink → Bytes → Except Fault Unit × Sink
  | _, s, [] => (.ok (), s)
  | 0, s, _ => (.error .tookNothing, s)
  | rounds + 1, s, b :: bs =>
    match s.offer (b :: bs) with
    | (.interrupted, s) => offerAll rounds s (b :: bs)
    | (.broken, s) => (.error .broken, s)
    | (.took 0, s) => (.error .tookNothing, s)
    | (.took (n + 1), s) => offerAll rounds s (bs.drop n)

/-- Hands over all of `bs`. Every round uses up an interrupt or a byte or is
the last, so the rounds suffice; without bytes no offer is made. -/
def handOver (s : Sink) (bs : Bytes) : Except Fault Unit × Sink :=
  offerAll (s.interrupts + bs.length) s bs

@[simp] theorem handOver_nil (s : Sink) : s.handOver [] = (.ok (), s) := by
  unfold handOver
  cases s.interrupts + ([] : Bytes).length <;> rfl

/-- A flush moves no bytes. -/
def flush (s : Sink) : Except Fault Unit × Sink :=
  (if s.flushFails then .error .flushFailed else .ok (), { s with flushes := s.flushes + 1 })

end Sink

end BsonWriter
