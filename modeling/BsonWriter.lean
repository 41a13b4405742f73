import BsonWriter.Session.Outcome
import BsonWriter.Proofs.Output.Delivery
import BsonWriter.Proofs.Output.Limit
import BsonWriter.Proofs.Output.Slice
import BsonWriter.Proofs.Wire.Reader
import BsonWriter.Proofs.Action.Yields
import BsonWriter.Proofs.Action.Blind
import BsonWriter.Proofs.Number.Text
import BsonWriter.Proofs.Tree.Basic
import BsonWriter.Proofs.Session.Success
import BsonWriter.Proofs.Tree.Encoding
import BsonWriter.Proofs.Tree.Forest
import BsonWriter.Proofs.Wire.Canonical
import BsonWriter.Proofs.Tree.Reading
import BsonWriter.Proofs.Run.Step
import BsonWriter.Proofs.Run.Script
import BsonWriter.Proofs.Action.Rules
import BsonWriter.Proofs.Run.Consistent
import BsonWriter.Proofs.Run.Frame
import BsonWriter.Proofs.Run.Growth
import BsonWriter.Proofs.Run.Paired
import BsonWriter.Proofs.Scope.Opening
import BsonWriter.Proofs.Scope.Watch
import BsonWriter.Proofs.Scope.Payload
import BsonWriter.Proofs.Run.Trail
import BsonWriter.Proofs.Run.TypeBytes
import BsonWriter.Proofs.Run.Delivered
import BsonWriter.Proofs.Run.Failure
import BsonWriter.Proofs.Run.Refusal
import BsonWriter.Proofs.Run.Moves
import BsonWriter.Proofs.Run.Ledger
import BsonWriter.Proofs.Run.Causes
import BsonWriter.Proofs.Run.Lockstep
import BsonWriter.Proofs.Flushing.Ends
import BsonWriter.Proofs.Flushing.Sessions
import BsonWriter.Proofs.Flushing.Watermark
import BsonWriter.Proofs.Walk.Grammar
import BsonWriter.Proofs.Walk.Acceptance
import BsonWriter.Proofs.Streaming.Output
import BsonWriter.Proofs.Streaming.Twin
import BsonWriter.Proofs.Streaming.Steps
import BsonWriter.Proofs.Streaming.Runs
import BsonWriter.Proofs.Streaming.Sessions
import BsonWriter.Proofs.Closing.Draft
import BsonWriter.Proofs.Closing.Writing
import BsonWriter.Proofs.Closing.Sessions
import BsonWriter.Proofs.Closing.ByHand
import BsonWriter.Proofs.Run.Standing
import BsonWriter.Proofs.Run.Synthesized
import BsonWriter.Proofs.Bytes.Hexadecimal
import BsonWriter.Proofs.Datum.Parts
import BsonWriter.Proofs.Datum.OneValue
import BsonWriter.Proofs.Datum.Serialization
import BsonWriter.Proofs.Datum.Image
import BsonWriter.Proofs.Datum.Documents
import BsonWriter.Proofs.Datum.Closure
import BsonWriter.Proofs.Loss.Following
import BsonWriter.Proofs.Loss.Sessions
import BsonWriter.Proofs.Flushing.Recut
import BsonWriter.Proofs.Flushing.Transparent
import BsonWriter.Proofs.Slot.Interchange
import BsonWriter.Proofs.Text.Escaping
import BsonWriter.Proofs.Text.Substitution
import BsonWriter.Proofs.Scope.Fragment
import BsonWriter.Proofs.Scope.OfDatum
import BsonWriter.Proofs.Instant.Agreement
import BsonWriter.Proofs.Instant.RoundTrip
import BsonWriter.Proofs.Datum.ObjectIds
import BsonWriter.Proofs.Number.Narrowest
import BsonWriter.Proofs.Scalar.Accepting
import BsonWriter.Proofs.Scalar.Ranges
import BsonWriter.Proofs.Scalar.Strings
import BsonWriter.Proofs.Text.CodeUnits
import BsonWriter.Proofs.Text.WellFormed
import BsonWriter.Proofs.Identifier.Words
import BsonWriter.Proofs.Identifier.Sharing
import BsonWriter.Proofs.Identifier.Faults
import BsonWriter.Proofs.Output.Transcript
import BsonWriter.Proofs.Number.Values
import BsonWriter.Proofs.Number.Rounding
import BsonWriter.Proofs.Number.LeadingBits
import BsonWriter.Proofs.Number.Doubles
import BsonWriter.Proofs.Number.Digits
import BsonWriter.Proofs.Number.Powers
import BsonWriter.Proofs.Number.Conversion
import BsonWriter.Proofs.Number.Nearest
