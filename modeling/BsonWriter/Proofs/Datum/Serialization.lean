import BsonWriter.Proofs.Bytes.Hexadecimal
import BsonWriter.Proofs.Datum.OneValue

/-!
Writing a datum is the same as making its calls by hand, in order and up to the first that
fails, and if none fails one value has been written (`serialize_as_calls`).
-/

namespace BsonWriter

open BsonWriter.Action

/-- Parts without a fault are calls that stop at the first error. -/
theorem Part.carryOut_calls (calls : List Call) :
    carryOut (calls.map call) = Call.scopeAction false calls := by
  induction calls with
  | nil => rfl
  | cons c calls ih => rw [List.map_cons, carryOut, Call.scopeAction, ih]; rfl

namespace Datum

/-- An object id is one call, because its digits read back as the id. -/
theorem parts_ofObjectId (id : ObjectId) :
    (ofObjectId id).parts .plain = [.scalar (.objectId id)] := by
  rw [ofObjectId, parts, parts, textPart, Reading.inside, if_pos rfl, if_pos rfl,
    ObjectId.parse_hex]

/-- An instant is one call. -/
theorem parts_ofDateTime (t : DateTime) :
    (ofDateTime t).parts .plain = [.scalar (.dateTime t)] := by
  have hmark : dateTimeMark ≠ objectIdMark := by decide
  rw [ofDateTime, parts, parts, integerPart, Reading.inside, if_neg hmark, if_pos rfl,
    if_pos ⟨rfl, rfl⟩]
  simp only [TypedInteger.ofInt64, Int64.ofInt_toInt]

end Datum

/-- In every state of a running session, writing a datum ends with the same error or none,
and in the same state, as carrying out its parts up to the first that fails. If all of them
are calls, it is these calls in order, up to the first error. A fault of the datum's own is
reported when its turn comes, and fails the session in the state that the calls before it
have left. An object id and an instant are one call each.

Without an error one value has been written: the depth is the same, a document that has
waited for the value expects a name again, nothing else that was open has changed, and the
calls spell one value of the grammar of walks. -/
theorem serialize_as_calls (d : Datum) {w : Writer} (hw : w.Reachable) (hr : w.phase = .running) :
    (serialize d).run w = (Part.carryOut (d.parts .plain)).run w ∧
      (∀ calls, d.parts .plain = calls.map Part.call →
        (serialize d).run w = (Call.scopeAction false calls).run w) ∧
      (∀ calls cause rest v, d.parts .plain = calls.map Part.call ++ .fault cause :: rest →
        (Call.scopeAction false calls).run w = .ok () v →
          (serialize d).run w = .error ⟨cause, none⟩ v.fail) ∧
      (∀ id, (Datum.ofObjectId id).parts .plain = [.call (.write .direct (.objectId id))]) ∧
      (∀ t, (Datum.ofDateTime t).parts .plain = [.call (.write .direct (.dateTime t))]) ∧
      ∀ w', (serialize d).run w = .ok () w' →
        w'.phase = .running ∧ w'.depth = w.depth ∧
        (∀ rest, w.expectations = .value :: rest → w'.expectations = .name :: rest) ∧
        w.WroteValue w' ∧
        ∃ tokens, List.Forall₂ Part.Spells (d.parts .plain) tokens ∧ Derives .value tokens := by
  have hparts : serialize d = Part.carryOut (d.parts .plain) := Datum.madeOf_datum .plain d
  refine ⟨by rw [hparts], fun calls hcalls => ?_, fun calls cause rest v hcalls hrun => ?_,
    Datum.parts_ofObjectId, Datum.parts_ofDateTime, fun w' hrun => ?_⟩
  · rw [hparts, hcalls, Part.carryOut_calls]
  · rw [hparts, hcalls, Part.carryOut_append, Part.carryOut_calls, run_andThen, hrun]
    rfl
  · obtain ⟨-, hvalue, htokens⟩ :=
      Datum.writesValue_datum Reading.noConfusion d w w' hw.consistent (tracked_eq_ok hrun)
    obtain ⟨expectations, ha, hext⟩ := hvalue
    refine ⟨hext.phase.trans hr, ?_, fun rest he => ?_, ⟨expectations, ha, hext⟩, htokens⟩
    · have hlength := congrArg List.length (Container.header_taken w.containers)
      rw [List.length_map, List.length_map] at hlength
      exact (congrArg List.length hext.containers).trans hlength
    · rw [he] at ha
      cases ha
      exact hext.expectations

/-- A map that is handed over as two keys with their values, after a field name. -/
theorem serialize_as_calls_map :
    let w := (Step.run ⟨Writer.onStorage {} {} [], []⟩
      [.begin .container .startObject .document, .name "m"]).writer
    let d := Datum.map [(.key, .text "a"), (.value, .boolean true), (.key, .choice "b"),
      (.value, .sequence "sequence" [])]
    ∃ w', (serialize d).run w = .ok () w' ∧ w'.depth = 1 ∧ w'.expectations = [.name] := by
  intro w d
  have hw : w.Reachable :=
    ⟨{}, {}, [], [.begin .container .startObject .document, .name "m"], [], rfl⟩
  have hok : (match (serialize d).run w with
    | .ok _ _ => true
    | .error _ _ => false) = true := by decide +kernel
  cases hrun : (serialize d).run w with
  | error e w' => simp [hrun] at hok
  | ok x w' =>
    obtain ⟨-, hdepth, hexpects, -⟩ := (serialize_as_calls d hw rfl).2.2.2.2.2 w' hrun
    exact ⟨w', rfl, hdepth, hexpects [] rfl⟩

end BsonWriter
