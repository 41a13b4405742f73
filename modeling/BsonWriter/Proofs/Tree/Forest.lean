import BsonWriter.Proofs.Tree.Encoding
import Mathlib.Data.List.Forall2

/-!
Sessions that write documents and arrays one after another and are then closed.
Every call goes well, and the sink holds the encodings of the documents, one
after another and nothing else (`forest_encoding_exact`). The elements of arrays
are named by their decimal indexes, unless the escape table replaces digits.
-/

namespace BsonWriter

open BsonWriter.Action
open Call (Succeeds)
open WireValue (content encodings)

/-! ## Keys of arrays -/

/-- The names of the elements of an array. -/
def indexNames (count : Nat) : List String := (List.range count).map Nat.repr

/-- The table replaces no digit of an index. -/
def KeepsIndexes (table : Option EscapeTable) : Prop :=
  ∀ n : Nat, writtenText table n.repr = some n.repr

theorem keepsIndexes_none : KeepsIndexes none := fun _ => rfl

namespace WireValue

mutual

/-- The elements of every array are named by their indexes, in order. -/
def Numbered : WireValue → Prop
  | document fields => NumberedFields fields
  | array elements =>
    elements.map Prod.fst = indexNames elements.length ∧ NumberedFields elements
  | codeWithScope _ scope => NumberedFields scope
  | _ => True

def NumberedFields : List (String × WireValue) → Prop
  | [] => True
  | (_, value) :: rest => value.Numbered ∧ NumberedFields rest

end

end WireValue

/-- The same for what stands on the wire for a root. -/
def Root.Numbered : Root → Fields → Prop
  | document _, fields => WireValue.NumberedFields fields
  | array _, elements =>
    elements.map Prod.fst = indexNames elements.length ∧ WireValue.NumberedFields elements

section Numbered

variable {options : Options} {table : Option EscapeTable}

/-- What stands on the wire for a scalar has no elements. -/
theorem numbered_scalar {value : Scalar} {v : WireValue} (h : value.wire? options table = some v) :
    v.Numbered := by
  obtain hv | ⟨_, _, rfl, -⟩ | ⟨_, _, _, rfl, -⟩ := Scalar.image_cases h
  · cases v <;> trivial
  · trivial
  · trivial

theorem writtenName_of_keepsIndexes (ht : KeepsIndexes table) {n : Nat} {key : String}
    (h : writtenName table n.repr = some key) : key = n.repr := by
  have hw := (Option.filter_eq_some_iff.mp h).1
  rw [ht n] at hw
  exact (Option.some.inj hw).symm

/-- The names of elements from an index on. -/
theorem names_of_wireItems? (ht : KeepsIndexes table) {items : List Tree} {index : Nat}
    {es : Fields} (h : Tree.wireItems? options table index items = some es) :
    es.map Prod.fst = (List.range' index items.length).map Nat.repr ∧
      es.length = items.length := by
  induction items generalizing index es with
  | nil =>
    cases h
    exact ⟨rfl, rfl⟩
  | cons tree items ih =>
    obtain ⟨key, hk, h⟩ := Option.bind_eq_some_iff.mp h
    obtain ⟨v, -, h⟩ := Option.bind_eq_some_iff.mp h
    obtain ⟨gs, hg, h⟩ := Option.bind_eq_some_iff.mp h
    cases h
    obtain ⟨hn, hl⟩ := ih hg
    rw [List.map_cons, hn, writtenName_of_keepsIndexes ht hk]
    exact ⟨rfl, congrArg Nat.succ hl⟩

theorem indexNames_of_wireItems? (ht : KeepsIndexes table) {items : List Tree} {es : Fields}
    (h : Tree.wireItems? options table 0 items = some es) :
    es.map Prod.fst = indexNames es.length := by
  obtain ⟨hn, hl⟩ := names_of_wireItems? ht h
  rw [hn, hl, indexNames, List.range_eq_range']

mutual

theorem numbered_tree (ht : KeepsIndexes table) {v : WireValue} : (tree : Tree) →
    tree.wire? options table = some v → v.Numbered
  | .leaf value, h => numbered_scalar h
  | .document fields, h => by
    obtain ⟨fs, hf, rfl⟩ := Option.map_eq_some_iff.mp h
    exact numbered_fields ht fields hf
  | .array items, h => by
    obtain ⟨es, he, rfl⟩ := Option.map_eq_some_iff.mp h
    exact ⟨indexNames_of_wireItems? ht he, numbered_items ht items he⟩
  | .codeWithScope _ scope, h => by
    obtain ⟨text, -, h⟩ := Option.bind_eq_some_iff.mp h
    obtain ⟨fs, hf, h⟩ := Option.bind_eq_some_iff.mp h
    cases h
    exact numbered_fields ht scope hf

theorem numbered_fields (ht : KeepsIndexes table) {fs : Fields} :
    (fields : List (String × Tree)) → Tree.wireFields? options table fields = some fs →
    WireValue.NumberedFields fs
  | [], h => by
    cases h
    trivial
  | (_, tree) :: fields, h => by
    obtain ⟨key, -, h⟩ := Option.bind_eq_some_iff.mp h
    obtain ⟨v, hv, h⟩ := Option.bind_eq_some_iff.mp h
    obtain ⟨gs, hg, h⟩ := Option.bind_eq_some_iff.mp h
    cases h
    exact ⟨numbered_tree ht tree hv, numbered_fields ht fields hg⟩

theorem numbered_items (ht : KeepsIndexes table) {index : Nat} {es : Fields} :
    (items : List Tree) → Tree.wireItems? options table index items = some es →
    WireValue.NumberedFields es
  | [], h => by
    cases h
    trivial
  | tree :: items, h => by
    obtain ⟨key, -, h⟩ := Option.bind_eq_some_iff.mp h
    obtain ⟨v, hv, h⟩ := Option.bind_eq_some_iff.mp h
    obtain ⟨gs, hg, h⟩ := Option.bind_eq_some_iff.mp h
    cases h
    exact ⟨numbered_tree ht tree hv, numbered_items ht items hg⟩

end

theorem numbered_root (ht : KeepsIndexes table) {root : Root} {fs : Fields}
    (h : root.wire? options table = some fs) : root.Numbered fs := by
  cases root with
  | document fields => exact numbered_fields ht fields h
  | array items => exact ⟨indexNames_of_wireItems? ht h, numbered_items ht items h⟩

end Numbered

/-! ## Sessions -/

section Sessions

variable {sink : Sink} {options : Options} {storage : Bytes} {table : Option EscapeTable}
  {forest : List Root} {documents : List Fields} {w : Writer}

/-- The whole session that writes a forest. -/
def Root.session (table : Option EscapeTable) (forest : List Root) : List Call :=
  .setEscapes table :: (Root.calls forest ++ [.close])

theorem wires?_cons {root : Root}
    (h : Root.wires? options table (root :: forest) = some documents) :
    ∃ d ds, root.wire? options table = some d ∧ Root.wires? options table forest = some ds ∧
      documents = d :: ds := by
  rw [Root.wires?, List.mapM_cons] at h
  obtain ⟨d, hd, h⟩ := Option.bind_eq_some_iff.mp h
  obtain ⟨ds, hds, h⟩ := Option.bind_eq_some_iff.mp h
  cases h
  exact ⟨d, ds, hd, hds, rfl⟩

/-- A document or an array outside of all others. -/
theorem succeeds_root {root : Root} {d : Fields} (hd : root.wire? options table = some d)
    (hw : w.Steady options table) (he : w.expectations = []) (hc : w.containers = [])
    (hl : (enclosed (content d)).length < lengthBound) :
    Succeeds w root.tree.calls (w.put (enclosed (content d))) := by
  have ha : ∀ type, Admits .container type w w :=
    admits_root hw.running he hc hw.slotless
  cases root with
  | document fields =>
    have ht : (Tree.document fields).wire? options table = some (.document d) := by
      rw [Tree.wire?, show Tree.wireFields? options table fields = some d from hd]
      rfl
    have h := succeeds_tree _ ht (ha _) hw (by rwa [WireValue.payload])
    rwa [WireValue.payload] at h
  | array items =>
    have ht : (Tree.array items).wire? options table = some (.array d) := by
      rw [Tree.wire?, show Tree.wireItems? options table 0 items = some d from hd]
      rfl
    have h := succeeds_tree _ ht (ha _) hw (by rwa [WireValue.payload])
    rwa [WireValue.payload] at h

theorem succeeds_forest (hw : w.Steady options table) (he : w.expectations = [])
    (hc : w.containers = []) (h : Root.wires? options table forest = some documents)
    (hl : ∀ d ∈ documents, (enclosed (content d)).length < lengthBound) :
    Succeeds w (Root.calls forest) (w.put (encodings documents)) := by
  induction forest generalizing w documents with
  | nil =>
    cases h
    have hw : w.put (encodings []) = w := Writer.put_nil
    exact hw.symm ▸ Succeeds.nil w
  | cons root forest ih =>
    obtain ⟨d, ds, hd, hds, rfl⟩ := wires?_cons h
    have hroot := succeeds_root hd hw he hc (hl d List.mem_cons_self)
    have hrest := ih (hw.put (enclosed (content d))) he hc hds fun e hm =>
      hl e (List.mem_cons_of_mem _ hm)
    rw [Writer.put_put] at hrest
    exact hroot.append hrest

/-- Closing a session without open containers delivers all its bytes. -/
theorem run_close (hr : w.phase = .running) (hc : w.containers = []) (hs : w.sink.TakesAll) :
    ∃ w', close.run w = .ok () w' ∧ w'.sink.held = w.sink.held ++ w.buffer.held := by
  obtain ⟨s, hst, hsh, hheld⟩ := Sink.handOver_of_takesAll hs w.buffer.held
  refine ⟨{ w with buffer := w.buffer.drained, sink := s.flush.2, phase := .closed }, ?_, hheld⟩
  rw [run_eq_ok_iff, close]
  simp only [yields_andThen, yields_get, hr, hc]
  cases w.options.autoClose <;> simp [hsh, hst.flushes, hc]

theorem numbered_roots (ht : KeepsIndexes table)
    (h : Root.wires? options table forest = some documents) :
    List.Forall₂ Root.Numbered forest documents := by
  induction forest generalizing documents with
  | nil =>
    cases h
    exact .nil
  | cons root forest ih =>
    obtain ⟨d, ds, hd, hds, rfl⟩ := wires?_cons h
    exact .cons (numbered_root ht hd) (ih hds)

/-- A session that writes a forest goes well, and delivers its encodings. -/
theorem succeeds_session (storage : Bytes) (hst : options.streaming = false) (hs : sink.TakesAll)
    (h : Root.wires? options table forest = some documents)
    (hl : ∀ d ∈ documents, (enclosed (content d)).length < lengthBound) :
    ∃ w, Succeeds (Writer.onStorage sink options storage) (Root.session table forest) w ∧
      w.sink.held = sink.held ++ encodings documents := by
  let start : Writer := { Writer.onStorage sink options storage with escapes := table }
  have hsteady : start.Steady options table := ⟨rfl, hst, rfl, rfl, rfl⟩
  have hset : Succeeds (Writer.onStorage sink options storage) [.setEscapes table] start :=
    @Succeeds.of_run _ _ _ (Action.setEscapes table) rfl rfl
  have hforest := succeeds_forest hsteady rfl rfl h hl
  obtain ⟨w, hclose, hheld⟩ := @run_close (start.put (encodings documents)) rfl rfl hs
  exact ⟨w, hset.append (hforest.append (Succeeds.of_run rfl hclose)), hheld⟩

/-- A forest is delivered as the encodings of its documents, and no call fails. In
an array the names are the decimal indexes, whatever the elements are. -/
theorem forest_encoding_exact (hst : options.streaming = false) (hs : sink.TakesAll)
    (h : Root.wires? options table forest = some documents)
    (hl : ∀ d ∈ documents, (enclosed (content d)).length < lengthBound) :
    ∃ w, Succeeds (Writer.onStorage sink options storage) (Root.session table forest) w ∧
      w.sink.held = sink.held ++ encodings documents ∧
      (KeepsIndexes table → List.Forall₂ Root.Numbered forest documents) := by
  obtain ⟨w, hw, hheld⟩ := succeeds_session storage hst hs h hl
  exact ⟨w, hw, hheld, fun ht => numbered_roots ht h⟩

end Sessions

/-- A document with an array of mixed elements, code with a scope and a range that
reaches past its data, and an array beside it. -/
def mixedForest : List Root := [
  .document [
    ("n", .leaf (.integer 7)),
    ("l", .array [.leaf (.string "x"), .document [("in", .leaf .null)], .array []]),
    ("f", .codeWithScope "g" [("y", .leaf (.boolean true))]),
    ("b", .leaf (.binaryRange .generic [1, 2, 3] 1 5))],
  .array [.leaf (.symbol "s")]]

def mixedDocuments : List Fields := [
  [("n", .int32 7),
   ("l", .array [("0", .string "x"), ("1", .document [("in", .null)]), ("2", .array [])]),
   ("f", .codeWithScope "g" [("y", .boolean true)]),
   ("b", .binary 0 5 [2, 3])],
  [("0", .symbol "s")]]

theorem forest_encoding_exact_mixed :
    Root.wires? {} none mixedForest = some mixedDocuments ∧
      (∀ d ∈ mixedDocuments, (enclosed (content d)).length < lengthBound) ∧
      ∃ w, Succeeds (Writer.onStorage { held := [9] } {} []) (Root.session none mixedForest) w ∧
        w.sink.held = 9 :: encodings mixedDocuments ∧
        List.Forall₂ Root.Numbered mixedForest mixedDocuments := by
  have hi : Root.wires? {} none mixedForest = some mixedDocuments := rfl
  have hl : ∀ d ∈ mixedDocuments, (enclosed (content d)).length < lengthBound := by decide
  have hs : ({ held := [9] } : Sink).TakesAll := ⟨rfl, by decide, rfl⟩
  obtain ⟨w, hw, hheld, hn⟩ := @forest_encoding_exact { held := [9] } {} [] none _ _ rfl hs hi hl
  exact ⟨hi, hl, w, hw, hheld, hn keepsIndexes_none⟩

end BsonWriter
