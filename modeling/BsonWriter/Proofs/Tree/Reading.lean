import BsonWriter.Proofs.Tree.Forest
import BsonWriter.Proofs.Wire.Canonical

/-!
What a reader makes of the output of a session. The image of a forest without
clipped ranges can be read back, so the strict reader gives the documents that
were written (`forest_read_back`), and from the same bytes no other session can
have written other documents.
-/

namespace BsonWriter

open Call (Succeeds)
open WireValue (content encodings readDocuments)

variable {options : Options} {table : Option EscapeTable}

theorem readable_scalar {value : Scalar} {v : WireValue} (h : value.wire? options table = some v)
    (hu : value.Unclipped) : v.Readable := by
  obtain hv | ⟨_, _, rfl, hp, hf⟩ | ⟨_, _, _, rfl, hd⟩ := Scalar.image_cases h
  · cases v <;> trivial
  · exact ⟨hp, hf⟩
  · exact hd hu

mutual

/-- The image of a tree without clipped ranges can be read back. -/
theorem readable_tree {v : WireValue} : (tree : Tree) → tree.wire? options table = some v →
    tree.Unclipped → v.Readable
  | .leaf value, h, hu => readable_scalar h hu
  | .document fields, h, hu => by
    obtain ⟨fs, hf, rfl⟩ := Option.map_eq_some_iff.mp h
    exact readable_fields fields hf hu
  | .array items, h, hu => by
    obtain ⟨es, he, rfl⟩ := Option.map_eq_some_iff.mp h
    exact readable_items items he hu
  | .codeWithScope _ scope, h, hu => by
    obtain ⟨text, -, h⟩ := Option.bind_eq_some_iff.mp h
    obtain ⟨fs, hf, h⟩ := Option.bind_eq_some_iff.mp h
    cases h
    exact readable_fields scope hf hu

theorem readable_fields {fs : Fields} : (fields : List (String × Tree)) →
    Tree.wireFields? options table fields = some fs → Tree.UnclippedFields fields →
    WireValue.ReadableFields fs
  | [], h, _ => by
    cases h
    trivial
  | (_, tree) :: fields, h, hu => by
    obtain ⟨key, hk, h⟩ := Option.bind_eq_some_iff.mp h
    obtain ⟨v, hv, h⟩ := Option.bind_eq_some_iff.mp h
    obtain ⟨gs, hg, h⟩ := Option.bind_eq_some_iff.mp h
    cases h
    exact ⟨notMem_of_writtenName hk, readable_tree tree hv hu.1, readable_fields fields hg hu.2⟩

theorem readable_items {index : Nat} {es : Fields} : (items : List Tree) →
    Tree.wireItems? options table index items = some es → Tree.UnclippedItems items →
    WireValue.ReadableFields es
  | [], h, _ => by
    cases h
    trivial
  | tree :: items, h, hu => by
    obtain ⟨key, hk, h⟩ := Option.bind_eq_some_iff.mp h
    obtain ⟨v, hv, h⟩ := Option.bind_eq_some_iff.mp h
    obtain ⟨gs, hg, h⟩ := Option.bind_eq_some_iff.mp h
    cases h
    exact ⟨notMem_of_writtenName hk, readable_tree tree hv hu.1, readable_items items hg hu.2⟩

end

theorem readable_root {root : Root} {d : Fields} (h : root.wire? options table = some d)
    (hu : root.tree.Unclipped) : WireValue.ReadableFields d := by
  cases root with
  | document fields => exact readable_fields fields h hu
  | array items => exact readable_items items h hu

theorem readable_roots {forest : List Root} {documents : List Fields}
    (h : Root.wires? options table forest = some documents)
    (hu : ∀ root ∈ forest, root.tree.Unclipped) :
    ∀ d ∈ documents, WireValue.ReadableFields d := by
  induction forest generalizing documents with
  | nil =>
    cases h
    simp
  | cons root forest ih =>
    obtain ⟨d, ds, hd, hds, rfl⟩ := wires?_cons h
    intro e he
    obtain rfl | he := List.mem_cons.mp he
    · exact readable_root hd (hu root List.mem_cons_self)
    · exact ih hds (fun r hr => hu r (List.mem_cons_of_mem _ hr)) e he

/-- What a session needs so that its output is read back: it does not stream, its
sink takes everything, its documents have images that fit their length fields, and
it clips no range. -/
structure Legible (sink : Sink) (options : Options) (table : Option EscapeTable)
    (forest : List Root) (documents : List Fields) : Prop where
  keeps : options.streaming = false
  takesAll : sink.TakesAll
  image : Root.wires? options table forest = some documents
  bounded : ∀ d ∈ documents, (enclosed (content d)).length < lengthBound
  unclipped : ∀ root ∈ forest, root.tree.Unclipped

theorem Legible.read {sink : Sink} {forest : List Root} {documents : List Fields}
    (h : Legible sink options table forest documents) :
    readDocuments (encodings documents) = some documents :=
  WireValue.readDocuments_encodings (readable_roots h.image h.unclipped) h.bounded

/-- The delivered bytes are read back as the documents that were written, to the
last byte, and no session that writes other documents delivers the same bytes. -/
theorem forest_read_back {sink : Sink} {storage : Bytes} {forest : List Root}
    {documents : List Fields} (h : Legible sink options table forest documents) :
    ∃ w delivered, Succeeds (Writer.onStorage sink options storage) (Root.session table forest) w ∧
      w.sink.held = sink.held ++ delivered ∧ readDocuments delivered = some documents ∧
      ∀ {sink' : Sink} {options' : Options} {storage' : Bytes} {table' : Option EscapeTable}
        {forest' : List Root} {documents' : List Fields} {w' : Writer},
        Legible sink' options' table' forest' documents' →
        Succeeds (Writer.onStorage sink' options' storage') (Root.session table' forest') w' →
        w'.sink.held = sink'.held ++ delivered → documents' = documents := by
  obtain ⟨w, hw, hheld⟩ := succeeds_session storage h.keeps h.takesAll h.image h.bounded
  refine ⟨w, encodings documents, hw, hheld, h.read, ?_⟩
  intro sink' options' storage' table' forest' documents' w' h' hw' hheld'
  obtain ⟨v, hv, hvheld⟩ := succeeds_session storage' h'.keeps h'.takesAll h'.image h'.bounded
  rw [hw'.unique hv, hvheld] at hheld'
  have hread := h'.read
  rw [List.append_cancel_left hheld', h.read] at hread
  exact (Option.some.inj hread).symm

/-- A field written twice, a text in UTF-16, a regex, and an array in the scope of
code. -/
def legibleForest : List Root := [
  .document [
    ("a", .leaf (.rawText "é")),
    ("a", .leaf (.double ⟨0x7ff8000000000001⟩)),
    ("r", .leaf (.regex ⟨"^x", { caseInsensitive := true }⟩)),
    ("f", .codeWithScope "g" [("y", .array [.leaf (.binaryRange .md5 [1, 2, 3] 1 2)])])]]

def legibleDocuments : List Fields := [
  [("a", .binary 0 2 [0xe9, 0]),
   ("a", .double 0x7ff8000000000001),
   ("r", .regex "^x" "i"),
   ("f", .codeWithScope "g" [("y", .array [("0", .binary 5 2 [2, 3])])])]]

theorem forest_read_back_twice : Legible {} {} none legibleForest legibleDocuments ∧
    ∃ w delivered, Succeeds (Writer.onStorage {} {} []) (Root.session none legibleForest) w ∧
      w.sink.held = delivered ∧ readDocuments delivered = some legibleDocuments ∧
      ∀ w', Succeeds (Writer.onStorage {} {} []) (Root.session none [.document []]) w' →
        w'.sink.held ≠ delivered := by
  have hs : ({} : Sink).TakesAll := ⟨rfl, by decide, rfl⟩
  have h : Legible {} {} none legibleForest legibleDocuments := by
    refine ⟨rfl, hs, rfl, by decide, ?_⟩
    simp [legibleForest, Root.tree, Tree.Unclipped, Tree.UnclippedFields, Tree.UnclippedItems,
      Scalar.Unclipped]
  have hother : Legible {} {} none [.document []] [[]] := by
    refine ⟨rfl, hs, rfl, by decide, ?_⟩
    simp [Root.tree, Tree.Unclipped, Tree.UnclippedFields]
  obtain ⟨w, delivered, hw, hheld, hread, hunique⟩ := @forest_read_back {} none {} [] _ _ h
  refine ⟨h, w, delivered, hw, hheld, hread, fun w' hw' he => ?_⟩
  have hd := hunique hother hw' he
  cases hd

end BsonWriter
