import BsonWriter.Proofs.Wire.Reader
import BsonWriter.Session

/-!
Documents in progress, as a stack of frames: the containers that have begun and not
ended, innermost first, each with the fields it has so far. `layout` is what stands of
them in the output, with zero for every length that is still open, and `ended` what
becomes of it when every container is ended just as it is. Without the scopes of code
that is a document (`exists_document`); a scope that is ended this way leaves the total
length of its value at zero (`total_ended`).
-/

namespace BsonWriter

open WireValue (content element encodings content_cons content_append ReadableFields
  readableFields_append)

/-- What a finished container is. -/
def Shape.value : Shape → Fields → WireValue
  | document => .document
  | array => .array

@[simp] theorem Shape.type_value (shape : Shape) (fields : Fields) :
    (shape.value fields).type = shape.elementType := by
  cases shape <;> rfl

@[simp] theorem Shape.payload_value (shape : Shape) (fields : Fields) :
    (shape.value fields).payload = enclosed (content fields) := by
  cases shape <;> rw [value, WireValue.payload]

theorem Shape.readable_value {shape : Shape} {fields : Fields} :
    (shape.value fields).Readable ↔ ReadableFields fields := by
  cases shape <;> rw [value, WireValue.Readable]

/-- A container in progress with the fields that it has so far: one outside of all
others, one in another container, or the scope of code. -/
inductive Frame
  | root (shape : Shape) (fields : Fields)
  | nested (key : String) (shape : Shape) (fields : Fields)
  | scope (key text : String) (fields : Fields)

namespace Frame

def shape : Frame → Shape
  | root shape _ | nested _ shape _ => shape
  | scope .. => .document

def fields : Frame → Fields
  | root _ fields | nested _ _ fields | scope _ _ fields => fields

def IsRoot : Frame → Prop
  | root .. => True
  | nested .. | scope .. => False

/-- What stands between the fields around a container and its length field. -/
def lead : Frame → Bytes
  | root .. => []
  | nested key shape _ => shape.elementType.tag :: terminated key
  | scope key text _ =>
    ElementType.javaScriptCodeWithScope.tag ::
      (terminated key ++ (lengthField 0 ++ prefixed text))

/-- The frame with one more field. -/
def put (key : String) (v : WireValue) : Frame → Frame
  | root shape fields => root shape (fields ++ [(key, v)])
  | nested name shape fields => nested name shape (fields ++ [(key, v)])
  | scope name text fields => scope name text (fields ++ [(key, v)])

/-- What the frame has can be read back. -/
def Readable : Frame → Prop
  | root _ fields => ReadableFields fields
  | nested key _ fields | scope key _ fields => '\x00' ∉ key.toList ∧ ReadableFields fields

variable (f : Frame) (key : String) (v : WireValue)

@[simp] theorem shape_put : (f.put key v).shape = f.shape := by cases f <;> rfl

@[simp] theorem lead_put : (f.put key v).lead = f.lead := by cases f <;> rfl

@[simp] theorem isRoot_put : (f.put key v).IsRoot ↔ f.IsRoot := by cases f <;> rfl

@[simp] theorem fields_put : (f.put key v).fields = f.fields ++ [(key, v)] := by cases f <;> rfl

theorem Readable.put {f : Frame} {key : String} {v : WireValue} (h : f.Readable)
    (hk : '\x00' ∉ key.toList) (hv : v.Readable) : (f.put key v).Readable := by
  have hone : ReadableFields [(key, v)] := ⟨hk, hv, trivial⟩
  cases f with
  | root shape fields => exact readableFields_append.mpr ⟨h, hone⟩
  | nested name shape fields => exact ⟨h.1, readableFields_append.mpr ⟨h.2, hone⟩⟩
  | scope name text fields => exact ⟨h.1, readableFields_append.mpr ⟨h.2, hone⟩⟩

end Frame

namespace Draft

/-! ## In the output -/

/-- The bytes of the frames so far. -/
def layout : List Frame → Bytes
  | [] => []
  | f :: outer => layout outer ++ (f.lead ++ (lengthField 0 ++ content f.fields))

/-- Where the length fields of the frames lie, in an output that has `base` bytes before
them. -/
def headers (base : Nat) : List Frame → List Nat
  | [] => []
  | f :: outer => (base + (layout outer).length + f.lead.length) :: headers base outer

/-- The marks of the scopes among the frames. -/
def marks (base : Nat) : List Frame → List ScopeMark
  | [] => []
  | .scope key _ _ :: outer =>
    ⟨base + (layout outer).length + 1 + (terminated key).length, outer.length + 1⟩ ::
      marks base outer
  | _ :: outer => marks base outer

/-- Only the outermost frame is a root. -/
def Nested : List Frame → Prop
  | [] => True
  | f :: outer => (f.IsRoot ↔ outer = []) ∧ Nested outer

theorem layout_put (f : Frame) (key : String) (v : WireValue) (outer : List Frame) :
    layout (f.put key v :: outer) = layout (f :: outer) ++ element key v := by
  have hone : content [(key, v)] = element key v := by
    rw [content_cons, content, List.append_nil]
  simp only [layout, Frame.lead_put, Frame.fields_put, content_append, hone,
    List.append_assoc]

theorem headers_put (base : Nat) (f : Frame) (key : String) (v : WireValue) (outer : List Frame) :
    headers base (f.put key v :: outer) = headers base (f :: outer) := by
  rw [headers, headers, Frame.lead_put]

theorem marks_put (base : Nat) (f : Frame) (key : String) (v : WireValue) (outer : List Frame) :
    marks base (f.put key v :: outer) = marks base (f :: outer) := by
  cases f <;> rfl

theorem nested_put {f : Frame} {outer : List Frame} (h : Nested (f :: outer)) (key : String)
    (v : WireValue) : Nested (f.put key v :: outer) :=
  ⟨(f.isRoot_put key v).trans h.1, h.2⟩

theorem length_headers (base : Nat) (frames : List Frame) :
    (headers base frames).length = frames.length := by
  induction frames with
  | nil => rfl
  | cons f outer ih => rw [headers, List.length_cons, List.length_cons, ih]

/-- A scope is no deeper than the frames are. -/
theorem depth_le_of_mem_marks {base : Nat} {frames : List Frame} {mark : ScopeMark}
    (h : mark ∈ marks base frames) : mark.depth ≤ frames.length := by
  induction frames with
  | nil => cases h
  | cons f outer ih =>
    cases f with
    | scope key text fields =>
      rcases List.mem_cons.mp h with rfl | h
      · exact Nat.le_refl _
      · exact Nat.le_succ_of_le (ih h)
    | root shape fields => exact Nat.le_succ_of_le (ih h)
    | nested key shape fields => exact Nat.le_succ_of_le (ih h)

/-! ## Ended as they are -/

/-- The bytes of the frames when all of them are ended; `tail` comes at the end of the
innermost. -/
def ended : List Frame → Bytes → Bytes
  | [], tail => tail
  | f :: outer, tail => ended outer (f.lead ++ enclosed (content f.fields ++ tail))

/-- The end of the frames writes something around and behind the tail, and nothing that
moves it. -/
theorem exists_ended (frames : List Frame) (tail : Bytes) : ∃ front back,
    ended frames tail = front ++ tail ++ back ∧ front.length = (layout frames).length := by
  induction frames generalizing tail with
  | nil => exact ⟨[], [], by simp [ended], rfl⟩
  | cons f outer ih =>
    obtain ⟨front, back, he, hl⟩ := ih (f.lead ++ enclosed (content f.fields ++ tail))
    let length := (content f.fields ++ tail).length + 5
    refine ⟨front ++ (f.lead ++ (lengthField length ++ content f.fields)), [0] ++ back, ?_, ?_⟩
    · rw [ended, he, enclosed]
      simp only [length, List.append_assoc]
    · simp only [layout, List.length_append, hl, length_lengthField]

/-- The end of a frame adds one byte to what is there. -/
theorem length_ended (frames : List Frame) (tail : Bytes) :
    (ended frames tail).length = (layout frames).length + tail.length + frames.length := by
  induction frames generalizing tail with
  | nil => simp [ended, layout]
  | cons f outer ih =>
    rw [ended, layout, ih]
    simp only [List.length_append, List.length_cons, length_enclosed, length_lengthField]
    omega

/-- A scope that is ended as it is keeps the zero of the total length of its value. -/
theorem total_ended {base : Nat} {frames : List Frame} {mark : ScopeMark}
    (h : mark ∈ marks base frames) (tail : Bytes) : base ≤ mark.start ∧
      ((ended frames tail).drop (mark.start - base)).take 4 = lengthField 0 := by
  induction frames generalizing tail with
  | nil => cases h
  | cons f outer ih =>
    cases f with
    | scope key text fields =>
      rcases List.mem_cons.mp h with rfl | h
      · obtain ⟨front, back, he, hl⟩ := exists_ended outer
          ((Frame.scope key text fields).lead ++ enclosed (content fields ++ tail))
        let type := ElementType.javaScriptCodeWithScope.tag
        have hsplit : ended (.scope key text fields :: outer) tail =
            (front ++ type :: terminated key) ++
              (lengthField 0 ++ (prefixed text ++ enclosed (content fields ++ tail) ++ back)) := by
          rw [ended, Frame.fields, he, Frame.lead]
          simp only [type, List.append_assoc, List.cons_append]
        have hlength : base + (layout outer).length + 1 + (terminated key).length - base =
            (front ++ type :: terminated key).length := by
          rw [List.length_append, List.length_cons, hl]
          omega
        refine ⟨by simp only; omega, ?_⟩
        rw [hsplit, hlength, List.drop_left, List.take_append_of_le_length (by simp),
          List.take_of_length_le (by simp)]
      · exact ih h _
    | root shape fields => exact ih h _
    | nested key shape fields => exact ih h _

/-- Frames without a scope become a document. -/
theorem exists_document {base : Nat} {frames : List Frame} (hf : frames ≠ [])
    (hn : Nested frames) (hm : marks base frames = []) (hr : ∀ f ∈ frames, f.Readable)
    {tail : Fields} (ht : ReadableFields tail) :
    ∃ document, ended frames (content tail) = enclosed (content document) ∧
      ReadableFields document := by
  induction frames generalizing tail with
  | nil => exact absurd rfl hf
  | cons f outer ih =>
    have hread := hr f List.mem_cons_self
    rw [ended, ← content_append]
    cases f with
    | root shape fields =>
      have houter : outer = [] := hn.1.mp trivial
      subst houter
      exact ⟨fields ++ tail, rfl, readableFields_append.mpr ⟨hread, ht⟩⟩
    | nested key shape fields =>
      have houter : outer ≠ [] := fun ho => hn.1.mpr ho
      have hvalue : (shape.value (fields ++ tail)).Readable :=
        Shape.readable_value.mpr (readableFields_append.mpr ⟨hread.2, ht⟩)
      have hone : content [(key, shape.value (fields ++ tail))] =
          (Frame.nested key shape fields).lead ++ enclosed (content (fields ++ tail)) := by
        rw [content_cons, content, element, Shape.type_value, Shape.payload_value, Frame.lead,
          List.append_nil]
        rfl
      rw [Frame.fields, ← hone]
      exact ih houter hn.2 hm (fun g hg => hr g (List.mem_cons_of_mem _ hg))
        ⟨hread.1, hvalue, trivial⟩
    | scope key text fields => cases hm

end Draft

/-! ## Drafts -/

/-- What a session that keeps its output has here: finished documents, and the frames of
one in progress. The sink holds `delivered`, and `gone` bytes of that are from this
session, whose storage is as `keeps` and `spare` say. -/
structure Draft where
  delivered : Bytes
  gone : Nat
  keeps : Bool
  spare : Nat
  done : List Fields
  frames : List Frame

namespace Draft

def buffer (d : Draft) : Buffer :=
  ⟨d.gone, encodings d.done ++ layout d.frames, d.keeps, d.spare⟩

/-- Where the frames begin. -/
def base (d : Draft) : Nat := d.gone + (encodings d.done).length

def expectations (d : Draft) : List Expectation := d.frames.map fun f => f.shape.expectation

/-- The draft with one more frame. -/
def push (d : Draft) (f : Frame) : Draft := { d with frames := f :: d.frames }

/-- The draft with one more field in its innermost frame. -/
def put (d : Draft) (key : String) (v : WireValue) : Draft :=
  match d.frames with
  | [] => d
  | f :: outer => { d with frames := f.put key v :: outer }

/-- The draft with other frames, which are those around its innermost one. -/
def around (d : Draft) (outer : List Frame) : Draft := { d with frames := outer }

/-- The draft when its innermost frame is finished. -/
def finish (d : Draft) : Draft :=
  match d.frames with
  | [] => d
  | .root _ fields :: outer => { d with done := d.done ++ [fields], frames := outer }
  | .nested key shape fields :: outer => (d.around outer).put key (shape.value fields)
  | .scope key text fields :: outer => (d.around outer).put key (.codeWithScope text fields)

/-- Documents that can be read back. -/
def Finished (documents : List Fields) : Prop :=
  ∀ document ∈ documents, ReadableFields document ∧
    (enclosed (content document)).length < lengthBound

theorem Finished.append {a b : List Fields} (ha : Finished a) (hb : Finished b) :
    Finished (a ++ b) := fun document hm =>
  (List.mem_append.mp hm).elim (ha document) (hb document)

theorem finished_singleton {document : Fields} (hr : ReadableFields document)
    (hl : (enclosed (content document)).length < lengthBound) : Finished [document] := by
  intro other hm
  rw [List.mem_singleton.mp hm]
  exact ⟨hr, hl⟩

/-- What is finished and what is in progress can be read back as far as it goes. -/
structure Valid (d : Draft) : Prop where
  nested : Nested d.frames
  readable : ∀ f ∈ d.frames, f.Readable
  finished : Finished d.done

variable {d : Draft}

@[simp] theorem delivered_put (key : String) (v : WireValue) :
    (d.put key v).delivered = d.delivered := by
  unfold put
  split <;> rfl

@[simp] theorem gone_put (key : String) (v : WireValue) : (d.put key v).gone = d.gone := by
  unfold put
  split <;> rfl

@[simp] theorem done_put (key : String) (v : WireValue) : (d.put key v).done = d.done := by
  unfold put
  split <;> rfl

@[simp] theorem base_put (key : String) (v : WireValue) : (d.put key v).base = d.base := by
  rw [base, base, gone_put, done_put]

theorem delivered_finish : d.finish.delivered = d.delivered := by
  unfold finish
  split <;> simp [around]

theorem gone_finish : d.finish.gone = d.gone := by
  unfold finish
  split <;> simp [around]

section Put

variable (hf : d.frames ≠ []) (key : String) (v : WireValue)
include hf

theorem exists_put : ∃ f outer, d.frames = f :: outer ∧
    d.put key v = { d with frames := f.put key v :: outer } := by
  obtain ⟨f, outer, hframes⟩ := List.exists_cons_of_ne_nil hf
  exact ⟨f, outer, hframes, by rw [put, hframes]⟩

theorem buffer_put : (d.put key v).buffer = d.buffer.append (element key v) := by
  obtain ⟨f, outer, hframes, hput⟩ := exists_put hf key v
  rw [hput, buffer, buffer, hframes, layout_put, ← List.append_assoc]
  rfl

theorem headers_base_put : headers (d.put key v).base (d.put key v).frames =
    headers d.base d.frames := by
  obtain ⟨f, outer, hframes, hput⟩ := exists_put hf key v
  rw [base_put, hput, hframes, headers_put]

theorem marks_base_put : marks (d.put key v).base (d.put key v).frames =
    marks d.base d.frames := by
  obtain ⟨f, outer, hframes, hput⟩ := exists_put hf key v
  rw [base_put, hput, hframes, marks_put]

theorem expectations_put : (d.put key v).expectations = d.expectations := by
  obtain ⟨f, outer, hframes, hput⟩ := exists_put hf key v
  rw [hput, expectations, expectations, hframes, List.map_cons, List.map_cons, Frame.shape_put]

theorem Valid.put (h : d.Valid) (hk : '\x00' ∉ key.toList) (hv : v.Readable) :
    (d.put key v).Valid := by
  obtain ⟨f, outer, hframes, hput⟩ := exists_put hf key v
  obtain ⟨hn, hr, hd⟩ := h
  rw [hframes] at hn hr
  rw [hput]
  refine ⟨nested_put hn key v, fun g hg => ?_, hd⟩
  rcases List.mem_cons.mp hg with rfl | hg
  · exact (hr f List.mem_cons_self).put hk hv
  · exact hr g (List.mem_cons_of_mem _ hg)

end Put

theorem Valid.push (h : d.Valid) {f : Frame} (hroot : f.IsRoot ↔ d.frames = [])
    (hf : f.Readable) : (d.push f).Valid := by
  refine ⟨⟨hroot, h.nested⟩, fun g hg => ?_, h.finished⟩
  rcases List.mem_cons.mp hg with rfl | hg
  · exact hf
  · exact h.readable g hg

/-- A document is finished. -/
theorem Valid.finish_root (h : d.Valid) {shape : Shape} {fields : Fields}
    (hf : d.frames = [.root shape fields])
    (hl : (enclosed (content fields)).length < lengthBound) : d.finish.Valid := by
  have hr : ReadableFields fields := h.readable (.root shape fields) (by rw [hf]; simp)
  have hfinish : d.finish = { d with done := d.done ++ [fields], frames := [] } := by
    rw [finish, hf]
  rw [hfinish]
  exact ⟨trivial, by simp, h.finished.append (finished_singleton hr hl)⟩

/-- What is around the innermost frame. -/
theorem Valid.around (h : d.Valid) {f : Frame} {outer : List Frame}
    (hf : d.frames = f :: outer) : (d.around outer).Valid := by
  obtain ⟨hn, hr, hd⟩ := h
  rw [hf] at hn hr
  exact ⟨hn.2, fun g hg => hr g (List.mem_cons_of_mem _ hg), hd⟩

end Draft

end BsonWriter
