import BsonWriter.Proofs.Run.Failure

/-!
The parts of a datum: the calls that a caller would make for it one by one, and its own
errors where they arise. Writing a datum is carrying out its parts up to the first that
fails (`madeOf_datum`).
-/

namespace BsonWriter

/-- A part of a datum: a call, or an error of the datum's own in the place of one. -/
inductive Part
  | call (c : Call)
  | fault (cause : Cause)

namespace Part

/-- An error of the datum fails the session like one of a call. -/
def action : Part → Action Unit
  | call c => c.action
  | fault cause => Action.tracked (Action.raise cause)

def scalar (value : Scalar) : Part := call (.write .direct value)

def name (text : String) : Part := call (.fieldName text)

/-- The parts of a container, around those of its content. -/
def container (shape : Shape) (content : List Part) : List Part :=
  call (.beginContainer .direct shape) :: (content ++ [call (.endContainer shape)])

/-- Carries out the parts up to the first that fails. -/
def carryOut : List Part → Action Unit
  | [] => pure ()
  | part :: rest => do
    part.action
    carryOut rest

theorem carryOut_append (ps qs : List Part) :
    carryOut (ps ++ qs) = (do carryOut ps; carryOut qs) := by
  induction ps with
  | nil => rfl
  | cons part ps ih => rw [List.cons_append, carryOut, carryOut, ih, bind_assoc]

end Part

namespace Datum

/-- An integer as milliseconds, if it is to be read so and is of the type of milliseconds. -/
def integerPart (reading : Reading) (v : TypedInteger) : Part :=
  if reading = .dateTime ∧ v.type = .int64 then .scalar (.dateTime ⟨Int64.ofInt v.value⟩)
  else .scalar (integerScalar v)

/-- A text as an object id, if it is to be read so. It may fail to be one. -/
def textPart (reading : Reading) (s : String) : Part :=
  if reading = .objectId then
    match ObjectId.parse s with
    | .ok id => .scalar (.objectId id)
    | .error fault => .fault (.badObjectId fault)
  else .scalar (.string s)

def keyPart (d : Datum) : Part :=
  match d.keyText with
  | .ok key => .name key
  | .error cause => .fault cause

mutual

/-- The parts of a datum. -/
def parts (reading : Reading) : Datum → List Part
  | boolean b => [.scalar (.boolean b)]
  | integer v => [integerPart reading v]
  | single x => [.scalar (.single x)]
  | double x => [.scalar (.double x)]
  | character c => [textPart reading c.toString]
  | text s => [textPart reading s]
  | bytes bs => [.scalar (.binary .generic bs)]
  | empty _ => [.scalar .null]
  | present d => d.parts reading
  | wrapper name d => d.parts (reading.inside name)
  | choice name => [textPart reading name]
  | tagged _ name d => Part.container .document (.name name :: d.parts .plain)
  | sequence _ items => Part.container .array (itemParts items)
  | taggedSequence _ name items =>
    Part.container .document (.name name :: Part.container .array (itemParts items))
  | map steps =>
    if reading = .fields then stepParts steps else Part.container .document (stepParts steps)
  | record _ fields =>
    if reading = .fields then fieldParts fields else Part.container .document (fieldParts fields)
  | taggedRecord _ name fields =>
    Part.container .document (.name name :: Part.container .document (fieldParts fields))
  | audience => [.scalar (.boolean false)]
  | refusal message => [.fault (.custom message)]

def itemParts : List Datum → List Part
  | [] => []
  | d :: rest => d.parts .plain ++ itemParts rest

def stepParts : List (MapStep × Datum) → List Part
  | [] => []
  | (.key, d) :: rest => d.keyPart :: stepParts rest
  | (.value, d) :: rest => d.parts .plain ++ stepParts rest

def fieldParts : List (String × Datum) → List Part
  | [] => []
  | (name, d) :: rest => .name name :: (d.parts .plain ++ fieldParts rest)

end

end Datum

/-! ## Errors that end the use of a session -/

namespace Action

variable {α β : Type}

theorem tracked_andThen (a : Action β) (f : β → Action α) :
    tracked (a >>= f) = tracked a >>= fun x => tracked (f x) := by
  funext w
  show (tracked (a >>= f)).run w = (tracked a >>= fun x => tracked (f x)).run w
  rw [run_tracked, run_andThen, run_andThen, run_tracked]
  cases a.run w <;> rfl

theorem tracked_of_stops {a : Action α} (h : a.Stops) : tracked a = a := by
  funext w
  show (tracked a).run w = a.run w
  rw [run_tracked]
  cases hr : a.run w with
  | ok x w' => rfl
  | error e w' =>
    show EStateM.Result.error e w'.fail = .error e w'
    rw [Writer.fail_of_stopped ((h w).of_error hr)]

theorem stops_write (value : Scalar) : (write .direct value).Stops :=
  stops_andThen (stops_tracked _) fun _ => stops_tracked _

theorem stops_beginContainer (shape : Shape) : (beginContainer .direct shape).Stops :=
  stops_andThen (stops_tracked _) fun _ => stops_tracked _

/-- The action is carrying out the parts, once an error in it ends the use of the session. -/
def MadeOf (a : Action Unit) (parts : List Part) : Prop := tracked a = Part.carryOut parts

theorem madeOf_nothing : MadeOf (pure ()) [] := rfl

theorem madeOf_part {a : Action Unit} {part : Part} (h : tracked a = part.action) :
    MadeOf a [part] := by
  rw [MadeOf, h, Part.carryOut, Part.carryOut, bind_pure]

theorem madeOf_call {c : Call} (h : c.action.Stops) : MadeOf c.action [.call c] :=
  madeOf_part (tracked_of_stops h)

theorem MadeOf.andThen {a b : Action Unit} {ps qs : List Part} (ha : MadeOf a ps)
    (hb : MadeOf b qs) : MadeOf (do a; b) (ps ++ qs) := by
  rw [MadeOf, tracked_andThen, Part.carryOut_append, ha, hb]

theorem madeOf_scalar (value : Scalar) : MadeOf (write .direct value) [.scalar value] :=
  @madeOf_call (.write .direct value) (stops_write value)

theorem madeOf_name (text : String) : MadeOf (fieldName text) [.name text] :=
  @madeOf_call (.fieldName text) (stops_tracked _)

theorem madeOf_begin (shape : Shape) :
    MadeOf (beginContainer .direct shape) [.call (.beginContainer .direct shape)] :=
  @madeOf_call (.beginContainer .direct shape) (stops_beginContainer shape)

theorem madeOf_end (shape : Shape) : MadeOf (endContainer shape) [.call (.endContainer shape)] :=
  @madeOf_call (.endContainer shape) (stops_endContainer shape)

theorem madeOf_fault (cause : Cause) : MadeOf (raise cause) [.fault cause] := madeOf_part rfl

theorem MadeOf.container {inner : Action Unit} {content : List Part} (h : MadeOf inner content)
    (shape : Shape) :
    MadeOf (do beginContainer .direct shape; inner; endContainer shape)
      (Part.container shape content) :=
  (madeOf_begin shape).andThen (h.andThen (madeOf_end shape))

theorem MadeOf.named {inner : Action Unit} {content : List Part} (h : MadeOf inner content)
    (name : String) : MadeOf (do fieldName name; inner) (.name name :: content) :=
  (madeOf_name name).andThen h

end Action

/-! ## Data -/

namespace Datum

open BsonWriter.Action

theorem madeOf_writeInteger (reading : Reading) (v : TypedInteger) :
    MadeOf (writeInteger reading v) [integerPart reading v] := by
  unfold writeInteger integerPart
  split
  · exact madeOf_scalar _
  · exact madeOf_scalar _

theorem madeOf_writeText (reading : Reading) (s : String) :
    MadeOf (writeText reading s) [textPart reading s] := by
  unfold writeText textPart
  split
  · cases ObjectId.parse s with
    | ok id => exact madeOf_scalar _
    | error fault => exact madeOf_fault _
  · exact madeOf_scalar _

theorem madeOf_writeKey (d : Datum) : MadeOf d.writeKey [d.keyPart] := by
  unfold writeKey keyPart
  cases d.keyText with
  | ok key => exact madeOf_name key
  | error cause => exact madeOf_fault cause

/-- A document of one field around something. -/
theorem madeOf_alternative {inner : Action Unit} {content : List Part} (h : MadeOf inner content)
    (name : String) : MadeOf (do beginDocument; fieldName name; inner; endDocument)
      (Part.container .document (.name name :: content)) := by
  have hd := (h.named name).container .document
  rwa [bind_assoc] at hd

mutual

/-- Writing a datum is carrying out its parts. -/
theorem madeOf_datum (reading : Reading) : (d : Datum) → MadeOf (d.write reading) (d.parts reading)
  | boolean _ | single _ | double _ | bytes _ | empty _ | audience => madeOf_scalar _
  | integer v => madeOf_writeInteger reading v
  | character c => madeOf_writeText reading c.toString
  | text s => madeOf_writeText reading s
  | choice name => madeOf_writeText reading name
  | refusal _ => madeOf_fault _
  | present d => by
    rw [write, parts]
    exact madeOf_datum reading d
  | wrapper name d => by
    rw [write, parts]
    exact madeOf_datum _ d
  | tagged _ name d => by
    rw [write, parts]
    exact madeOf_alternative (madeOf_datum .plain d) name
  | sequence _ items => by
    rw [write, parts]
    exact (madeOf_items items).container .array
  | taggedSequence _ name items => by
    rw [write, parts]
    have h := madeOf_alternative ((madeOf_items items).container .array) name
    simp only [bind_assoc] at h
    exact h
  | map steps => by
    rw [write, parts]
    split
    · exact madeOf_steps steps
    · exact (madeOf_steps steps).container .document
  | record _ fields => by
    rw [write, parts]
    split
    · exact madeOf_fields fields
    · exact (madeOf_fields fields).container .document
  | taggedRecord _ name fields => by
    rw [write, parts]
    have h := madeOf_alternative ((madeOf_fields fields).container .document) name
    simp only [bind_assoc] at h
    exact h

theorem madeOf_items : (items : List Datum) → MadeOf (writeItems items) (itemParts items)
  | [] => madeOf_nothing
  | d :: rest => by
    rw [writeItems, itemParts]
    exact (madeOf_datum .plain d).andThen (madeOf_items rest)

theorem madeOf_steps : (steps : List (MapStep × Datum)) →
    MadeOf (writeSteps steps) (stepParts steps)
  | [] => madeOf_nothing
  | (.key, d) :: rest => by
    rw [writeSteps, stepParts]
    exact (madeOf_writeKey d).andThen (madeOf_steps rest)
  | (.value, d) :: rest => by
    rw [writeSteps, stepParts]
    exact (madeOf_datum .plain d).andThen (madeOf_steps rest)

theorem madeOf_fields : (fields : List (String × Datum)) →
    MadeOf (writeFields fields) (fieldParts fields)
  | [] => madeOf_nothing
  | (name, d) :: rest => by
    rw [writeFields, fieldParts]
    exact ((madeOf_datum .plain d).andThen (madeOf_fields rest)).named name

end

end Datum

end BsonWriter
