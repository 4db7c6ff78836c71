import ParticleFx.Json.Codec

namespace ParticleFx.Json

-- A named part of a record, and the value it takes when it is left out.
structure Field (α : Type) where
  name : String
  codec : Codec α
  absent : Option α

-- The parts of a record in order.
inductive Fields : List Type → Type 1 where
  | nil : Fields []
  | cons {α : Type} {αs : List Type} (field : Field α) (rest : Fields αs) : Fields (α :: αs)

-- The values of all parts.
def Row : List Type → Type
  | [] => Unit
  | α :: αs => α × Row αs

-- The values met so far.
def Slots : List Type → Type
  | [] => Unit
  | α :: αs => Option α × Slots αs

namespace Fields

-- A part that must be there.
def required {α : Type} {αs : List Type} (name : String) (codec : Codec α) (rest : Fields αs) :
    Fields (α :: αs) :=
  .cons ⟨name, codec, none⟩ rest

-- A part that may be left out.
def optional {α : Type} {αs : List Type} (name : String) (codec : Codec α) (absent : α)
    (rest : Fields αs) : Fields (α :: αs) :=
  .cons ⟨name, codec, some absent⟩ rest

def names : {αs : List Type} → Fields αs → List String
  | _, .nil => []
  | _, .cons field rest => field.name :: rest.names

def count {αs : List Type} (fields : Fields αs) : Nat :=
  fields.names.length

def write : {αs : List Type} → Fields αs → Row αs → List (String × Datum)
  | _, .nil, _ => []
  | _, .cons field rest, (a, row) => (field.name, field.codec.write a) :: rest.write row

def noSlots : (αs : List Type) → Slots αs
  | [] => ()
  | _ :: αs => (none, noSlots αs)

-- Takes in one member; `none` if no part has its name. A repeated name is found before the
-- value is looked at.
def put (origin : Origin) (name : String) (value : Json) :
    {αs : List Type} → Fields αs → Slots αs → Option (Except DecodeError (Slots αs))
  | _, .nil, _ => none
  | _, .cons field rest, (slot, slots) =>
    if name = field.name then
      match slot with
      | some _ => some (.error (.duplicateField name))
      | none => some ((field.codec.read origin value).map fun a => (some a, slots))
    else (rest.put origin name value slots).map fun r => r.map fun slots => (slot, slots)

-- What was not met takes its absent value; the first part without one is missed.
def complete : {αs : List Type} → Fields αs → Slots αs → Except DecodeError (Row αs)
  | _, .nil, _ => .ok ()
  | _, .cons field rest, (slot, slots) =>
    match slot.or field.absent with
    | none => .error (.missingField field.name)
    | some a => (rest.complete slots).map fun row => (a, row)

end Fields

-- A record written as an object. A strict one has no members but its parts.
structure Record (αs : List Type) where
  name : String
  fields : Fields αs
  strict : Bool

namespace Record

variable {αs : List Type}

def expected (r : Record αs) : String :=
  "struct " ++ r.name

-- A number of things in words.
def counted (n : Nat) : String :=
  if n = 1 then "1 element" else s!"{n} elements"

-- Members in document order.
def readMembers (r : Record αs) (origin : Origin) :
    Members → Slots αs → Except DecodeError (Slots αs)
  | .closed, slots => .ok slots
  | .cut trouble, _ => .error (.malformed trouble.reading)
  | .cons (.error why) _ _, _ => .error (.malformed why)
  | .cons (.ok name) value rest, slots =>
    match r.fields.put origin name value slots with
    | some (.error e) => .error e
    | some (.ok slots) => r.readMembers origin rest slots
    | none =>
      if r.strict then .error (.unknownField name r.fields.names)
      else
        match value.skim with
        | some why => .error (.malformed why)
        | none => r.readMembers origin rest slots

-- What is wrong with the end of a list whose wanted items have all been read.
def afterLast (origin : Origin) (total wanted : Nat) : Items → Option DecodeError
  | .closed => none
  | rest =>
    match origin, rest with
    | .tree, _ => some (.invalidLength total "fewer elements in array")
    | .buffered, _ => some (.invalidLength total (counted wanted ++ " in sequence"))
    | .text _, .cut trouble =>
      let why := trouble.reading
      some (.malformed (if why = .endInList ∨ why = .trailingComma then why else .trailingCharacters))
    | .text _, _ => some (.malformed .trailingCharacters)

-- Items stand for the parts in order; parts at the end may be left out if they have absent values.
def readItems (origin : Origin) (total : Nat) (tooShort : Nat → DecodeError) :
    {αs : List Type} → Nat → Fields αs → Items → Except DecodeError (Row αs)
  | _, index, .nil, rest =>
    match afterLast origin total index rest with
    | some e => .error e
    | none => .ok ()
  | _, index, .cons field fields, .cons item rest => do
    let a ← field.codec.read origin item
    let row ← readItems origin total tooShort (index + 1) fields rest
    return (a, row)
  | _, index, .cons field fields, .closed =>
    match field.absent with
    | none => .error (tooShort index)
    | some a => (readItems origin total tooShort (index + 1) fields .closed).map fun row => (a, row)
  | _, _, .cons _ _, .cut trouble => .error (.malformed trouble.reading)

def read (r : Record αs) (origin : Origin) (j : Json) : Except DecodeError (Row αs) :=
  match j with
  | .object members => do
    let slots ← r.readMembers origin.inner members (Fields.noSlots αs)
    r.fields.complete slots
  | .array items =>
    let tooShort n := .invalidLength n (r.expected ++ " with " ++ counted r.fields.count)
    readItems origin.inner items.length tooShort 0 r.fields items
  | _ => .error (misfit r.expected j)

-- A record stands for a type whose values are taken apart and put together again.
def codec {α : Type} (r : Record αs) (parts : α → Row αs) (build : Row αs → α) : Codec α where
  write a := .record (r.fields.write (parts a))
  read origin j := (r.read origin j).map build

end Record

end ParticleFx.Json
