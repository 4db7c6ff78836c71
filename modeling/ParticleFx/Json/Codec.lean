import ParticleFx.Json.Datum
import ParticleFx.Json.DecodeError
import ParticleFx.Json.Parser

namespace ParticleFx.Json

-- Where the tree under the reader came from. A text may nest `room` levels further.
inductive Origin where
  | text (room : Nat)
  | tree
  | buffered

def Origin.inner : Origin → Origin
  | .text room => .text (room - 1)
  | other => other

-- Writing a value and reading it back.
structure Codec (α : Type) where
  write : α → Datum
  read : Origin → Json → Except DecodeError α

def found : Json → Except Malformed Found
  | .null => .ok .null
  | .bool b => .ok (.bool b)
  | .number l =>
    match l.number? with
    | some (.integer n) => .ok (.integer n)
    | some (.real x) => .ok (.real x)
    | none => .error .numberOutOfRange
  | .string s => s.map .string
  | .array _ => .ok .sequence
  | .object _ => .ok .map
  | .broken trouble => .error trouble.reading

-- The error for a value of another kind; a list or an object is not looked into.
def misfit (expected : String) (j : Json) : DecodeError :=
  match found j with
  | .ok what => .invalidType what expected
  | .error why => .malformed why

namespace Codec

-- Whole numbers below a limit.
def natural (limit : Nat) (name : String) : Codec Nat where
  write n := .integer n
  read _ j :=
    match found j with
    | .ok (.integer n) =>
      if 0 ≤ n ∧ n < limit then .ok n.toNat else .error (.invalidValue n name)
    | _ => .error (misfit name j)

def byte : Codec UInt8 where
  write n := .integer n.toNat
  read origin j := ((natural 256 "u8").read origin j).map Nat.toUInt8

def word32 : Codec Nat := natural UInt32.size "u32"
def word64 : Codec Nat := natural UInt64.size "u64"
def size : Codec Nat := natural UInt64.size "usize"

def double : Codec Float where
  write := .double
  read _ j :=
    match found j with
    | .ok (.integer n) => .ok (Float.ofInt n)
    | .ok (.real x) => .ok x
    | _ => .error (misfit "f64" j)

def single : Codec Float32 where
  write := .single
  read _ j :=
    match found j with
    | .ok (.integer n) => .ok (Float32.ofInt n)
    | .ok (.real x) => .ok (narrow x)
    | _ => .error (misfit "f32" j)

def boolean : Codec Bool where
  write := .bool
  read _ j :=
    match j with
    | .bool b => .ok b
    | _ => .error (misfit "a boolean" j)

-- Null stands for no value.
def optional {α : Type} (c : Codec α) : Codec (Option α) where
  write
    | none => .null
    | some a => c.write a
  read origin j :=
    match j with
    | .null => .ok none
    | _ => (c.read origin j).map some

def readItems {α : Type} (c : Codec α) (origin : Origin) : Items → Except DecodeError (List α)
  | .closed => .ok []
  | .cut trouble => .error (.malformed trouble.reading)
  | .cons item rest => do
    let a ← c.read origin item
    let as ← readItems c origin rest
    return a :: as

def list {α : Type} (c : Codec α) : Codec (List α) where
  write as := .list (as.map c.write)
  read origin j :=
    match j with
    | .array items => readItems c origin.inner items
    | _ => .error (misfit "a sequence" j)

-- The choice called `name`.
def pick {α : Type} (choices : List (String × α)) (name : String) : Except DecodeError α :=
  match choices.lookup name with
  | some a => .ok a
  | none => .error (.unknownVariant name (choices.map Prod.fst))

-- A choice is written by its name, and may also be read from an object that maps its name to null.
def readChoice {α : Type} (choices : List (String × α)) (j : Json) : Except DecodeError α :=
  match j with
  | .string (.ok name) => pick choices name
  | .string (.error why) => .error (.malformed why)
  | .object (.cut trouble) => .error (.malformed trouble.reading)
  | .object (.cons (.error why) _ _) => .error (.malformed why)
  | .object (.cons (.ok name) value rest) => do
    let a ← pick choices name
    match value, rest with
    | .null, .closed => .ok a
    | .null, .cut trouble =>
      .error (.malformed (if trouble.reading = .endInObject then .endInObject else .expectedValue))
    | .null, .cons .. => .error (.malformed .expectedValue)
    | _, _ => .error (misfit "unit" value)
  | .broken trouble => .error (.malformed trouble.naming)
  | _ => .error (.malformed .expectedValue)

-- The bare name of a choice.
def readName {α : Type} (choices : List (String × α)) (j : Json) : Except DecodeError α :=
  match j with
  | .string (.ok name) => pick choices name
  | _ => .error (misfit "variant identifier" j)

-- Reads a text that holds one value and nothing else. What follows the value is judged last.
def ofText {α : Type} (c : Codec α) (text : String) : Except DecodeError α := do
  let (root, alone) := parse text
  let a ← c.read (.text 128) root
  if alone then .ok a else .error (.malformed .trailingCharacters)

-- Reads a tree, whose members come in order of their names.
def ofTree {α : Type} (c : Codec α) (j : Json) : Except DecodeError α :=
  c.read .tree j.ordered

def toText {α : Type} (c : Codec α) (a : α) : String :=
  (c.write a).text

end Codec

end ParticleFx.Json
