import ParticleFx.Json.Tree

namespace ParticleFx.Json

-- A value ready to be written, with its numbers still exact.
inductive Datum where
  | null
  | bool (b : Bool)
  | integer (n : Int)
  | double (x : Float)
  | single (x : Float32)
  | string (s : String)
  | list (items : List Datum)
  | record (fields : List (String × Datum))

-- A number without a literal is written as null.
def numberOrNull : Option Literal → Json
  | some l => .number l
  | none => .null

mutual
def Datum.toJson : Datum → Json
  | .null => .null
  | .bool b => .bool b
  | .integer n => .number (.ofInt n)
  | .double x => numberOrNull (Literal.ofFloat? x)
  | .single x => numberOrNull (Literal.ofFloat32? x)
  | .string s => .string (.ok s)
  | .list items => .array (toItems items)
  | .record fields => .object (toMembers fields)

def toItems : List Datum → Items
  | [] => .closed
  | d :: rest => .cons d.toJson (toItems rest)

def toMembers : List (String × Datum) → Members
  | [] => .closed
  | (name, d) :: rest => .cons (.ok name) d.toJson (toMembers rest)
end

-- Quotes, backslashes and controls are escaped; all else stands as it is.
def writtenChar (c : Char) : List Char :=
  if c = '"' then ['\\', '"']
  else if c = '\\' then ['\\', '\\']
  else if c = '\n' then ['\\', 'n']
  else if c = '\r' then ['\\', 'r']
  else if c = '\t' then ['\\', 't']
  else if c = '\x08' then ['\\', 'b']
  else if c = '\x0c' then ['\\', 'f']
  else if c.toNat < 32 then
    ['\\', 'u', '0', '0'] ++ (if c.toNat < 16 then ['0'] else []) ++ Nat.toDigits 16 c.toNat
  else [c]

def writtenString (s : String) : List Char :=
  '"' :: s.toList.flatMap writtenChar ++ ['"']

def writtenText : Except Malformed String → List Char
  | .ok s => writtenString s
  | .error _ => []

mutual
-- The compact text of a whole document.
def written : Json → List Char
  | .null => ['n', 'u', 'l', 'l']
  | .bool true => ['t', 'r', 'u', 'e']
  | .bool false => ['f', 'a', 'l', 's', 'e']
  | .number l => l.text
  | .string s => writtenText s
  | .array items => '[' :: writtenItems true items
  | .object members => '\x7b' :: writtenMembers true members
  | .broken _ => []

def writtenItems (first : Bool) : Items → List Char
  | .closed => [']']
  | .cut _ => []
  | .cons item rest => (if first then [] else [',']) ++ written item ++ writtenItems false rest

def writtenMembers (first : Bool) : Members → List Char
  | .closed => ['\x7d']
  | .cut _ => []
  | .cons key value rest =>
    (if first then [] else [',']) ++ writtenText key ++ ':' :: written value
      ++ writtenMembers false rest
end

def Datum.text (d : Datum) : String :=
  String.ofList (written d.toJson)

end ParticleFx.Json
