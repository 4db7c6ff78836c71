import ParticleFx.Json.Literal
import ParticleFx.Json.Malformed

namespace ParticleFx

-- What a text holds as far as it can be read. A text that goes wrong still gives the tree of
-- all that came before, so whoever walks the tree meets troubles in document order.
mutual
inductive Json where
  | null
  | bool (b : Bool)
  | number (l : Json.Literal)
  -- An escape may name half of a surrogate pair: such a string can be skipped but not read.
  | string (s : Except Json.Malformed String)
  | array (items : Json.Items)
  | object (members : Json.Members)
  | broken (trouble : Json.Trouble)

inductive Json.Items where
  | closed
  | cut (trouble : Json.Trouble)
  | cons (item : Json) (rest : Json.Items)

inductive Json.Members where
  | closed
  | cut (trouble : Json.Trouble)
  | cons (key : Except Json.Malformed String) (value : Json) (rest : Json.Members)
end

namespace Json

def Items.length : Items → Nat
  | .closed => 0
  | .cut _ => 0
  | .cons _ rest => rest.length + 1

def Items.toList : Items → List Json
  | .closed => []
  | .cut _ => []
  | .cons item rest => item :: rest.toList

def Members.toList : Members → List (Except Malformed String × Json)
  | .closed => []
  | .cut _ => []
  | .cons key value rest => (key, value) :: rest.toList

def Items.ofList (items : List Json) : Items :=
  items.foldr .cons .closed

def Members.ofList (members : List (String × Json)) : Members :=
  members.foldr (fun m rest => .cons (.ok m.1) m.2 rest) .closed

mutual
-- The first trouble met by one who skips the value without reading numbers or strings.
def skim : Json → Option Malformed
  | .broken trouble => some trouble.skipping
  | .array items => items.skim
  | .object members => members.skim
  | _ => none

def Items.skim : Items → Option Malformed
  | .closed => none
  | .cut trouble => some trouble.skipping
  | .cons item rest => item.skim.or rest.skim

def Members.skim : Members → Option Malformed
  | .closed => none
  | .cut trouble => some trouble.skipping
  | .cons _ value rest => value.skim.or rest.skim
end

mutual
-- The first trouble met by one who takes in the whole value, with `room` levels of nesting left.
def absorb (room : Nat) : Json → Option Malformed
  | .broken trouble => some trouble.reading
  | .number l => if l.number?.isSome then none else some .numberOutOfRange
  | .string (.error why) => some why
  | .array items => if room ≤ 1 then some .tooDeep else items.absorb (room - 1)
  | .object members => if room ≤ 1 then some .tooDeep else members.absorb (room - 1)
  | _ => none

def Items.absorb (room : Nat) : Items → Option Malformed
  | .closed => none
  | .cut trouble => some trouble.reading
  | .cons item rest => (item.absorb room).or (rest.absorb room)

def Members.absorb (room : Nat) : Members → Option Malformed
  | .closed => none
  | .cut trouble => some trouble.reading
  | .cons (.error why) _ _ => some why
  | .cons (.ok _) value rest => (value.absorb room).or (rest.absorb room)
end

-- A later member of the same name replaces an earlier one.
def putMember (name : String) (value : Json) (sorted : List (String × Json)) : List (String × Json) :=
  match sorted with
  | [] => [(name, value)]
  | (n, v) :: rest =>
    if name < n then (name, value) :: (n, v) :: rest
    else if name = n then (name, value) :: rest
    else (n, v) :: putMember name value rest

mutual
-- The value with the members of every object in order of their names, one for each name.
def ordered : Json → Json
  | .array items => .array items.ordered
  | .object members => .object (.ofList (members.ordered []))
  | other => other

def Items.ordered : Items → Items
  | .closed => .closed
  | .cut trouble => .cut trouble
  | .cons item rest => .cons item.ordered rest.ordered

def Members.ordered (sorted : List (String × Json)) : Members → List (String × Json)
  | .closed => sorted
  | .cut _ => sorted
  | .cons key value rest =>
    match key with
    | .ok name => rest.ordered (putMember name value.ordered sorted)
    | .error _ => rest.ordered sorted
end

end Json

end ParticleFx
