import ParticleFx.Json.Tree

namespace ParticleFx.Json

def isBlank (c : Char) : Bool :=
  c = ' ' || c = '\n' || c = '\t' || c = '\r'

def skipBlank (cs : List Char) : List Char :=
  cs.dropWhile isBlank

-- The rest of a word whose first letter has been seen.
def scanWord : List Char → List Char → Except Malformed (List Char)
  | [], cs => .ok cs
  | _ :: _, [] => .error .endInValue
  | w :: ws, c :: cs => if w = c then scanWord ws cs else .error .expectedIdent

-- One or more digits.
def scanDigits (cs : List Char) : Except Malformed (List Char × List Char) :=
  match cs with
  | [] => .error .endInValue
  | c :: _ =>
    if c.isDigit then .ok (cs.takeWhile Char.isDigit, cs.dropWhile Char.isDigit)
    else .error .invalidNumber

-- A zero stands alone before the point.
def scanWhole (cs : List Char) : Except Malformed (List Char × List Char) := do
  let (ds, rest) ← scanDigits cs
  if ds.head? = some '0' ∧ 1 < ds.length then .error .invalidNumber else .ok (ds, rest)

def scanFraction (cs : List Char) : Except Malformed (List Char × List Char) :=
  match cs with
  | '.' :: rest => scanDigits rest
  | _ => .ok ([], cs)

def scanExponent (cs : List Char) : Except Malformed (Option (Bool × List Char) × List Char) :=
  match cs with
  | [] => .ok (none, [])
  | c :: rest =>
    if c = 'e' ∨ c = 'E' then do
      let (below, rest) := match rest with
        | '-' :: more => (true, more)
        | '+' :: more => (false, more)
        | more => (false, more)
      let (ds, rest) ← scanDigits rest
      .ok (some (below, ds), rest)
    else .ok (none, c :: rest)

def scanNumber (negative : Bool) (cs : List Char) : Except Malformed (Literal × List Char) := do
  let (whole, cs) ← scanWhole cs
  let (fraction, cs) ← scanFraction cs
  let (exponent, cs) ← scanExponent cs
  .ok (⟨negative, whole, fraction, exponent⟩, cs)

-- What stands in a string: a character, or a 16-bit unit written as an escape.
inductive Piece where
  | char (c : Char)
  | unit (n : Nat)

def hexDigit? (c : Char) : Option Nat :=
  if '0' ≤ c ∧ c ≤ '9' then some (c.toNat - '0'.toNat)
  else if 'a' ≤ c ∧ c ≤ 'f' then some (c.toNat - 'a'.toNat + 10)
  else if 'A' ≤ c ∧ c ≤ 'F' then some (c.toNat - 'A'.toNat + 10)
  else none

def hexUnit? (a b c d : Char) : Option Nat := do
  return 4096 * (← hexDigit? a) + 256 * (← hexDigit? b) + 16 * (← hexDigit? c) + (← hexDigit? d)

def escaped? (c : Char) : Option Char :=
  match c with
  | '"' => some '"'
  | '\\' => some '\\'
  | '/' => some '/'
  | 'b' => some '\x08'
  | 'f' => some '\x0c'
  | 'n' => some '\n'
  | 'r' => some '\r'
  | 't' => some '\t'
  | _ => none

-- Why a string does not reach its closing quote.
inductive Flaw where
  | cutOff
  | control
  | badEscape
  | badUnit

-- What one meets at the flaw who looks at one piece after the other.
def Flaw.plain : Flaw → Malformed
  | .cutOff => .endInString
  | .control => .controlCharacter
  | .badEscape | .badUnit => .invalidEscape

-- What one meets there who waits for the second half of a surrogate pair.
def Flaw.afterHalf : Flaw → Malformed
  | .cutOff => .endInString
  | .control | .badEscape => .hexEscapeCut
  | .badUnit => .invalidEscape

-- Why four hexadecimal digits cannot be had. They are looked for among the next four bytes.
def noUnit (cs : List Char) : Flaw :=
  if cs.foldl (fun n c => n + c.utf8Size) 0 < 4 then .cutOff else .badUnit

-- The pieces of a string up to its flaw, or up to its closing quote and what follows it.
def scanString : List Char → List Piece × Except Flaw (List Char)
  | [] => ([], .error .cutOff)
  | '"' :: rest => ([], .ok rest)
  | '\\' :: 'u' :: a :: b :: c :: d :: rest =>
    match hexUnit? a b c d with
    | none => ([], .error .badUnit)
    | some n =>
      let (ps, ending) := scanString rest
      (.unit n :: ps, ending)
  | '\\' :: e :: rest =>
    if e = 'u' then ([], .error (noUnit rest))
    else
      match escaped? e with
      | none => ([], .error .badEscape)
      | some c =>
        let (ps, ending) := scanString rest
        (.char c :: ps, ending)
  | '\\' :: [] => ([], .error .cutOff)
  | c :: rest =>
    if c.toNat < 32 then ([], .error .control)
    else
      let (ps, ending) := scanString rest
      (.char c :: ps, ending)

-- Two units of a surrogate pair make one character.
def joinPieces (flaw : Option Flaw) : List Piece → Except Malformed (List Char)
  | [] =>
    match flaw with
    | none => .ok []
    | some flaw => .error flaw.plain
  | .char c :: rest => (joinPieces flaw rest).map (c :: ·)
  | .unit n :: rest =>
    if 0xDC00 ≤ n ∧ n < 0xE000 then .error .loneSurrogate
    else if 0xD800 ≤ n ∧ n < 0xDC00 then
      match rest with
      | [] => .error ((flaw.map Flaw.afterHalf).getD .hexEscapeCut)
      | .char _ :: _ => .error .hexEscapeCut
      | .unit m :: rest =>
        if 0xDC00 ≤ m ∧ m < 0xE000 then
          (joinPieces flaw rest).map (Char.ofNat (0x10000 + 0x400 * (n - 0xD800) + (m - 0xDC00)) :: ·)
        else .error .loneSurrogate
    else (joinPieces flaw rest).map (Char.ofNat n :: ·)

-- The text of a string whose opening quote has been seen, and what follows it.
def scanText (cs : List Char) : Except Trouble (Except Malformed String × List Char) :=
  match scanString cs with
  | (pieces, .ok rest) => .ok ((joinPieces none pieces).map String.ofList, rest)
  | (pieces, .error flaw) =>
    match joinPieces (some flaw) pieces with
    | .error reading => .error (.apart reading flaw.plain)
    | .ok _ => .error (.same flaw.plain)

-- A trouble ends the reading: nothing after it is looked at.
def orBroken (r : Except Trouble (Json × List Char)) : Json × List Char :=
  match r with
  | .ok found => found
  | .error trouble => (.broken trouble, [])

def scanned (trouble : Malformed → Trouble) (j : Json) (r : Except Malformed (List Char)) :
    Except Trouble (Json × List Char) :=
  match r with
  | .ok rest => .ok (j, rest)
  | .error why => .error (trouble why)

def scannedNumber (negative : Bool) (cs : List Char) : Except Trouble (Json × List Char) :=
  match scanNumber negative cs with
  | .ok (l, rest) => .ok (.number l, rest)
  | .error why => .error (.number why)

mutual
def parseValue : Nat → List Char → Json × List Char
  | 0, _ => (.broken (.same .tooDeep), [])
  | fuel + 1, text =>
    match skipBlank text with
    | [] => (.broken (.same .endInValue), [])
    | c :: cs =>
      if c = '"' then orBroken ((scanText cs).map fun (s, rest) => (.string s, rest))
      else if c = '[' then
        let (items, rest) := parseItems fuel true cs
        (.array items, rest)
      else if c = '\x7b' then
        let (members, rest) := parseMembers fuel true cs
        (.object members, rest)
      else if c = 'n' then orBroken (scanned .word .null (scanWord ['u', 'l', 'l'] cs))
      else if c = 't' then orBroken (scanned .word (.bool true) (scanWord ['r', 'u', 'e'] cs))
      else if c = 'f' then orBroken (scanned .word (.bool false) (scanWord ['a', 'l', 's', 'e'] cs))
      else if c = '-' then orBroken (scannedNumber true cs)
      else if c.isDigit then orBroken (scannedNumber false (c :: cs))
      else (.broken (.same .expectedValue), [])

def parseItems : Nat → Bool → List Char → Items × List Char
  | 0, _, _ => (.cut (.same .tooDeep), [])
  | fuel + 1, first, text =>
    match skipBlank text with
    | [] => (.cut (.same .endInList), [])
    | c :: cs =>
      if c = ']' then (.closed, cs)
      else if first then
        let (item, rest) := parseValue fuel (c :: cs)
        let (items, rest) := parseItems fuel false rest
        (.cons item items, rest)
      else if c = ',' then
        match skipBlank cs with
        | [] => (.cut (.same .endInValue), [])
        | d :: ds =>
          if d = ']' then (.cut (.apart .trailingComma .expectedValue), [])
          else
            let (item, rest) := parseValue fuel (d :: ds)
            let (items, rest) := parseItems fuel false rest
            (.cons item items, rest)
      else (.cut (.same .expectedListEnd), [])

def parseMembers : Nat → Bool → List Char → Members × List Char
  | 0, _, _ => (.cut (.same .tooDeep), [])
  | fuel + 1, first, text =>
    match skipBlank text with
    | [] => (.cut (.same .endInObject), [])
    | c :: cs =>
      if c = '\x7d' then (.closed, cs)
      else if first then parseMember fuel (c :: cs)
      else if c = ',' then
        match skipBlank cs with
        | [] => (.cut (.apart .endInValue .endInObject), [])
        | d :: ds =>
          if d = '\x7d' then (.cut (.apart .trailingComma .keyNotString), [])
          else parseMember fuel (d :: ds)
      else (.cut (.same .expectedObjectEnd), [])

def parseMember : Nat → List Char → Members × List Char
  | 0, _ => (.cut (.same .tooDeep), [])
  | fuel + 1, text =>
    match text with
    | '"' :: cs =>
      match scanText cs with
      | .error trouble => (.cut trouble, [])
      | .ok (key, rest) =>
        let (value, rest) := match skipBlank rest with
          | [] => (.broken (.same .endInObject), [])
          | c :: cs => if c = ':' then parseValue fuel cs else (.broken (.same .expectedColon), [])
        let (members, rest) := parseMembers fuel false rest
        (.cons key value members, rest)
    | _ => (.cut (.same .keyNotString), [])
end

-- A text and whether only blanks follow its value. Every call of the parser is followed by one
-- that has taken a character off the text, within three calls.
def parse (text : String) : Json × Bool :=
  let cs := text.toList
  let (root, rest) := parseValue (3 * cs.length + 3) cs
  (root, (skipBlank rest).isEmpty)

end ParticleFx.Json
