import ParticleFx.Number.Decimal

namespace ParticleFx.Json

-- A number as it is written. Each part is its digits; without a fraction there is no point.
structure Literal where
  negative : Bool
  whole : List Char
  fraction : List Char
  exponent : Option (Bool × List Char)
deriving DecidableEq

-- What a literal stands for.
inductive Number where
  | integer (n : Int)
  | real (x : Float)
deriving DecidableEq

namespace Literal

def digitsValue (ds : List Char) : Nat :=
  ds.foldl (fun n c => 10 * n + (c.toNat - '0'.toNat)) 0

def ofInt (n : Int) : Literal :=
  ⟨decide (n < 0), Nat.toDigits 10 n.natAbs, [], none⟩

-- The exponent always carries a sign.
def text (l : Literal) : List Char :=
  (if l.negative then ['-'] else []) ++ l.whole
    ++ (if l.fraction = [] then [] else '.' :: l.fraction)
    ++ match l.exponent with
      | none => []
      | some (below, ds) => 'e' :: (if below then '-' else '+') :: ds

-- Takes in digits as long as the number fits 64 bits, and counts the ones left over.
def takeIn (n : Nat) : List Char → Nat × Nat
  | [] => (n, 0)
  | c :: cs =>
    let m := 10 * n + (c.toNat - '0'.toNat)
    if m < UInt64.size then takeIn m cs else (n, cs.length + 1)

-- The power of ten as a floating-point number.
def tenTo (k : Nat) : Float :=
  Float.ofScientific 1 false k

-- The highest power of ten that is finite.
def topPower : Nat := 308

-- `x · 10 ^ e` in one multiplication; `none` when it would be infinite.
def scaledUp (x : Float) (e : Nat) : Option Float :=
  if e ≤ topPower then
    let y := x * tenTo e
    if y.isFinite then some y else none
  else if x == 0 then some x
  else none

-- `x / 10 ^ e` by the highest power as often as it goes in. Twice that leaves nothing of `x`.
def scaledDown : Nat → Float → Nat → Float
  | 0, x, _ => x
  | left + 1, x, e =>
    if e ≤ topPower then x / tenTo e
    else scaledDown left (x / tenTo topPower) (e - topPower)

-- A power of ten that no number of this size survives.
def hugePower : Nat := 0x7fffffff

-- The floating-point number read from a literal; `none` when it would be infinite. The leading
-- digits that fit 64 bits are scaled by one power of ten, so it may be a neighbour of the nearest.
def real? (l : Literal) : Option Float :=
  let (n, excess) := takeIn 0 l.whole
  let (n, dropped) := takeIn n l.fraction
  let start : Int := excess - (l.fraction.length - dropped : Nat)
  let x := n.toUInt64.toFloat
  let magnitude : Option Float :=
    match l.exponent with
    | none => scale x start
    | some (below, ds) =>
      let e := digitsValue ds
      if hugePower < e then if n = 0 ∨ below then some 0 else none
      else scale x (if below then start - e else start + e)
  magnitude.map fun x => if l.negative then -x else x
where
  scale (x : Float) (e : Int) : Option Float :=
    if 0 ≤ e then scaledUp x e.toNat else some (scaledDown 4 x (-e).toNat)

-- A literal without point and exponent is whole if it fits 64 bits; a negative zero is not whole.
def number? (l : Literal) : Option Number :=
  let n := digitsValue l.whole
  if l.fraction ≠ [] || l.exponent.isSome then l.real?.map .real
  else if l.negative then
    if 0 < n ∧ n ≤ 0x8000000000000000 then some (.integer (-(n : Int))) else l.real?.map .real
  else if n < UInt64.size then some (.integer n)
  else l.real?.map .real

-- Which powers of ten of the leading digit are written without an exponent.
structure Layout where
  lowest : Int
  highest : Int

def double : Layout := ⟨-5, 15⟩
def single : Layout := ⟨-6, 12⟩

-- A whole number keeps one zero after the point.
def Layout.write (layout : Layout) (negative : Bool) (ds : List Char) (top : Int) : Literal :=
  if layout.lowest ≤ top ∧ top ≤ layout.highest then
    if top < 0 then ⟨negative, ['0'], List.replicate (-top - 1).toNat '0' ++ ds, none⟩
    else
      let places := top.toNat + 1
      if ds.length ≤ places then ⟨negative, ds ++ List.replicate (places - ds.length) '0', ['0'], none⟩
      else ⟨negative, ds.take places, ds.drop places, none⟩
  else ⟨negative, ds.take 1, ds.drop 1, some (decide (top < 0), Nat.toDigits 10 top.natAbs)⟩

def zero (negative : Bool) : Literal := ⟨negative, ['0'], ['0'], none⟩

-- Infinities and what is not a number have no literal.
def ofFloat? (x : Float) : Option Literal :=
  (Binary.ofFloat? x).map fun b =>
    if b.mantissa = 0 then zero b.negative
    else double.write b.negative (Decimal.ofFloat b).digits.1 (Decimal.ofFloat b).digits.2

def ofFloat32? (x : Float32) : Option Literal :=
  (Binary.ofFloat32? x).map fun b =>
    if b.mantissa = 0 then zero b.negative
    else single.write b.negative (Decimal.ofFloat32 b).digits.1 (Decimal.ofFloat32 b).digits.2

end Literal

end ParticleFx.Json
