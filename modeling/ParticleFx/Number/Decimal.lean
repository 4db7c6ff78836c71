import ParticleFx.Number.Binary

namespace ParticleFx

-- A positive number `coefficient · 10 ^ exponent`.
structure Decimal where
  coefficient : Nat
  exponent : Int
deriving DecidableEq

namespace Decimal

-- A power with a whole, possibly negative, exponent as numerator and denominator.
def power (base : Nat) (k : Int) : Nat × Nat :=
  if 0 ≤ k then (base.pow k.toNat, 1) else (1, base.pow (-k).toNat)

-- The power of ten of the leading digit of a positive fraction.
def leading (num den : Nat) : Int :=
  if den ≤ num then (Nat.toDigits 10 (num / den)).length - 1
  else
    let places := (Nat.toDigits 10 (den / num)).length
    if den ≤ num * Nat.pow 10 (places - 1) then 1 - (places : Int) else -(places : Int)

-- The numbers that are read as one and the same floating-point number, as numerators over a
-- common denominator. The ends belong to it when `closed`.
structure Cell where
  low : Nat
  value : Nat
  high : Nat
  den : Nat
  closed : Bool

-- Halfway to each neighbour. The lower neighbour of a power of two is twice as near.
def Cell.of (b : Binary) (nearBelow : Bool) : Cell :=
  let p := power 2 (b.exponent - 2)
  { low := (4 * b.mantissa - if nearBelow then 1 else 2) * p.1
    value := 4 * b.mantissa * p.1
    high := (4 * b.mantissa + 2) * p.1
    den := p.2
    closed := b.mantissa % 2 = 0 }

def Cell.holds (cell : Cell) (d : Decimal) : Bool :=
  let p := power 10 d.exponent
  let here := d.coefficient * p.1 * cell.den
  if cell.closed then cell.low * p.2 ≤ here && here ≤ cell.high * p.2
  else cell.low * p.2 < here && here < cell.high * p.2

-- The nearest multiple of `10 ^ k` in the cell, if one of the two around the value is in it.
def Cell.onGrid? (cell : Cell) (k : Int) : Option Decimal :=
  let p := power 10 k
  let unit := p.1 * cell.den
  let scaled := cell.value * p.2
  let below := scaled / unit
  let rest := scaled % unit
  let lower : Decimal := ⟨below, k⟩
  let upper : Decimal := ⟨below + 1, k⟩
  match cell.holds lower, cell.holds upper with
  | true, true =>
    if 2 * rest < unit then some lower
    else if unit < 2 * rest then some upper
    else if below % 2 = 0 then some lower else some upper
  | true, false => some lower
  | false, true => some upper
  | false, false => none

-- The fewest digits that are read back as the same number; seventeen always suffice.
def Cell.shortest (cell : Cell) : Decimal :=
  let top := leading cell.value cell.den
  ((List.range 17).findSome? fun (n : Nat) => cell.onGrid? (top - n)).getD ⟨0, 0⟩

def ofFloat (b : Binary) : Decimal :=
  (Cell.of b (b.mantissa = 0x10000000000000 && b.exponent > -1074)).shortest

def ofFloat32 (b : Binary) : Decimal :=
  (Cell.of b (b.mantissa = 0x800000 && b.exponent > -149)).shortest

-- The digits without closing zeros, and the power of ten of the first of them.
def digits (d : Decimal) : List Char × Int :=
  let all := Nat.toDigits 10 d.coefficient
  ((all.reverse.dropWhile (· = '0')).reverse, d.exponent + all.length - 1)

end Decimal

end ParticleFx
