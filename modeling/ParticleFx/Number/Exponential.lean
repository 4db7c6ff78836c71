import ParticleFx.Number.Binary

namespace ParticleFx

namespace Exponential

-- How many fraction bits are carried.
def places : Nat := 128

-- One, with the fraction bits.
def unit : Nat := 0x100000000000000000000000000000000

-- The natural logarithm of two, cut off after the fraction bits.
def ln2 : Nat := 235865763225513294137944142764154484399

-- The terms of the exponential series of `-r / unit`, summed up to the next term that is due.
-- Even terms count up and odd ones down; once a term is zero, so are all that follow.
def series (r : Nat) : Nat → Nat → Nat → Int → Int
  | 0, _, _, sum => sum
  | left + 1, n, term, sum =>
    if term = 0 then sum
    else
      series r left (n + 1) (term * r / ((n + 1) * unit))
        (if n % 2 = 0 then sum + term else sum - term)

-- How many terms are summed at most.
def terms : Nat := 40

-- A magnitude, cut off after the fraction bits.
def fixed (b : Binary) : Nat :=
  let place := b.exponent + places
  if 0 ≤ place then b.mantissa <<< place.toNat else b.mantissa >>> (-place).toNat

-- `exp (-y / unit)`, rounded to the places that double precision has there. Whole halvings are
-- taken out first, and the series covers what is left, which is below `ln 2`.
def decay (y : Nat) : Binary :=
  let halvings := y / ln2
  let x := (series (y % ln2) terms 0 unit 0).toNat
  let bits := min 53 (1074 - halvings)
  ⟨false, (x + (1 <<< (places - bits - 1))) >>> (places - bits), -(halvings + bits : Nat)⟩

end Exponential

-- The exponential of a number that is not positive. From 1075 halvings on it is nearer to zero than
-- to any other number.
def exponential (x : Float) : Float :=
  match Binary.ofFloat? x with
  | none => 0
  | some b =>
    let y := Exponential.fixed b
    if 1075 * Exponential.ln2 ≤ y then 0 else (Exponential.decay y).toFloat

end ParticleFx
