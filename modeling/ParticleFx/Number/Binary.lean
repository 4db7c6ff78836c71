namespace ParticleFx

-- A finite number as a signed whole multiple of a power of two.
structure Binary where
  negative : Bool
  mantissa : Nat
  exponent : Int
deriving DecidableEq

namespace Binary

-- Splits a floating-point word into its parts; `none` for infinities and for what is not a number.
-- A zero power field marks the numbers that have no hidden leading bit.
def ofWord? (fractionBits powerBits word : Nat) : Option Binary :=
  let fraction := word % (1 <<< fractionBits)
  let power := (word >>> fractionBits) % (1 <<< powerBits)
  let negative := decide ((word >>> (fractionBits + powerBits)) % 2 = 1)
  let shift : Int := (1 <<< (powerBits - 1) : Nat) - 1 + fractionBits
  if power + 1 = 1 <<< powerBits then none
  else if power = 0 then some ⟨negative, fraction, 1 - shift⟩
  else some ⟨negative, fraction + (1 <<< fractionBits), power - shift⟩

def ofFloat? (x : Float) : Option Binary :=
  ofWord? 52 11 x.toBits.toNat

def ofFloat32? (x : Float32) : Option Binary :=
  ofWord? 23 8 x.toBits.toNat

-- The magnitude as a whole number over a power of ten, which the decimal readers round correctly.
def decimal (b : Binary) : Nat × Nat :=
  if 0 ≤ b.exponent then (b.mantissa <<< b.exponent.toNat, 0)
  else (b.mantissa * Nat.pow 5 (-b.exponent).toNat, (-b.exponent).toNat)

def toFloat (b : Binary) : Float :=
  let x := Float.ofScientific b.decimal.1 true b.decimal.2
  if b.negative then -x else x

def toFloat32 (b : Binary) : Float32 :=
  let x := Float32.ofScientific b.decimal.1 true b.decimal.2
  if b.negative then -x else x

end Binary

-- Whether a number has all the places that double precision can give it: it is finite, and not too
-- small for its leading bit to be the hidden one.
def isNormal (x : Float) : Bool :=
  match Binary.ofFloat? x with
  | some b => decide (0x10000000000000 ≤ b.mantissa)
  | none => false

-- The nearest single-precision number; too large a magnitude becomes infinite.
def narrow (x : Float) : Float32 :=
  match Binary.ofFloat? x with
  | some b => b.toFloat32
  | none => if x.isNaN then 0 / 0 else if x < 0 then -1 / 0 else 1 / 0

-- Every single-precision number is a double-precision one.
def widen (x : Float32) : Float :=
  match Binary.ofFloat32? x with
  | some b => b.toFloat
  | none => if x.isNaN then 0 / 0 else if x < 0 then -1 / 0 else 1 / 0

end ParticleFx
