import ParticleFx.Number.Binary

namespace ParticleFx

-- The whole number nearest to a magnitude, halves upward.
def Binary.nearest (b : Binary) : Nat :=
  if 0 ≤ b.exponent then b.mantissa <<< b.exponent.toNat
  else (b.mantissa + 1 <<< ((-b.exponent).toNat - 1)) >>> (-b.exponent).toNat

-- The nearest whole number, halves upward, held between zero and `limit`.
-- What is not a number gives zero.
def roundWithin (limit : Nat) (x : Float) : Nat :=
  match Binary.ofFloat? x with
  | some b => if b.negative then 0 else min b.nearest limit
  | none => if x > 0 then limit else 0

-- A channel value computed in single precision, rounded and held to a byte.
def channelByte (x : Float32) : UInt8 :=
  if x < 255 then
    let whole := x.toUInt8
    if x - whole.toFloat32 ≥ 0.5 then whole + 1 else whole
  else if x.isNaN then 0
  else 255

-- Two channels added with a weight each.
def weightedByte (a : UInt8) (wa : Float32) (b : UInt8) (wb : Float32) : UInt8 :=
  channelByte (a.toFloat32 * wa + b.toFloat32 * wb)

-- The whole part toward zero, held to the 64-bit range; zero for what is not a number.
def wholePart (x : Float) : Int :=
  if x < 0 then -(min (-x).toUInt64.toNat 0x8000000000000000 : Nat)
  else (min x.toUInt64.toNat 0x7fffffffffffffff : Nat)

end ParticleFx
