import ParticleFx.Number.Binary

namespace ParticleFx

-- What is left of `x` after taking away whole multiples of `y`, with the sign of `x`.
-- Both are put over one power of two, so the remainder of whole numbers is exact.
def remainder (x y : Float) : Float :=
  match Binary.ofFloat? x, Binary.ofFloat? y with
  | some a, some b =>
    if b.mantissa = 0 then 0 / 0
    else
      let low := min a.exponent b.exponent
      let dividend := a.mantissa <<< (a.exponent - low).toNat
      let divisor := b.mantissa <<< (b.exponent - low).toNat
      Binary.toFloat ⟨a.negative, dividend % divisor, low⟩
  | some _, none => if y.isNaN then 0 / 0 else x
  | none, _ => 0 / 0

end ParticleFx
