import ParticleFx.Fault
import ParticleFx.Number.Rounding

namespace ParticleFx.Kernel

-- The height of the bell at distance `i` from its middle, relative to the middle.
def bell (exp : Float → Float) (sigma : Float32) (i : Nat) : Float :=
  exp (-(i * i).toUInt64.toFloat / (2 * (widen sigma * widen sigma)))

-- The distance of tap `t` from the middle tap.
def offset (radius t : Nat) : Nat :=
  if t < radius then radius - t else t - radius

def heights (exp : Float → Float) (radius : Nat) (sigma : Float32) : Array Float :=
  Array.ofFn fun t : Fin (2 * radius + 1) => bell exp sigma (offset radius t)

-- Added up from the first to the last, with every sum rounded.
def total (heights : Array Float) : Float :=
  heights.foldl (· + ·) 0

-- Weights are counted in units of `1 / 2 ^ 16`.
def one : Nat := 0x10000

-- A share of the total in those units.
def share (total height : Float) : Nat :=
  roundWithin one (height / total * 65536)

def shares (heights : Array Float) : Array Nat :=
  heights.map (share (total heights))

def sumOf (ns : Array Nat) : Nat :=
  ns.foldl (· + ·) 0

-- The middle tap takes what rounding left over, as far as a weight can.
def middle (tap assigned : Nat) : Nat :=
  min (tap + one - assigned) one

def balanced (radius : Nat) (ws : Array Nat) : Array Nat :=
  ws.setIfInBounds radius (middle (ws.getD radius 0) (sumOf ws))

-- The `2 * radius + 1` weights of a blur, for whatever computes the exponential.
def taps (exp : Float → Float) (radius : Nat) (sigma : Float32) : Except Fault (Array Nat) :=
  if !sigma.isFinite || sigma ≤ 0 then .error .blurSigma
  else
    let hs := heights exp radius sigma
    if isNormal (total hs) then .ok (balanced radius (shares hs)) else .error .kernelSum

end ParticleFx.Kernel
