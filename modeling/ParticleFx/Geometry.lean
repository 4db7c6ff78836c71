import ParticleFx.Number.Binary

namespace ParticleFx

-- A point or displacement in pixels.
structure Vec2 where
  x : Float
  y : Float
deriving DecidableEq, BEq

namespace Vec2

def zero : Vec2 := ⟨0, 0⟩

instance : Add Vec2 where
  add a b := ⟨a.x + b.x, a.y + b.y⟩

def scale (a : Vec2) (k : Float) : Vec2 :=
  ⟨a.x * k, a.y * k⟩

def isFinite (a : Vec2) : Bool :=
  a.x.isFinite && a.y.isFinite

end Vec2

-- Scaling by these loses no bits, and takes every extreme magnitude to where squares are safe.
def shrink : Float := Binary.toFloat ⟨false, 1, -600⟩
def stretch : Float := Binary.toFloat ⟨false, 1, 600⟩

-- Beyond this a leg is taken down before it is squared, and below the other one it is taken up.
def longLeg : Float := Binary.toFloat ⟨false, 1, 511⟩
def shortLeg : Float := Binary.toFloat ⟨false, 1, -459⟩

-- A leg with this share of the other, or less, is lost in the length.
def lostShare : Float := Binary.toFloat ⟨false, 1, -54⟩

-- How much the square of `h` exceeds the sum of the squares of the legs. It is put together from
-- differences that cancel, so that it keeps its leading digits.
def squareExcess (long short h : Float) : Float :=
  if h ≤ 2 * short then
    let d := h - short
    long * (2 * d - long) + (d - 2 * (long - short)) * d
  else
    let d := h - long
    2 * d * (long - 2 * short) + ((4 * d - short) * short + d * d)

-- The length over legs of safe magnitudes: the root of the sum of squares, corrected once by what
-- its own square misses.
def lengthOver (long short : Float) : Float :=
  let h := (long * long + short * short).sqrt
  h - squareExcess long short h / (2 * h)

-- The length of a displacement. An infinite leg wins over one that is not a number.
def distance (dx dy : Float) : Float :=
  let a := dx.abs
  let b := dy.abs
  if a.isInf || b.isInf then 1 / 0
  else
    let long := if a < b then b else a
    let short := if a < b then a else b
    if short ≤ long * lostShare then long + short
    else if long > longLeg then lengthOver (long * shrink) (short * shrink) * stretch
    else if short < shortLeg then lengthOver (long * stretch) (short * stretch) * shrink
    else lengthOver long short

end ParticleFx
