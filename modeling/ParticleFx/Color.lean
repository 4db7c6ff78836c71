namespace ParticleFx

-- A straight-alpha color.
structure Color where
  r : UInt8
  g : UInt8
  b : UInt8
  a : UInt8
deriving DecidableEq

namespace Color

def white : Color := ⟨255, 255, 255, 255⟩
def black : Color := ⟨0, 0, 0, 255⟩
def transparent : Color := ⟨0, 0, 0, 0⟩

def solid (r g b : UInt8) : Color := ⟨r, g, b, 255⟩

def withAlpha (c : Color) (a : UInt8) : Color := { c with a := a }

-- Channels by position: red, green, blue, alpha.
def channel (c : Color) : Nat → UInt8
  | 0 => c.r
  | 1 => c.g
  | 2 => c.b
  | _ => c.a

-- A product of two fractions of 255, rounded.
def scaled (x y : Nat) : Nat :=
  (x * y + 127) / 255

-- The rounded mean of two channels, weighted by their alphas.
def mixed (source sourceAlpha dest destAlpha : Nat) : Nat :=
  let total := sourceAlpha + destAlpha
  (source * sourceAlpha + dest * destAlpha + total / 2) / total

-- The source laid over the destination.
def overlay (dest source : Color) : Color :=
  if source.a = 0 then dest
  else if source.a = 255 then source
  else
    let sa := source.a.toNat
    let da := scaled dest.a.toNat (255 - sa)
    let mix (s d : UInt8) : UInt8 := (min (mixed s.toNat sa d.toNat da) 255).toUInt8
    ⟨mix source.r dest.r, mix source.g dest.g, mix source.b dest.b, (min (sa + da) 255).toUInt8⟩

-- The color laid on a solid background; the two products are rounded on their own.
def flattened (c background : Color) : Color :=
  let alpha := c.a.toNat
  let mix (front back : UInt8) : UInt8 :=
    (min (scaled front.toNat alpha + scaled back.toNat (255 - alpha)) 255).toUInt8
  ⟨mix c.r background.r, mix c.g background.g, mix c.b background.b, 255⟩

end Color

end ParticleFx
