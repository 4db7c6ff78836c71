import ParticleFx.Fault
import ParticleFx.Geometry

namespace ParticleFx

-- A blurred copy added on top of the frame.
structure GlowParams where
  intensity : Float32 := 0.5
  radius : Nat := 20
deriving DecidableEq, BEq

-- A share of the frame before.
structure MotionBlurParams where
  strength : Float32 := 0.5
deriving DecidableEq, BEq

-- The largest offset on each axis.
structure ShakeParams where
  intensity : Nat := 5
deriving DecidableEq, BEq

-- Tenths of the intensity are the channel split in pixels; it is also the chance of a band.
structure GlitchParams where
  intensity : Float32 := 0.5
deriving DecidableEq, BEq

-- Ten blends for each unit of strength; a mask keeps the middle sharp.
structure RadialBlurParams where
  center : Option Vec2 := none
  strength : Float32 := 0.5
  masked : Bool := false
deriving DecidableEq, BEq

inductive EffectRequest where
  | glow (p : GlowParams)
  | motionBlur (p : MotionBlurParams)
  | shake (p : ShakeParams)
  | glitch (p : GlitchParams)
  | radialBlur (p : RadialBlurParams)
deriving DecidableEq, BEq

inductive EffectKind where
  | glow
  | motionBlur
  | shake
  | glitch
  | radialBlur
deriving DecidableEq

namespace EffectKind

def all : List EffectKind := [glow, motionBlur, shake, glitch, radialBlur]

def name : EffectKind → String
  | glow => "glow"
  | motionBlur => "motion_blur"
  | shake => "shake"
  | glitch => "glitch"
  | radialBlur => "radial_blur"

end EffectKind

namespace EffectRequest

def kind : EffectRequest → EffectKind
  | glow _ => .glow
  | motionBlur _ => .motionBlur
  | shake _ => .shake
  | glitch _ => .glitch
  | radialBlur _ => .radialBlur

def maxGlowRadius : Nat := 256
def maxRadialStrength : Nat := 10

def finite (name : String) (x : Float32) : Except Fault Unit :=
  if x.isFinite then .ok () else .error (.notFinite name)

def validate : EffectRequest → Except Fault Unit
  | glow p => do
    finite "glow.intensity" p.intensity
    if maxGlowRadius < p.radius then .error (.glowRadius maxGlowRadius)
  | motionBlur p => do
    finite "motion_blur.strength" p.strength
    if !(0 ≤ p.strength && p.strength ≤ 1) then .error .motionBlurStrength
  | shake _ => .ok ()
  | glitch p => do
    finite "glitch.intensity" p.intensity
    if p.intensity < 0 then .error .glitchNegative
  | radialBlur p => do
    finite "radial_blur.strength" p.strength
    if !(0 ≤ p.strength && p.strength ≤ Float32.ofNat maxRadialStrength) then
      .error (.radialStrength maxRadialStrength)
    if !(p.center.all Vec2.isFinite) then .error (.notFinite "radial_blur.center")

end EffectRequest

-- How long a request stays in the queue.
inductive EffectLifetime where
  | persistent
  | oneShot
deriving DecidableEq

end ParticleFx
