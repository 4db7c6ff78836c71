import ParticleFx.Color
import ParticleFx.Geometry
import ParticleFx.Number.Rounding

namespace ParticleFx

-- A moving point. Its lifetime counts down; its rotation is in degrees.
structure Particle where
  position : Vec2
  velocity : Vec2
  acceleration : Vec2
  lifetime : Float
  maxLifetime : Float
  color : Color
  size : Float
  rotation : Float
  angularVelocity : Float
deriving DecidableEq

namespace Particle

-- The share of the lifetime that is left.
def fade (p : Particle) : Float :=
  if p.maxLifetime ≤ 0 then 0
  else
    let share := p.lifetime / p.maxLifetime
    if share < 0 then 0 else if share > 1 then 1 else share

def isAlive (p : Particle) : Bool :=
  p.lifetime > 0

def fadedColor (p : Particle) : Color :=
  p.color.withAlpha (roundWithin 255 (p.color.a.toFloat * p.fade)).toUInt8

-- The position moves by the velocity from before the step.
def step (dt : Float) (p : Particle) : Particle :=
  { p with
    position := p.position + p.velocity.scale dt
    velocity := p.velocity + p.acceleration.scale dt
    rotation := p.rotation + p.angularVelocity * dt
    lifetime := p.lifetime - dt }

end Particle

end ParticleFx
