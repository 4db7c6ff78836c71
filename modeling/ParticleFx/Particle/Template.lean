import ParticleFx.Color
import ParticleFx.Fault
import ParticleFx.Geometry

namespace ParticleFx

-- What a new particle is drawn from: base values, and for some of them how far a draw may stray
-- to either side.
structure Template where
  velocity : Vec2 := ⟨0, -50⟩
  velocityRandom : Vec2 := .zero
  acceleration : Vec2 := .zero
  lifetime : Float := 2
  lifetimeRandom : Float := 0
  color : Color := .white
  size : Float := 5
  sizeRandom : Float := 0
  spread : Float := 0
  angularVelocity : Float := 0
deriving DecidableEq, BEq

-- Where a system emits, how many particles a second, and of what kind. A rate of zero leaves
-- emission to bursts.
structure SystemConfig where
  position : Vec2 := .zero
  rate : Float := 50
  particle : Template := {}
deriving DecidableEq, BEq

def finiteVec (name : String) (v : Vec2) : Except Fault Unit :=
  if v.isFinite then .ok () else .error (.notFinite name)

def finiteNonneg (name : String) (x : Float) : Except Fault Unit :=
  if x.isFinite && !(x < 0) then .ok () else .error (.notFiniteOrNegative name)

-- The last check keeps every drawn lifetime above zero.
def Template.validate (t : Template) : Except Fault Unit := do
  finiteVec "particle.velocity" t.velocity
  finiteVec "particle.acceleration" t.acceleration
  finiteVec "particle.velocity_random" t.velocityRandom
  if t.velocityRandom.x < 0 || t.velocityRandom.y < 0 then .error .negativeVelocityRandom
  finiteNonneg "particle.lifetime_random" t.lifetimeRandom
  finiteNonneg "particle.size" t.size
  finiteNonneg "particle.size_random" t.sizeRandom
  finiteNonneg "particle.spread" t.spread
  if !t.angularVelocity.isFinite then .error (.notFinite "particle.angular_velocity")
  if !t.lifetime.isFinite || t.lifetime ≤ 0 then .error .lifetimeNotPositive
  if t.lifetimeRandom ≥ t.lifetime then .error .lifetimeRandomTooLarge

namespace SystemConfig

def validate (c : SystemConfig) : Except Fault Unit := do
  finiteVec "position" c.position
  finiteNonneg "rate" c.rate
  c.particle.validate

-- The time between two emissions.
def interval? (c : SystemConfig) : Option Float :=
  if c.rate > 0 then some (1 / c.rate) else none

-- Rising orange flames.
def fire (position : Vec2) : SystemConfig where
  position := position
  rate := 100
  particle :=
    { velocity := ⟨0, -50⟩
      velocityRandom := ⟨10, 10⟩
      acceleration := ⟨0, -20⟩
      lifetime := 1.5
      lifetimeRandom := 0.5
      color := .solid 255 100 0
      size := 10
      sizeRandom := 5
      spread := 20 }

-- Falling yellow debris, only from bursts.
def explosion (position : Vec2) : SystemConfig where
  position := position
  rate := 0
  particle :=
    { velocity := .zero
      acceleration := ⟨0, 100⟩
      lifetime := 2
      lifetimeRandom := 0.5
      color := .solid 255 255 0
      size := 8
      sizeRandom := 4 }

-- Translucent dust drifting back from a runner.
def dustTrail (position : Vec2) : SystemConfig where
  position := position
  rate := 150
  particle :=
    { velocity := ⟨-80, -40⟩
      velocityRandom := ⟨60, 30⟩
      acceleration := ⟨0, 20⟩
      lifetime := 1.8
      lifetimeRandom := 0.6
      color := ⟨180, 160, 140, 120⟩
      size := 25
      sizeRandom := 15
      spread := 40 }

end SystemConfig

end ParticleFx
