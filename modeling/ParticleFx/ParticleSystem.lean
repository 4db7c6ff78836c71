import ParticleFx.Frame.Circle
import ParticleFx.Number.Word
import ParticleFx.Particle.Clock
import ParticleFx.Particle.Motion
import ParticleFx.Particle.Template
import ParticleFx.Random.Source

namespace ParticleFx

-- The particles of one emitter, oldest first, which is also the order they are drawn in.
structure ParticleSystem where
  config : SystemConfig
  emitter : Vec2
  particles : Array Particle
  sinceEmit : Float
  source : Source
deriving DecidableEq

namespace Particle

-- A new particle. The draws come in this order.
def spawn (t : Template) (emitter : Vec2) : Act Source Particle := do
  let dx ← Source.jitter t.spread
  let dy ← Source.jitter t.spread
  let vx ← Source.jitter t.velocityRandom.x
  let vy ← Source.jitter t.velocityRandom.y
  let life ← Source.jitter t.lifetimeRandom
  let size ← Source.jitter t.sizeRandom
  let rotation ← Source.float 0 360
  return {
    position := ⟨emitter.x + dx, emitter.y + dy⟩
    velocity := ⟨t.velocity.x + vx, t.velocity.y + vy⟩
    acceleration := t.acceleration
    lifetime := t.lifetime + life
    maxLifetime := t.lifetime + life
    color := t.color
    size := t.size + size
    rotation := rotation
    angularVelocity := t.angularVelocity }

-- Particles whose center is off the frame are not drawn at all.
def draw (f : Frame) (p : Particle) : Except Fault Frame :=
  let x := wholePart p.position.x
  let y := wholePart p.position.y
  if f.contains x y then f.fillCircle x y p.size.toUInt32.toNat p.fadedColor else .ok f

-- How many bytes of memory one particle takes.
def footprint : Nat := 96

end Particle

namespace ParticleSystem

def make (config : SystemConfig) (source : Source) : Except Fault ParticleSystem := do
  config.validate
  return { config, emitter := config.position, particles := #[], sinceEmit := 0, source }

def moveTo (position : Vec2) (s : ParticleSystem) : ParticleSystem :=
  { s with emitter := position }

-- A draw from the system's own source.
@[inline] def draws {α : Type} (x : ParticleSystem → Act Source α) : Act ParticleSystem α := fun s =>
  let (r, source) := x s s.source
  (r, { s with source })

@[inline] def push (p : Particle) : Act ParticleSystem Unit :=
  Act.modify fun s => { s with particles := s.particles.push p }

-- Room for that many more particles. Those that are there have theirs.
def reserve (count : Nat) : Act ParticleSystem Unit := fun s =>
  (if count = 0 then .ok () else Word.allocate ((s.particles.size + count) * Particle.footprint), s)

def emitEach : Nat → Act ParticleSystem Unit
  | 0 => pure ()
  | n + 1 => do
    let p ← draws fun s => Particle.spawn s.config.particle s.emitter
    push p
    emitEach n

def emit (count : Nat) : Act ParticleSystem Unit := do
  reserve count
  emitEach count

-- The slowest and the fastest particle of a radial burst.
def burstSpeed : Float × Float := (50, 200)

-- Particle `i` of `count` leaves at its share of a full turn.
def direction (i count : Nat) : Vec2 :=
  let angle := (Float.ofNat i / Float.ofNat count) * 6.283185307179586
  ⟨angle.cos, angle.sin⟩

-- The last `left` particles of a radial burst. The speed is drawn before all else.
def emitRadialFrom (count : Nat) : Nat → Act ParticleSystem Unit
  | 0 => pure ()
  | left + 1 => do
    let speed ← draws fun _ => Source.float burstSpeed.1 burstSpeed.2
    let p ← draws fun s => Particle.spawn s.config.particle s.emitter
    push { p with velocity := (direction (count - (left + 1)) count).scale speed }
    emitRadialFrom count left

def emitRadial (count : Nat) : Act ParticleSystem Unit := do
  reserve count
  emitRadialFrom count count

-- At most one particle is emitted, however much time has passed.
def emitDue (dt : Float) : Act ParticleSystem Unit := do
  match (← Act.get).config.interval? with
  | none => pure ()
  | some interval =>
    let elapsed := (← Act.get).sinceEmit + dt
    Act.modify fun s => { s with sinceEmit := elapsed }
    if TimeArithmetic.float.due interval elapsed then
      emit 1
      Act.modify fun s => { s with sinceEmit := TimeArithmetic.float.carry interval elapsed }

-- Every particle moves, and the dead are removed.
def advance (dt : Float) (s : ParticleSystem) : ParticleSystem :=
  { s with particles := (s.particles.map (Particle.step dt)).filter Particle.isAlive }

def update (dt : Float) : Act ParticleSystem Unit :=
  if !dt.isFinite || dt < 0 then Act.fail .badTimeStep
  else do
    emitDue dt
    Act.modify (advance dt)

def draw (f : Frame) (s : ParticleSystem) : Except Fault Frame :=
  s.particles.toList.foldlM Particle.draw f

end ParticleSystem

end ParticleFx
