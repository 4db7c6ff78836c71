import ParticleFx.Effect.Request
import ParticleFx.Frame
import ParticleFx.Particle.Template
import ParticleFx.Timing

namespace ParticleFx

structure Canvas where
  width : Nat
  height : Nat
deriving DecidableEq

-- An emitter, how it moves once it has started, and the frame it starts on.
structure EmitterDef where
  config : SystemConfig
  motion : Vec2 := .zero
  start : Nat := 0
deriving DecidableEq, BEq

-- Particles fired at once from an emitter, as usual or over a full circle.
structure BurstDef where
  frame : Nat
  emitter : Nat
  count : Nat
  radial : Bool := false
deriving DecidableEq

-- An effect on every `every`-th frame of a range.
structure ScheduledEffect where
  effect : EffectRequest
  range : FrameRange
  every : Nat := 1
deriving DecidableEq, BEq

def ScheduledEffect.isActive (s : ScheduledEffect) (frame : Nat) : Bool :=
  s.range.contains frame && decide (0 < s.every) && decide ((frame - s.range.start) % s.every = 0)

-- A shot as plain data.
structure Scene where
  canvas : Canvas
  fps : Fps
  duration : Nat
  seed : UInt64 := 0
  background : Color := .black
  emitters : List EmitterDef := []
  bursts : List BurstDef := []
  effects : List ScheduledEffect := []
deriving DecidableEq, BEq

-- Checks items in order, each with its place in the list.
def checkEach {α : Type} (check : Nat → α → Except Fault Unit) : Nat → List α → Except Fault Unit
  | _, [] => .ok ()
  | i, a :: rest => do
    check i a
    checkEach check (i + 1) rest

namespace Scene

def range (s : Scene) : FrameRange := ⟨0, s.duration⟩

def baseFrame (s : Scene) : Frame :=
  .filled s.canvas.width s.canvas.height s.background

def checkEmitter (i : Nat) (e : EmitterDef) : Except Fault Unit := do
  match e.config.validate with
  | .error cause => .error (.emitterConfig i cause)
  | .ok () => if e.motion.isFinite then .ok () else .error (.emitterMotion i)

def checkBurst (s : Scene) (i : Nat) (b : BurstDef) : Except Fault Unit :=
  match s.emitters[b.emitter]? with
  | none => .error (.burstEmitter i b.emitter s.emitters.length)
  | some e =>
    if s.duration ≤ b.frame then .error (.burstOutside i b.frame s.duration)
    else if b.frame < e.start then .error (.burstBeforeStart i b.frame b.emitter e.start)
    else .ok ()

def checkScheduled (s : Scene) (i : Nat) (e : ScheduledEffect) : Except Fault Unit :=
  match e.effect.validate with
  | .error cause => .error (.scheduledRequest i cause)
  | .ok () =>
    if e.range.stop < e.range.start ∨ s.duration < e.range.stop then
      .error (.scheduledRange i s.duration)
    else if e.every = 0 then .error (.scheduledEvery i)
    else .ok ()

-- Everything that playing the scene relies on.
def validate (s : Scene) : Except Fault Unit := do
  if s.canvas.width = 0 ∨ s.canvas.height = 0 then .error .emptyCanvas
  s.fps.validate
  if s.duration = 0 then .error .zeroDuration
  checkEach checkEmitter 0 s.emitters
  checkEach s.checkBurst 0 s.bursts
  checkEach s.checkScheduled 0 s.effects

end Scene

end ParticleFx
