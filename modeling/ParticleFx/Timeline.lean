import ParticleFx.Engine
import ParticleFx.Number.Word
import ParticleFx.Scene
import ParticleFx.Sink

namespace ParticleFx

-- A scene being played: the engine, and for each emitter the system that stands for it once it
-- has started.
structure Timeline where
  engine : Engine
  slots : List (Option SystemId)
deriving DecidableEq

namespace Timeline

-- The background is made once, before the first frame.
def start (scene : Scene) : Except Fault Timeline := do
  scene.validate
  Word.allocate (scene.canvas.width * scene.canvas.height * 4)
  return ⟨.ofSeed scene.seed, scene.emitters.map fun _ => none⟩

-- One emitter on one frame: a started one moves, and one whose frame has come starts.
def stepEmitter (dt : Float) (frame : Nat) (emitter : EmitterDef) :
    Option SystemId → Act Engine (Option SystemId)
  | some id => do
    let _ ← Engine.onSystem id (Act.modify fun s => s.moveTo (s.emitter + emitter.motion.scale dt))
    return some id
  | none => if emitter.start = frame then return some (← Engine.addSystem emitter.config) else return none

def stepEmitters (dt : Float) (frame : Nat) :
    List EmitterDef → List (Option SystemId) → Act Engine (List (Option SystemId))
  | d :: ds, slot :: slots => do
    let slot ← stepEmitter dt frame d slot
    let slots ← stepEmitters dt frame ds slots
    return slot :: slots
  | _, _ => return []

def fire (slots : List (Option SystemId)) (b : BurstDef) : Act Engine Unit := do
  let burst := if b.radial then ParticleSystem.emitRadial b.count else ParticleSystem.emit b.count
  match slots[b.emitter]?.join with
  | none => Act.fail (.burstTooEarly b.frame b.emitter)
  | some id =>
    match ← Engine.onSystem id burst with
    | none => Act.fail (.burstTooEarly b.frame b.emitter)
    | some () => return ()

def fireAll (slots : List (Option SystemId)) : List BurstDef → Act Engine Unit
  | [] => return ()
  | b :: rest => do
    fire slots b
    fireAll slots rest

def queueAll : List ScheduledEffect → Act Engine Unit
  | [] => return ()
  | s :: rest => do
    Engine.addOneShot s.effect
    queueAll rest

-- Emitters, bursts, one step of time, the effects of this frame, and the picture.
def stepEngine (scene : Scene) (frame : Nat) (slots : List (Option SystemId)) :
    Act Engine (List (Option SystemId) × Frame) := do
  let dt := scene.fps.frameSeconds
  let slots ← stepEmitters dt frame scene.emitters slots
  fireAll slots (scene.bursts.filter fun b => b.frame = frame)
  Engine.update dt
  queueAll (scene.effects.filter fun s => s.isActive frame)
  let picture ← Engine.render scene.baseFrame
  return (slots, picture)

def step (scene : Scene) (frame : Nat) : Act Timeline Frame := fun t =>
  match stepEngine scene frame t.slots t.engine with
  | (.ok (slots, picture), engine) => (.ok picture, ⟨engine, slots⟩)
  | (.error e, engine) => (.error e, { t with engine })

end Timeline

-- What a whole render amounts to.
structure RenderStats where
  frames : Nat := 0
  peakParticles : Nat := 0
deriving DecidableEq

def RenderStats.count (stats : RenderStats) (particles : Nat) : RenderStats :=
  ⟨stats.frames + 1, max stats.peakParticles particles⟩

namespace Scene

def sinkConfig (s : Scene) : SinkConfig :=
  ⟨s.canvas.width, s.canvas.height, s.fps⟩

-- The next `left` frames, from `frame` on.
def renderFrom {σ : Type} (scene : Scene) (sink : Sink σ) :
    Nat → Nat → Timeline → RenderStats → Act σ RenderStats
  | 0, _, _, stats => return stats
  | left + 1, frame, t, stats => do
    let (picture, t) := Timeline.step scene frame t
    sink.push frame (← Act.check picture)
    renderFrom scene sink left (frame + 1) t (stats.count t.engine.particleCount)

-- Every frame into the sink.
def render {σ : Type} (scene : Scene) (sink : Sink σ) : Act σ RenderStats := do
  let t ← Act.check (Timeline.start scene)
  sink.start scene.sinkConfig
  let stats ← renderFrom scene sink scene.duration 0 t {}
  sink.finish
  return stats

-- The frame that comes `left` frames after `frame`.
def playFrom (scene : Scene) : Nat → Nat → Timeline → Except Fault Frame
  | 0, frame, t => (Timeline.step scene frame t).1
  | left + 1, frame, t =>
    match Timeline.step scene frame t with
    | (.ok _, t) => playFrom scene left (frame + 1) t
    | (.error e, _) => .error e

-- One frame, played from the beginning.
def renderFrame (scene : Scene) (frame : Nat) : Except Fault Frame := do
  if scene.duration ≤ frame then .error (.frameOutside frame scene.duration)
  let t ← Timeline.start scene
  playFrom scene frame 0 t

end Scene

end ParticleFx
