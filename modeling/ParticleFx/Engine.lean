import ParticleFx.Effect.Apply
import ParticleFx.Effect.Spelling
import ParticleFx.ParticleSystem

namespace ParticleFx

-- A handle to a registered system. Numbers are given out once.
structure SystemId where
  number : Nat
deriving DecidableEq

structure PendingEffect where
  request : EffectRequest
  lifetime : EffectLifetime
deriving DecidableEq

-- Systems in the order they were registered, requests in the order they were accepted, and the
-- last frame that was rendered.
structure Engine where
  systems : List (SystemId × ParticleSystem)
  effects : List PendingEffect
  previous : Option Frame
  source : Source
  nextId : Nat
deriving DecidableEq

namespace Engine

def ofSeed (seed : UInt64) : Engine where
  systems := []
  effects := []
  previous := none
  source := .ofSeed seed
  nextId := 0

-- A draw from the engine's own source.
@[inline] def draws {α : Type} (x : Act Source α) : Act Engine α :=
  Act.focus Engine.source (fun source e => { e with source }) x

-- The system's source is drawn before its configuration is checked.
def addSystem (config : SystemConfig) : Act Engine SystemId := do
  let source ← draws Source.fork
  let system ← Act.check (ParticleSystem.make config source)
  let id : SystemId := ⟨(← Act.get).nextId⟩
  Act.modify fun e => { e with systems := e.systems ++ [(id, system)], nextId := e.nextId + 1 }
  return id

def system? (e : Engine) (id : SystemId) : Option ParticleSystem :=
  e.systems.lookup id

-- Runs a step on the first system with the handle.
def stepOn {α : Type} (id : SystemId) (x : Act ParticleSystem α) :
    List (SystemId × ParticleSystem) → Option (Except Fault α × List (SystemId × ParticleSystem))
  | [] => none
  | (i, s) :: rest =>
    if i = id then
      let (r, s) := x s
      some (r, (i, s) :: rest)
    else (stepOn id x rest).map fun (r, rest) => (r, (i, s) :: rest)

-- A step on one system; `none` when the handle is gone.
def onSystem {α : Type} (id : SystemId) (x : Act ParticleSystem α) : Act Engine (Option α) := fun e =>
  match stepOn id x e.systems with
  | none => (.ok none, e)
  | some (r, systems) => (r.map some, { e with systems })

def particleCount (e : Engine) : Nat :=
  e.systems.foldl (fun n (_, s) => n + s.particles.size) 0

def pushEffect (request : EffectRequest) (lifetime : EffectLifetime) : Act Engine Unit := do
  Act.check request.validate
  Act.modify fun e => { e with effects := e.effects ++ [⟨request, lifetime⟩] }

def addEffect (request : EffectRequest) : Act Engine Unit :=
  pushEffect request .persistent

def addOneShot (request : EffectRequest) : Act Engine Unit :=
  pushEffect request .oneShot

def addByKind (kind : String) (params : Json) : Act Engine Unit := do
  addEffect (← Act.check (EffectKind.request kind params))

def clearEffects (e : Engine) : Engine :=
  { e with effects := [] }

def clearParticles (e : Engine) : Engine :=
  { e with systems := [] }

-- Systems are updated in order up to the first that fails.
def updateAll (dt : Float) : List (SystemId × ParticleSystem) → Except Fault Unit × List (SystemId × ParticleSystem)
  | [] => (.ok (), [])
  | (id, s) :: rest =>
    match ParticleSystem.update dt s with
    | (.ok (), s) =>
      let (r, rest) := updateAll dt rest
      (r, (id, s) :: rest)
    | (.error e, s) => (.error e, (id, s) :: rest)

def update (dt : Float) : Act Engine Unit := fun e =>
  let (r, systems) := updateAll dt e.systems
  (r, { e with systems })

def drawAll (systems : List (SystemId × ParticleSystem)) (f : Frame) : Except Fault Frame :=
  systems.foldlM (fun f (_, s) => s.draw f) f

def applyAll (previous : Option Frame) : List PendingEffect → Frame → Act Source Frame
  | [], f => pure f
  | p :: rest, f => do applyAll previous rest (← Effect.apply f previous p.request)

-- Systems are drawn over the base, then every request is applied. Nothing is forgotten and
-- nothing remembered unless all of it succeeds.
def render (base : Frame) : Act Engine Frame := do
  Act.check base.validate
  let e ← Act.get
  let drawn ← Act.check (drawAll e.systems base)
  let frame ← draws (applyAll e.previous e.effects drawn)
  Act.modify fun e =>
    { e with
      effects := e.effects.filter fun p => p.lifetime = .persistent
      previous := some frame }
  return frame

end Engine

end ParticleFx
