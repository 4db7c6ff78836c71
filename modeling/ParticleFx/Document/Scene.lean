import ParticleFx.Document.Effect
import ParticleFx.Document.Particle
import ParticleFx.Scene

namespace ParticleFx.Document

open Json

def canvasRecord : Record [Nat, Nat] where
  name := "Canvas"
  fields := .required "width" .word32 <| .required "height" .word32 .nil
  strict := false

def canvas : Codec Canvas :=
  canvasRecord.codec (fun c => (c.width, c.height, ())) (fun (width, height, ()) => ⟨width, height⟩)

def emitterRecord : Record [SystemConfig, Vec2, Nat] where
  name := "EmitterDef"
  fields :=
    .required "config" systemConfig <|
    .optional "motion" vec2 .zero <|
    .optional "start" .word64 0 .nil
  strict := true

def emitter : Codec EmitterDef :=
  emitterRecord.codec (fun e => (e.config, e.motion, e.start, ()))
    (fun (config, motion, start, ()) => { config, motion, start })

def burstRecord : Record [Nat, Nat, Nat, Bool] where
  name := "BurstDef"
  fields :=
    .required "frame" .word64 <|
    .required "emitter" .size <|
    .required "count" .size <|
    .optional "radial" .boolean false .nil
  strict := true

def burst : Codec BurstDef :=
  burstRecord.codec (fun b => (b.frame, b.emitter, b.count, b.radial, ()))
    (fun (frame, emitter, count, radial, ()) => { frame, emitter, count, radial })

def scheduledRecord : Record [EffectRequest, FrameRange, Nat] where
  name := "ScheduledEffect"
  fields :=
    .required "effect" request <|
    .required "range" frameRange <|
    .optional "every" .word64 1 .nil
  strict := true

def scheduled : Codec ScheduledEffect :=
  scheduledRecord.codec (fun s => (s.effect, s.range, s.every, ()))
    (fun (effect, range, every, ()) => { effect, range, every })

def sceneRecord :
    Record [Canvas, Fps, Nat, Nat, Color, List EmitterDef, List BurstDef, List ScheduledEffect] where
  name := "VfxScene"
  fields :=
    .required "canvas" canvas <|
    .required "fps" fps <|
    .required "duration" .word64 <|
    .optional "seed" .word64 0 <|
    .optional "background" color .black <|
    .optional "emitters" (.list emitter) [] <|
    .optional "bursts" (.list burst) [] <|
    .optional "effects" (.list scheduled) [] .nil
  strict := true

def scene : Codec Scene :=
  sceneRecord.codec
    (fun s => (s.canvas, s.fps, s.duration, s.seed.toNat, s.background, s.emitters, s.bursts,
      s.effects, ()))
    (fun (canvas, fps, duration, seed, background, emitters, bursts, effects, ()) =>
      { canvas, fps, duration, seed := seed.toUInt64, background, emitters, bursts, effects })

end ParticleFx.Document

namespace ParticleFx.Scene

-- A scene from its text. It is not validated.
def ofText (text : String) : Except Fault Scene :=
  match Document.scene.ofText text with
  | .ok s => .ok s
  | .error why => .error (.sceneUnreadable why)

end ParticleFx.Scene
