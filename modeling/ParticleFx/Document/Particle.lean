import ParticleFx.Document.Values
import ParticleFx.Particle.Template

namespace ParticleFx.Document

open Json

def templateRecord :
    Record [Vec2, Vec2, Vec2, Float, Float, Color, Float, Float, Float, Float] where
  name := "ParticleTemplate"
  fields :=
    let t : Template := {}
    .optional "velocity" vec2 t.velocity <|
    .optional "velocity_random" vec2 t.velocityRandom <|
    .optional "acceleration" vec2 t.acceleration <|
    .optional "lifetime" .double t.lifetime <|
    .optional "lifetime_random" .double t.lifetimeRandom <|
    .optional "color" color t.color <|
    .optional "size" .double t.size <|
    .optional "size_random" .double t.sizeRandom <|
    .optional "spread" .double t.spread <|
    .optional "angular_velocity" .double t.angularVelocity .nil
  strict := false

def template : Codec Template :=
  templateRecord.codec
    (fun t => (t.velocity, t.velocityRandom, t.acceleration, t.lifetime, t.lifetimeRandom, t.color,
      t.size, t.sizeRandom, t.spread, t.angularVelocity, ()))
    (fun (velocity, velocityRandom, acceleration, lifetime, lifetimeRandom, color, size,
        sizeRandom, spread, angularVelocity, ()) =>
      { velocity, velocityRandom, acceleration, lifetime, lifetimeRandom, color, size, sizeRandom,
        spread, angularVelocity })

def systemConfigRecord : Record [Vec2, Float, Template] where
  name := "ParticleSystemConfig"
  fields :=
    let c : SystemConfig := {}
    .optional "position" vec2 c.position <|
    .optional "rate" .double c.rate <|
    .optional "particle" template c.particle .nil
  strict := false

def systemConfig : Codec SystemConfig :=
  systemConfigRecord.codec (fun c => (c.position, c.rate, c.particle, ()))
    (fun (position, rate, particle, ()) => { position, rate, particle })

end ParticleFx.Document
