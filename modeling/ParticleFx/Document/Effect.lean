import ParticleFx.Document.Values
import ParticleFx.Effect.Request

namespace ParticleFx.Document

open Json

def glowRecord : Record [Float32, Nat] where
  name := "GlowParams"
  fields :=
    let p : GlowParams := {}
    .optional "intensity" .single p.intensity <| .optional "radius" .word32 p.radius .nil
  strict := false

def glow : Codec GlowParams :=
  glowRecord.codec (fun p => (p.intensity, p.radius, ()))
    (fun (intensity, radius, ()) => { intensity, radius })

def motionBlurRecord : Record [Float32] where
  name := "MotionBlurParams"
  fields :=
    let p : MotionBlurParams := {}
    .optional "strength" .single p.strength .nil
  strict := false

def motionBlur : Codec MotionBlurParams :=
  motionBlurRecord.codec (fun p => (p.strength, ())) (fun (strength, ()) => { strength })

def shakeRecord : Record [Nat] where
  name := "ShakeParams"
  fields :=
    let p : ShakeParams := {}
    .optional "intensity" .word32 p.intensity .nil
  strict := false

def shake : Codec ShakeParams :=
  shakeRecord.codec (fun p => (p.intensity, ())) (fun (intensity, ()) => { intensity })

def glitchRecord : Record [Float32] where
  name := "GlitchParams"
  fields :=
    let p : GlitchParams := {}
    .optional "intensity" .single p.intensity .nil
  strict := false

def glitch : Codec GlitchParams :=
  glitchRecord.codec (fun p => (p.intensity, ())) (fun (intensity, ()) => { intensity })

def radialBlurRecord : Record [Option Vec2, Float32, Bool] where
  name := "RadialBlurParams"
  fields :=
    let p : RadialBlurParams := {}
    .optional "center" (.optional point) p.center <|
    .optional "strength" .single p.strength <|
    .optional "masked" .boolean p.masked .nil
  strict := false

def radialBlur : Codec RadialBlurParams :=
  radialBlurRecord.codec (fun p => (p.center, p.strength, p.masked, ()))
    (fun (center, strength, masked, ()) => { center, strength, masked })

-- The parameters of a request of a known kind.
def readParams (kind : EffectKind) (origin : Origin) (j : Json) :
    Except DecodeError EffectRequest :=
  match kind with
  | .glow => (glow.read origin j).map .glow
  | .motionBlur => (motionBlur.read origin j).map .motionBlur
  | .shake => (shake.read origin j).map .shake
  | .glitch => (glitch.read origin j).map .glitch
  | .radialBlur => (radialBlur.read origin j).map .radialBlur

def writeParams : EffectRequest → Datum
  | .glow p => glow.write p
  | .motionBlur p => motionBlur.write p
  | .shake p => shake.write p
  | .glitch p => glitch.write p
  | .radialBlur p => radialBlur.write p

def kindChoices : List (String × EffectKind) :=
  EffectKind.all.map fun k => (k.name, k)

def readKind (j : Json) : Except DecodeError EffectKind :=
  Codec.readChoice kindChoices j

-- The members of a request that count.
inductive RequestPart where
  | kind (value : Json)
  | params (value : Json)

-- The next member that counts, and what follows it. Others are skipped.
def nextPart : Members → Except DecodeError (Option (RequestPart × Members))
  | .closed => .ok none
  | .cut trouble => .error (.malformed trouble.reading)
  | .cons (.error why) _ _ => .error (.malformed why)
  | .cons (.ok name) value rest =>
    if name = "kind" then .ok (some (.kind value, rest))
    else if name = "params" then .ok (some (.params value, rest))
    else
      match value.skim with
      | some why => .error (.malformed why)
      | none => nextPart rest

-- Once both are read, neither may come again.
def noMoreParts (members : Members) : Except DecodeError Unit := do
  match ← nextPart members with
  | none => .ok ()
  | some (.kind _, _) => .error (.duplicateField "kind")
  | some (.params _, _) => .error (.duplicateField "params")

-- Parameters that come before their kind are taken in whole, and read once the kind is known.
def readRequestMembers (origin : Origin) (members : Members) : Except DecodeError EffectRequest := do
  match ← nextPart members with
  | none => .error (.missingField "kind")
  | some (.kind value, rest) =>
    let kind ← readKind value
    match ← nextPart rest with
    | none => .error (.missingField "params")
    | some (.kind _, _) => .error (.duplicateField "kind")
    | some (.params value, rest) =>
      let request ← readParams kind origin value
      noMoreParts rest
      return request
  | some (.params params, rest) =>
    let room := match origin with
      | .text room => room
      | _ => 128
    match params.absorb room with
    | some why => .error (.malformed why)
    | none =>
      match ← nextPart rest with
      | none => .error (.missingField "kind")
      | some (.params _, _) => .error (.duplicateField "params")
      | some (.kind value, rest) =>
        let kind ← readKind value
        let request ← readParams kind .buffered params
        noMoreParts rest
        return request

def requestName : String := "adjacently tagged enum EffectRequest"

-- The kind and the parameters in order. Here the kind is a bare name.
def readRequestItems (origin : Origin) : Items → Except DecodeError EffectRequest
  | .closed => .error (.invalidLength 0 requestName)
  | .cut trouble => .error (.malformed trouble.reading)
  | .cons value rest => do
    let kind ← Codec.readName kindChoices value
    match rest with
    | .closed => .error (.invalidLength 1 requestName)
    | .cut trouble => .error (.malformed trouble.reading)
    | .cons value rest =>
      let request ← readParams kind origin value
      match Record.afterLast origin (rest.length + 2) 2 rest with
      | some e => .error e
      | none => .ok request

def request : Codec EffectRequest where
  write r := .record [("kind", .string r.kind.name), ("params", writeParams r)]
  read origin j :=
    match j with
    | .object members => readRequestMembers origin.inner members
    | .array items => readRequestItems origin.inner items
    | _ => .error (misfit requestName j)

def lifetimeName : EffectLifetime → String
  | .persistent => "persistent"
  | .oneShot => "one_shot"

def lifetime : Codec EffectLifetime where
  write l := .string (lifetimeName l)
  read _ j := Codec.readChoice ([.persistent, .oneShot].map fun l => (lifetimeName l, l)) j

end ParticleFx.Document
