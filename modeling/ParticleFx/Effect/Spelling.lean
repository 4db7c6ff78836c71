import ParticleFx.Document.Effect
import ParticleFx.Text.Blank

namespace ParticleFx.EffectKind

-- Case, dashes and underscores do not count in the name of a kind.
def normalize (cs : List Char) : List Char :=
  ((Text.trimChars cs).filter fun c => c ≠ '_' ∧ c ≠ '-').map Char.toLower

def ofSpelling? (kind : String) : Option EffectKind :=
  all.find? fun k => normalize k.name.toList == normalize kind.toList

-- A request from a loosely spelled kind and its parameters. Null leaves all parameters out.
def request (kind : String) (params : Json) : Except Fault EffectRequest :=
  if normalize kind.toList = [] then .error .emptyKind
  else
    match ofSpelling? kind with
    | none => .error (.unsupportedKind (Text.trim kind))
    | some k => do
      let request ←
        match params with
        | .null => .ok (defaults k)
        | _ =>
          match Document.readParams k .tree params.ordered with
          | .ok r => .ok r
          | .error why => .error (.badParams kind why)
      request.validate
      return request
where
  defaults : EffectKind → EffectRequest
    | glow => .glow {}
    | motionBlur => .motionBlur {}
    | shake => .shake {}
    | glitch => .glitch {}
    | radialBlur => .radialBlur {}

end ParticleFx.EffectKind
