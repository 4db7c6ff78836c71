import ParticleFx.Color
import ParticleFx.Geometry
import ParticleFx.Json.Record
import ParticleFx.Timing

namespace ParticleFx.Document

open Json

def colorRecord : Record [UInt8, UInt8, UInt8, UInt8] where
  name := "Rgba8"
  fields := .required "r" .byte <| .required "g" .byte <| .required "b" .byte <|
    .required "a" .byte .nil
  strict := false

def color : Codec Color :=
  colorRecord.codec (fun c => (c.r, c.g, c.b, c.a, ())) (fun (r, g, b, a, ()) => ⟨r, g, b, a⟩)

-- Displacements and points look the same, but a misfit names the one that was wanted.
def pairRecord (name : String) : Record [Float, Float] where
  name := name
  fields := .required "x" .double <| .required "y" .double .nil
  strict := false

def pair (name : String) : Codec Vec2 :=
  (pairRecord name).codec (fun v => (v.x, v.y, ())) (fun (x, y, ()) => ⟨x, y⟩)

def vec2 : Codec Vec2 := pair "Vec2"
def point : Codec Vec2 := pair "Point"

def fpsRecord : Record [Nat, Nat] where
  name := "Fps"
  fields := .required "num" .word32 <| .required "den" .word32 .nil
  strict := false

def fps : Codec Fps :=
  fpsRecord.codec (fun f => (f.num, f.den, ())) (fun (num, den, ()) => ⟨num, den⟩)

def frameIndex : Codec Nat := .word64

def frameRangeRecord : Record [Nat, Nat] where
  name := "FrameRange"
  fields := .required "start" frameIndex <| .required "end" frameIndex .nil
  strict := false

def frameRange : Codec FrameRange :=
  frameRangeRecord.codec (fun r => (r.start, r.stop, ())) (fun (start, stop, ()) => ⟨start, stop⟩)

end ParticleFx.Document
