import ParticleFx.Effect.Blur
import ParticleFx.Effect.Request
import ParticleFx.Number.Rounding
import ParticleFx.Number.Word
import ParticleFx.Random.Source

namespace ParticleFx.Effect

-- The frame with a blurred copy added.
def glow (f : Frame) (intensity : Float32) (radius : Nat) : Except Fault Frame := do
  f.validate
  let blurred ← Blur.frame f (Blur.oddSize radius)
  return { f with data := Array.zipWith (fun a b => weightedByte a 1 b intensity) f.data blurred.data }

def unitInterval (x : Float32) : Float32 :=
  if x.isNaN then 0 else if x < 0 then 0 else if x > 1 then 1 else x

-- The frame mixed with the one before it.
def motionBlur (f previous : Frame) (strength : Float32) : Except Fault Frame := do
  f.validate
  previous.validate
  if f.sameSize previous then
    let s := unitInterval strength
    return { f with
      data := Array.zipWith (fun a b => weightedByte a (1 - s) b s) f.data previous.data }
  else .error (.sizesDiffer f.width f.height previous.width previous.height)

-- A run of bytes that is copied: where it is read, where it is written, and how long it is.
structure Span where
  source : Nat
  target : Nat
  length : Nat
deriving DecidableEq

def Span.copy (span : Span) (data out : Array UInt8) : Array UInt8 :=
  span.length.fold
    (fun i _ out => out.setIfInBounds (span.target + i) (data.getD (span.source + i) 0))
    out

-- What is copied into row `y` when the pixels move by the offset: the columns from `x0` up to `x1`
-- are covered, if the row that would cover them is in the frame.
def coveredSpan? (f : Frame) (dx dy : Int) (y : Nat) : Option Span :=
  let row : Int := y - dy
  let x0 := max dx 0
  let x1 := min (f.width + dx) f.width
  if row < 0 ∨ f.height ≤ row ∨ x1 ≤ x0 then none
  else
    some
      { source := 4 * (row.toNat * f.width + (x0 - dx).toNat)
        target := 4 * (y * f.width + x0.toNat)
        length := 4 * (x1 - x0).toNat }

def coverRow (f : Frame) (dx dy : Int) (y : Nat) (out : Array UInt8) : Array UInt8 :=
  match coveredSpan? f dx dy y with
  | some span => span.copy f.data out
  | none => out

-- Every pixel moved by the offset. What leaves the frame is lost, and what is not covered is clear.
def shakeBy (f : Frame) (dx dy : Int) : Except Fault Frame := do
  f.validate
  let clear := (Frame.blank f.width f.height).data
  return { f with data := f.height.fold (fun y _ out => coverRow f dx dy y out) clear }

-- Moved by a random offset; the draws come before the frame is looked at.
def shake (f : Frame) (intensity : Nat) : Act Source Frame :=
  if 0x80000000 ≤ intensity then Act.fail .shakeOutOfRange
  else do
    let dx ← Source.integer (-intensity) intensity
    let dy ← Source.integer (-intensity) intensity
    Act.check (shakeBy f dx dy)

-- Every row turned in a ring, by an amount that depends on the row and the channel.
def rolled (width : Nat) (turn : Nat → Nat → Int) (data : Array UInt8) : Array UInt8 :=
  let source (k : Nat) : Nat :=
    let y := k / 4 / width
    let x := ((k / 4 % width : Nat) - turn y (k % 4)) % (width : Int)
    4 * (y * width + x.toNat) + k % 4
  Array.ofFn fun k : Fin data.size => data.getD (source k) 0

-- A row can be turned when every column of it, less the amount, is a word.
def checkTurn (width : Nat) (amount : Int) : Except Fault Unit :=
  if ∀ x < width, Word.IsSigned (x - amount) then .ok () else .error .aborted

-- Red goes right and blue goes left.
def splitChannels (width : Nat) (shift : Int) (data : Array UInt8) : Except Fault (Array UInt8) := do
  if shift = 0 then return data
  checkTurn width shift
  let back ← Word.signed (-shift)
  checkTurn width back
  return rolled width (fun _ c => if c = 0 then shift else if c = 2 then back else 0) data

-- Rows that are displaced together.
structure Band where
  start : Nat
  stop : Nat
  offset : Int
deriving DecidableEq

def Band.least : Int := 5
def Band.most : Int := 50
def Band.reach : Int := 20

def displaceBand (width : Nat) (band : Band) (data : Array UInt8) : Except Fault (Array UInt8) := do
  checkTurn width band.offset
  return rolled width (fun y _ => if band.start ≤ y ∧ y < band.stop then band.offset else 0) data

-- A band somewhere in a frame of the given height, cut off at its lower edge.
def drawBand (height : Nat) : Act Source Band := do
  let rows : Int := min (height : Int) 0x7fffffff
  let start ← Source.integer 0 (max (rows - Band.most) 0)
  let tall ← Source.integer Band.least Band.most
  let offset ← Source.integer (-Band.reach) Band.reach
  return ⟨start.toNat, (min (start + tall) rows).toNat, offset⟩

-- How many columns a glitch moves red to the right and blue to the left.
def glitchShift (intensity : Float32) : Int :=
  wholePart (widen (intensity * 10))

-- Channels split, and at times a band of rows displaced.
def glitch (f : Frame) (intensity : Float32) : Act Source Frame := do
  Act.check f.validate
  if f.width = 0 ∨ f.height = 0 then return f
  let split ← Act.check (splitChannels f.width (glitchShift intensity) f.data)
  if ← Source.chance (widen intensity) then
    let band ← drawBand f.height
    let displaced ← Act.check (displaceBand f.width band split)
    return { f with data := displaced }
  else return { f with data := split }

-- Blend after blend with the blurred bytes, each with a larger share.
def blends (scaled : Float32) (blurred : Array UInt8) (count : Nat) (data : Array UInt8) :
    Array UInt8 :=
  count.fold
    (fun i _ data =>
      let a := Float32.ofNat (i + 1) / scaled * 0.1
      Array.zipWith (fun d b => weightedByte d (1 - a) b a) data blurred)
    data

-- The share of the farthest corner's distance within which the mask keeps pixels.
def maskThreshold : Float := 0.3

-- Distances are measured from the center to whole pixel coordinates.
def pixelDistance (center : Vec2) (x y : Nat) : Float :=
  distance (Float.ofNat x - center.x) (Float.ofNat y - center.y)

def corners (width height : Nat) : List (Nat × Nat) :=
  [(0, 0), (width - 1, 0), (0, height - 1), (width - 1, height - 1)]

def farthestCorner (width height : Nat) (center : Vec2) : Float :=
  (corners width height).foldl
    (fun far (x, y) =>
      let d := pixelDistance center x y
      if d > far then d else far)
    0

def keptSharp (far : Float) (center : Vec2) (x y : Nat) : Bool :=
  let share := if far > 0 then pixelDistance center x y / far else 0
  !(share > maskThreshold)

-- The pixels near the center come from the input.
def masked (f : Frame) (center : Vec2) (data : Array UInt8) : Array UInt8 :=
  let far := farthestCorner f.width f.height center
  let kept := Array.ofFn fun i : Fin (f.width * f.height) =>
    keptSharp far center (i % f.width) (i / f.width)
  Array.ofFn fun k : Fin data.size =>
    if kept.getD (k / 4) false then f.data.getD k 0 else data.getD k 0

def middle (f : Frame) : Vec2 :=
  ⟨Float.ofNat (f.width / 2), Float.ofNat (f.height / 2)⟩

-- The size of the kernel behind the blends.
def radialKernel : Nat := 15

def radialBlur (f : Frame) (center : Option Vec2) (strength : Float32) (mask : Bool) :
    Except Fault Frame := do
  f.validate
  if strength > Float32.ofNat EffectRequest.maxRadialStrength then
    .error (.radialStrengthTooLarge EffectRequest.maxRadialStrength)
  let scaled := strength * 10
  if !scaled.isFinite || scaled < 1 then return f
  let blurred ← Blur.frame f radialKernel
  let data := blends scaled blurred.data scaled.toUInt32.toNat f.data
  return { f with data := if mask then masked f (center.getD (middle f)) data else data }

-- Motion blur without an earlier frame of the same size changes nothing.
def apply (f : Frame) (previous : Option Frame) (request : EffectRequest) : Act Source Frame := do
  Act.check request.validate
  match request with
  | .glow p => Act.check (glow f p.intensity p.radius)
  | .motionBlur p =>
    match previous with
    | some before => if before.sameSize f then Act.check (motionBlur f before p.strength) else return f
    | none => return f
  | .shake p => shake f p.intensity
  | .glitch p => glitch f p.intensity
  | .radialBlur p => Act.check (radialBlur f p.center p.strength p.masked)

end ParticleFx.Effect
