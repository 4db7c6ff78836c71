import ParticleFx.Effect.Kernel
import ParticleFx.Frame
import ParticleFx.Number.Exponential

namespace ParticleFx.Blur

-- The least odd size that is not below the wanted one.
def oddSize (size : Nat) : Nat :=
  if size % 2 = 0 then size + 1 else size

-- The width of the bell that suits a kernel size.
def sigmaFor (size : Nat) : Float32 :=
  0.3 * ((Float32.ofNat size - 1) * 0.5 - 1) + 0.8

def maxRadius : Nat := 1073741823

-- A weighted sum in units of `1 / 2 ^ 16` as a byte.
def quantize (sum : Nat) : UInt8 :=
  (min ((sum + 0x8000) / 0x10000) 255).toUInt8

-- The place that tap `t` reads from at place `i`; past either end the end is repeated.
def clampedAt (i t reach last : Nat) : Nat :=
  min (i + t - reach) last

-- The weighted sum of what the taps read.
def weighted (taps : Array Nat) (sample : Nat → UInt8) : Nat :=
  taps.size.fold (fun t _ sum => sum + taps[t] * (sample t).toNat) 0

-- Parallel lines of pixels through packed bytes. One step leads from the first pixel of a line to
-- that of the next line, the other from a pixel to the next one of its line.
structure Lines where
  count : Nat
  length : Nat
  startStep : Nat
  step : Nat

namespace Lines

def rows (width height : Nat) : Lines := ⟨height, width, width, 1⟩

def columns (width height : Nat) : Lines := ⟨width, height, 1, width⟩

-- The pixel `i` of a line.
def place (l : Lines) (line i : Nat) : Nat :=
  line * l.startStep + i * l.step

end Lines

-- One channel of pixel `i` of a line, from its neighbours on the line.
def smoothed (taps : Array Nat) (l : Lines) (src : Array UInt8) (line i channel : Nat) : UInt8 :=
  quantize (weighted taps fun t =>
    src.getD (4 * l.place line (clampedAt i t (taps.size / 2) (l.length - 1)) + channel) 0)

-- Every pixel is smoothed along its line.
def alongLines (taps : Array Nat) (l : Lines) (src : Array UInt8) : Array UInt8 :=
  l.count.fold
    (fun line _ out =>
      l.length.fold
        (fun i _ out =>
          let channel := smoothed taps l src line i
          Frame.putColor out (l.place line i) ⟨channel 0, channel 1, channel 2, channel 3⟩)
        out)
    (Array.replicate src.size 0)

def convolve (taps : Array Nat) (width height : Nat) (src : Array UInt8) : Array UInt8 :=
  alongLines taps (.columns width height) (alongLines taps (.rows width height) src)

-- Every pixel smoothed along its row and then along its column, for whatever computes the exponential.
def bytes (exp : Float → Float) (src : Array UInt8) (width height radius : Nat) (sigma : Float32) :
    Except Fault (Array UInt8) :=
  match Frame.byteCount? width height with
  | none => .error .blurTooLarge
  | some expected =>
    if src.size ≠ expected then .error (.blurBytes src.size width height expected)
    else if maxRadius < radius then .error (.blurRadius radius maxRadius)
    else if radius = 0 ∨ expected = 0 then .ok src
    else do
      let taps ← Kernel.taps exp radius sigma
      return convolve taps width height src

-- A frame blurred with a kernel of the given size.
def frame (f : Frame) (size : Nat) : Except Fault Frame := do
  let data ← bytes exponential f.data f.width f.height (oddSize size / 2) (sigmaFor (oddSize size))
  return { f with data }

end ParticleFx.Blur
