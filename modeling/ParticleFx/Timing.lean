import ParticleFx.Fault

namespace ParticleFx

-- Frames per second as a fraction.
structure Fps where
  num : Nat
  den : Nat
deriving DecidableEq

namespace Fps

def validate (fps : Fps) : Except Fault Unit :=
  if fps.den = 0 then .error .zeroRateDen
  else if fps.num = 0 then .error .zeroRateNum
  else .ok ()

def make (num den : Nat) : Except Fault Fps := do
  validate ⟨num, den⟩
  return ⟨num, den⟩

-- How long one frame lasts, in seconds.
def frameSeconds (fps : Fps) : Float :=
  Float.ofNat fps.den / Float.ofNat fps.num

end Fps

-- Frames from `start` on, before `stop`.
structure FrameRange where
  start : Nat
  stop : Nat
deriving DecidableEq

namespace FrameRange

def make (start stop : Nat) : Except Fault FrameRange :=
  if stop < start then .error .rangeReversed else .ok ⟨start, stop⟩

def length (range : FrameRange) : Nat :=
  range.stop - range.start

def contains (range : FrameRange) (frame : Nat) : Bool :=
  range.start ≤ frame && frame < range.stop

end FrameRange

end ParticleFx
