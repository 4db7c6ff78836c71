import ParticleFx.Action
import ParticleFx.Random.Keystream

namespace ParticleFx

-- A place in a keystream. Two sources at the same place of the same stream are the same.
structure Source where
  key : Random.Key
  position : Nat
deriving DecidableEq

namespace Source

def ofSeed (seed : UInt64) : Source := ⟨.ofSeed seed, 0⟩

def word : Act Source UInt32 := fun s =>
  (.ok (s.key.word s.position), { s with position := s.position + 1 })

-- Two words, the low half first.
def doubleWord : Act Source UInt64 := do
  let low ← word
  let high ← word
  return low.toUInt64 ||| (high.toUInt64 <<< 32)

-- A new source whose seed is drawn from this one.
def fork : Act Source Source := do
  return ofSeed (← doubleWord)

-- An even draw between two numbers. Nothing is drawn when their difference is not a number.
def between (lo hi : Float) : Act Source Float :=
  if (hi - lo).isFinite then do
    let n ← doubleWord
    return ((n >>> 12).toFloat / 4503599627370496) * (hi - lo) + lo
  else Act.fail .aborted

-- An even draw around zero. A width that is not positive draws nothing.
def jitter (half : Float) : Act Source Float :=
  if half.isNaN || half ≤ 0 then pure 0 else between (-half) half

def float (lo hi : Float) : Act Source Float :=
  if hi.isNaN || lo.isNaN || hi ≤ lo then pure lo else between lo hi

-- A signed 32-bit reading of a word.
def signed (w : UInt32) : Int :=
  if w.toNat < 0x80000000 then w.toNat else w.toNat - UInt32.size

-- An even draw of a whole number: the high half of a product. A second word settles whether
-- the low half would have carried.
def integer (lo hi : Int) : Act Source Int :=
  if hi ≤ lo then pure lo
  else
    let span := ((hi - lo + 1) % UInt32.size).toNat
    if span = 0 then do return signed (← word)
    else do
      let product := (← word).toNat * span
      let high := product / UInt32.size
      let low := product % UInt32.size
      if UInt32.size - span < low then
        let carry := (← word).toNat * span / UInt32.size
        return lo + (if UInt32.size ≤ low + carry then high + 1 else high : Nat)
      else return lo + (high : Int)

-- Certainty draws nothing; impossibility does.
def chance (p : Float) : Act Source Bool :=
  if p.isNaN then pure false
  else if p ≥ 1 then pure true
  else do
    let bound := if p ≤ 0 then 0 else (p * 18446744073709551616).toUInt64
    return decide ((← doubleWord) < bound)

end Source

end ParticleFx
