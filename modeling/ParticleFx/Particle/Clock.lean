import ParticleFx.Number.Remainder

namespace ParticleFx

-- The arithmetic of times that emission needs. `slack` is the part of an interval by which an
-- emission may come early.
structure TimeArithmetic (τ : Type) where
  zero : τ
  add : τ → τ → τ
  sub : τ → τ → τ
  remainder : τ → τ → τ
  positive : τ → τ
  slack : τ → τ
  le : τ → τ → Bool

namespace TimeArithmetic

def float : TimeArithmetic Float where
  zero := 0
  add := (· + ·)
  sub := (· - ·)
  remainder := ParticleFx.remainder
  positive x := if x > 0 then x else 0
  slack interval := interval * 1e-9
  le x y := decide (x ≤ y)

variable {τ : Type} (t : TimeArithmetic τ)

-- Whether enough time has passed since the last emission.
def due (interval elapsed : τ) : Bool :=
  t.le interval (t.add elapsed (t.slack interval))

-- What is kept of the time after an emission. Whole intervals are dropped, and what is within
-- the slack of another one is dropped too.
def carry (interval elapsed : τ) : τ :=
  let left := t.remainder (t.positive (t.sub elapsed interval)) interval
  if t.le (t.sub interval left) (t.slack interval) then t.zero else left

end TimeArithmetic

end ParticleFx
