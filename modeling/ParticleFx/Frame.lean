import ParticleFx.Color
import ParticleFx.Fault

namespace ParticleFx

-- An image: four bytes for each pixel, row after row. The bytes need not fit the dimensions until
-- the frame has been validated.
structure Frame where
  width : Nat
  height : Nat
  data : Array UInt8
deriving DecidableEq

namespace Frame

-- How many bytes the dimensions ask for, if a machine word can count them.
def byteCount? (width height : Nat) : Option Nat :=
  let n := width * height * 4
  if n < UInt64.size then some n else none

def byteCount (width height : Nat) : Except Fault Nat :=
  match byteCount? width height with
  | some n => .ok n
  | none => .error .frameTooLarge

def filled (width height : Nat) (c : Color) : Frame :=
  ⟨width, height, Array.ofFn fun k : Fin (width * height * 4) => c.channel (k % 4)⟩

def blank (width height : Nat) : Frame :=
  filled width height .transparent

def ofBytes (width height : Nat) (data : Array UInt8) : Except Fault Frame := do
  let expected ← byteCount width height
  if data.size = expected then .ok ⟨width, height, data⟩
  else .error (.frameBytes data.size expected width height)

def validate (f : Frame) : Except Fault Unit := do
  let expected ← byteCount f.width f.height
  if f.data.size = expected then .ok () else .error .frameMismatch

def sameSize (f g : Frame) : Bool :=
  f.width == g.width && f.height == g.height

-- Signed coordinates inside the frame.
def contains (f : Frame) (x y : Int) : Bool :=
  decide (0 ≤ x ∧ 0 ≤ y ∧ x < f.width ∧ y < f.height)

-- The `i`-th pixel of packed bytes.
def colorAt (data : Array UInt8) (i : Nat) : Color :=
  ⟨data.getD (4 * i) 0, data.getD (4 * i + 1) 0, data.getD (4 * i + 2) 0, data.getD (4 * i + 3) 0⟩

def putColor (data : Array UInt8) (i : Nat) (c : Color) : Array UInt8 :=
  (((data.setIfInBounds (4 * i) c.r).setIfInBounds (4 * i + 1) c.g).setIfInBounds (4 * i + 2)
    c.b).setIfInBounds (4 * i + 3) c.a

def pixel? (f : Frame) (x y : Nat) : Option Color :=
  if x < f.width ∧ y < f.height then some (colorAt f.data (y * f.width + x)) else none

-- Pixels outside the frame are left alone.
def setPixel (f : Frame) (x y : Nat) (c : Color) : Frame :=
  if x < f.width ∧ y < f.height then { f with data := putColor f.data (y * f.width + x) c } else f

@[simp] theorem size_putColor (data : Array UInt8) (i : Nat) (c : Color) :
    (putColor data i c).size = data.size := by
  simp [putColor]

-- Writing a pixel changes that pixel and no other.
theorem colorAt_putColor (data : Array UInt8) (i j : Nat) (c : Color) (h : 4 * i + 3 < data.size) :
    colorAt (putColor data i c) j = if i = j then c else colorAt data j := by
  by_cases hij : i = j
  · subst hij
    simp only [colorAt, putColor, Array.getD_eq_getD_getElem?, Array.getElem?_setIfInBounds]
    simp (disch := omega) only [if_pos, if_neg, Array.size_setIfInBounds]
    simp
  · simp only [colorAt, putColor, Array.getD_eq_getD_getElem?, Array.getElem?_setIfInBounds]
    simp (disch := omega) only [if_neg]

@[simp] theorem size_filled (width height : Nat) (c : Color) :
    (filled width height c).data.size = width * height * 4 := by
  simp [filled]

-- A frame is valid when its bytes fit its dimensions and a machine word can count them.
theorem validate_eq_ok_iff (f : Frame) :
    f.validate = .ok () ↔
      f.data.size = f.width * f.height * 4 ∧ f.width * f.height * 4 < UInt64.size := by
  by_cases hn : f.width * f.height * 4 < UInt64.size
  · by_cases hs : f.data.size = f.width * f.height * 4 <;>
      simp [validate, byteCount, byteCount?, hn, hs, bind, Except.bind]
  · simp [validate, byteCount, byteCount?, hn, bind, Except.bind]

end Frame

end ParticleFx
