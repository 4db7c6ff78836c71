import ParticleFx.Frame
import ParticleFx.Number.Word

namespace ParticleFx.Frame

-- Lays a color over one pixel. Its place has to be a word, and its bytes have to be there.
def layAt (width : Nat) (c : Color) (x y : Nat) (data : Array UInt8) : Except Fault (Array UInt8) := do
  let above ← Word.unsigned (y * width)
  let place ← Word.unsigned (above + x)
  let first ← Word.unsigned (place * 4)
  let stop ← Word.unsigned (first + 4)
  if stop ≤ data.size then return putColor data place ((colorAt data place).overlay c)
  else .error .aborted

-- A pixel belongs to the circle when its whole offset from the center is at most the radius long.
def visit (width : Nat) (cx square : Int) (c : Color) (dy : Int) (x y : Nat) (data : Array UInt8) :
    Except Fault (Array UInt8) := do
  let dx ← Word.signed (x - cx)
  let across ← Word.signed (dx * dx)
  let down ← Word.signed (dy * dy)
  let distance ← Word.signed (across + down)
  if square < distance then return data else layAt width c x y data

-- One row of the circle's box, from column `x0` up to column `x1`.
def paintRow (width : Nat) (cx cy square : Int) (c : Color) (x0 x1 y : Nat) (data : Array UInt8) :
    Except Fault (Array UInt8) := do
  let dy ← Word.signed (y - cy)
  (List.range' x0 (x1 - x0)).foldlM (fun data x => visit width cx square c dy x y data) data

-- Lays a filled circle over the frame. Only the part of its box inside the frame is visited.
def fillCircle (f : Frame) (cx cy : Int) (radius : Nat) (c : Color) : Except Fault Frame := do
  if c.a = 0 ∨ f.width = 0 ∨ f.height = 0 then return f
  let square ← Word.signed (radius * radius)
  let top ← Word.signed (cy - radius)
  let bottom ← Word.signed (cy + radius)
  let left ← Word.signed (cx - radius)
  let right ← Word.signed (cx + radius)
  let x1 := (min (right + 1) f.width).toNat
  let y1 := (min (bottom + 1) f.height).toNat
  let data ← (List.range' top.toNat (y1 - top.toNat)).foldlM
    (fun data y => paintRow f.width cx cy square c left.toNat x1 y data) f.data
  return { f with data }

end ParticleFx.Frame
