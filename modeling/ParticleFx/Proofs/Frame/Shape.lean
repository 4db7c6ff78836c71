import ParticleFx.Engine

namespace ParticleFx

-- A counted loop keeps the number of bytes that each of its steps keeps.
theorem size_fold {count n : Nat} {step : (i : Nat) → i < count → Array UInt8 → Array UInt8}
    {data : Array UInt8} (hstep : ∀ i hi data, data.size = n → (step i hi data).size = n)
    (hdata : data.size = n) : (count.fold step data).size = n := by
  induction count with
  | zero => exact hdata
  | succ count ih =>
      rw [Nat.fold_succ]
      exact hstep count _ _ (ih fun i _ => hstep i _)

namespace Frame

variable {f g h : Frame}

-- The same dimensions and as many bytes, whatever these are.
structure SameShape (f g : Frame) : Prop where
  width : f.width = g.width
  height : f.height = g.height
  bytes : f.data.size = g.data.size

namespace SameShape

theorem refl (f : Frame) : SameShape f f := ⟨rfl, rfl, rfl⟩

theorem trans (hfg : SameShape f g) (hgh : SameShape g h) : SameShape f h :=
  ⟨hfg.width.trans hgh.width, hfg.height.trans hgh.height, hfg.bytes.trans hgh.bytes⟩

theorem withData {data : Array UInt8} (hdata : data.size = f.data.size) :
    SameShape { f with data } f := ⟨rfl, rfl, hdata⟩

-- Only the shape of a frame is checked.
theorem validate_eq (hfg : SameShape f g) : f.validate = g.validate := by
  simp only [validate, hfg.width, hfg.height, hfg.bytes]

end SameShape

end Frame

end ParticleFx
