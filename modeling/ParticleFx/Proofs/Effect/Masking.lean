import ParticleFx.Proofs.Effect.Acceptance
import ParticleFx.Proofs.Frame.Bytes
import ParticleFx.Proofs.Number.Order

namespace ParticleFx.Effect

open Number (larger Largest)

variable {f g : Frame} {center : Option Vec2} {strength : Float32} {x y : Nat}

-- How far the corners are from the center.
def cornerDistances (f : Frame) (center : Vec2) : List Float :=
  (corners f.width f.height).map fun (x, y) => pixelDistance center x y

theorem farthestCorner_eq (f : Frame) (center : Vec2) :
    farthestCorner f.width f.height center = (cornerDistances f center).foldl larger 0 := by
  rw [cornerDistances, List.foldl_map]
  rfl

theorem largest_farthestCorner (f : Frame) (center : Vec2) :
    Largest 0 (cornerDistances f center) (farthestCorner f.width f.height center) := by
  rw [farthestCorner_eq]
  exact Number.largest_foldl _ rfl

-- The distance of a pixel as a share of the farthest corner's. There is none if all corners are at the
-- center, or if the center is nowhere.
def shareOf (f : Frame) (center : Vec2) (x y : Nat) : Float :=
  let far := farthestCorner f.width f.height center
  if far > 0 then pixelDistance center x y / far else 0

theorem keptSharp_eq (f : Frame) (center : Vec2) (x y : Nat) :
    keptSharp (farthestCorner f.width f.height center) center x y =
      !decide (shareOf f center x y > maskThreshold) := rfl

theorem getD_masked {data : Array UInt8} (hdata : data.size = f.width * f.height * 4) (center : Vec2)
    (hx : x < f.width) (hy : y < f.height) {channel : Nat} (hchannel : channel < 4) :
    (masked f center data).getD (4 * (y * f.width + x) + channel) 0 =
      if shareOf f center x y > maskThreshold then data.getD (4 * (y * f.width + x) + channel) 0
      else f.data.getD (4 * (y * f.width + x) + channel) 0 := by
  have hbyte : 4 * (y * f.width + x) + channel < data.size := hdata ▸ Frame.byte_lt hx hy hchannel
  have hpixel : (4 * (y * f.width + x) + channel) / 4 < f.width * f.height := by omega
  obtain ⟨-, hcolumn, hrow⟩ := Frame.coordinates_of_byte (y := y) hx hchannel
  rw [masked, getD_ofFn _ _ hbyte]
  dsimp only
  rw [getD_ofFn _ _ hpixel]
  dsimp only
  rw [hcolumn, hrow, keptSharp_eq]
  by_cases hfar : shareOf f center x y > maskThreshold
  · rw [if_pos hfar, if_neg (by simpa using hfar)]
  · rw [if_neg hfar, if_pos (by simpa using hfar)]

-- All four bytes of a pixel are chosen together.
theorem colorAt_masked {data : Array UInt8} (hdata : data.size = f.width * f.height * 4) (center : Vec2)
    (hx : x < f.width) (hy : y < f.height) :
    Frame.colorAt (masked f center data) (y * f.width + x) =
      if shareOf f center x y > maskThreshold then Frame.colorAt data (y * f.width + x)
      else Frame.colorAt f.data (y * f.width + x) := by
  apply Frame.colorAt_eq_of_bytes
  intro channel hchannel
  rw [getD_masked hdata center hx hy hchannel, ← Frame.channel_colorAt _ _ hchannel,
    ← Frame.channel_colorAt _ _ hchannel]
  split <;> rfl

-- The center has a part in the mask alone.
theorem radialBlur_unmasked (f : Frame) (center other : Option Vec2) (strength : Float32) :
    radialBlur f other strength false = radialBlur f center strength false := by
  simp only [radialBlur, Bool.false_eq_true, if_false]

-- Once it comes to blends, one blurred copy serves them all, with the mask and without it.
theorem exists_radialMix {mask : Bool} (hf : f.validate = .ok ()) (hfinite : (strength * 10).isFinite = true)
    (hone : 1 ≤ strength * 10) (h : radialBlur f center strength mask = .ok g) :
    ∃ blurred : Frame, blurred.SameShape f ∧
      ∀ mask, radialBlur f center strength mask = .ok (radialMix f center strength mask blurred) := by
  have hblends : ¬(!(strength * 10).isFinite || strength * 10 < 1) = true := by
    have hless : ¬strength * 10 < 1 := Number.not_lt_of_le hone
    simp [hfinite, hless]
  have hlimit : ¬strength > Float32.ofNat EffectRequest.maxRadialStrength := by
    intro hlarge
    rw [radialBlur_eq hf, if_pos hlarge] at h
    cases h
  have hkernel : radialKernel / 2 ≤ EffectRequest.maxGlowRadius / 2 := by decide
  obtain ⟨blurred, hblurred⟩ := Blur.exists_frame hf hkernel
  refine ⟨blurred, Blur.frame_sameShape hblurred, fun mask => ?_⟩
  rw [radialBlur_eq hf, if_neg hlimit, if_neg hblends, hblurred]
  rfl

-- The mask chooses between the input and the blurred picture, pixel by pixel.
theorem mask_selects_pixels (f : Frame) (center : Option Vec2) (strength : Float32) :
    (∀ other, radialBlur f other strength false = radialBlur f center strength false) ∧
    (f.validate = .ok () → (strength * 10).isFinite = true → 1 ≤ strength * 10 →
      ∀ mask g, radialBlur f center strength mask = .ok g →
      ∃ sharp soft, radialBlur f center strength true = .ok sharp ∧
        radialBlur f center strength false = .ok soft ∧ sharp.SameShape f ∧ soft.SameShape f ∧
        (∀ x < f.width, ∀ y < f.height, sharp.pixel? x y =
          if shareOf f (center.getD (middle f)) x y > maskThreshold then soft.pixel? x y else f.pixel? x y) ∧
        Largest 0 (cornerDistances f (center.getD (middle f)))
          (farthestCorner f.width f.height (center.getD (middle f)))) := by
  refine ⟨fun other => radialBlur_unmasked f center other strength, ?_⟩
  intro hf hfinite hone mask g hg
  obtain ⟨blurred, hshape, hmix⟩ := exists_radialMix hf hfinite hone hg
  have hsharp := radialMix_sameShape hshape center strength true
  have hsoft := radialMix_sameShape hshape center strength false
  refine ⟨_, _, hmix true, hmix false, hsharp, hsoft, fun x hx y hy => ?_, largest_farthestCorner f _⟩
  have hsize := hsoft.bytes.trans (f.validate_eq_ok_iff.mp hf).1
  have hcolor := colorAt_masked hsize (center.getD (middle f)) hx hy
  simp only [Frame.pixel?, hsharp.width, hsharp.height, hsoft.width, hsoft.height, if_pos (And.intro hx hy)]
  rw [← apply_ite some]
  exact congrArg some hcolor

-- Three pixels in a row, black, gray and white.
def bar : Frame := ⟨3, 1, #[0, 0, 0, 255, 128, 128, 128, 255, 255, 255, 255, 255]⟩

-- The first pixel stays black, which a single blend would have made brighter; the last one is as blended.
theorem mask_selects_pixels_bar :
    bar.validate = .ok () ∧ ((0.1 : Float32) * 10).isFinite = true ∧ (1 : Float32) ≤ 0.1 * 10 ∧
    radialBlur bar (some ⟨0, 0⟩) 0.1 false =
      .ok { bar with data := #[9, 9, 9, 255, 128, 128, 128, 255, 246, 246, 246, 255] } ∧
    ∃ sharp, radialBlur bar (some ⟨0, 0⟩) 0.1 true = .ok sharp ∧
      sharp.pixel? 0 0 = some .black ∧ sharp.pixel? 2 0 = some ⟨246, 246, 246, 255⟩ := by
  have hvalid : bar.validate = .ok () := by decide +kernel
  have hfinite : ((0.1 : Float32) * 10).isFinite = true := by decide +kernel
  have hone : (1 : Float32) ≤ 0.1 * 10 := by decide +kernel
  have hblends : radialBlur bar (some ⟨0, 0⟩) 0.1 false =
      .ok { bar with data := #[9, 9, 9, 255, 128, 128, 128, 255, 246, 246, 246, 255] } := by
    decide +kernel
  obtain ⟨sharp, soft, hsharp, hsoft, _, _, hpixel, _⟩ :=
    (mask_selects_pixels bar (some ⟨0, 0⟩) 0.1).2 hvalid hfinite hone false _ hblends
  obtain rfl := Except.ok.inj (hblends.symm.trans hsoft)
  refine ⟨hvalid, hfinite, hone, hblends, sharp, hsharp, ?_, ?_⟩
  · rw [hpixel 0 (by decide) 0 (by decide), if_neg (by decide +kernel)]
    decide +kernel
  · rw [hpixel 2 (by decide) 0 (by decide), if_pos (by decide +kernel)]
    decide +kernel

end ParticleFx.Effect
