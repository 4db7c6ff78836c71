import ParticleFx.Proofs.Color.Overlay
import ParticleFx.Proofs.Frame.Bytes
import ParticleFx.Proofs.Sink.Session

namespace ParticleFx

namespace Color

variable {pixel background : Color} {channel : Nat}

theorem scaled_full (x : Nat) : scaled x 255 = x := by
  rw [scaled]
  omega

theorem full_scaled (x : Nat) : scaled 255 x = x := by
  rw [scaled]
  omega

theorem scaled_zero (x : Nat) : scaled x 0 = 0 := by
  rw [scaled]
  omega

-- The two rounded products of a channel, before their sum is held to a byte.
def products (pixel background : Color) (channel : Nat) : Nat :=
  scaled (pixel.channel channel).toNat pixel.a.toNat +
    scaled (background.channel channel).toNat (255 - pixel.a.toNat)

-- Each rounding is off by less than half of a unit, so both together are off by less than a whole one, and
-- the exact mean is between the two colors.
theorem products_mem_uIcc (pixel background : Color) (channel : Nat) :
    products pixel background channel ∈
      Set.uIcc (pixel.channel channel).toNat (background.channel channel).toNat := by
  have halpha := toNat_le pixel.a
  obtain ⟨hlow, hhigh⟩ := weightedSum_bounds (pixel.channel channel).toNat pixel.a.toNat
    (background.channel channel).toNat (255 - pixel.a.toNat)
  rw [Nat.add_sub_cancel' halpha] at hlow hhigh
  unfold products scaled
  generalize (pixel.channel channel).toNat * pixel.a.toNat = front at hlow hhigh ⊢
  generalize (background.channel channel).toNat * (255 - pixel.a.toNat) = back at hlow hhigh ⊢
  rw [Set.uIcc, Set.mem_Icc]
  constructor
  · omega
  · omega

theorem products_le (pixel background : Color) (channel : Nat) : products pixel background channel ≤ 255 :=
  (products_mem_uIcc pixel background channel).2.trans (max_le (toNat_le _) (toNat_le _))

theorem channel_flattened (hchannel : channel < 3) :
    ((pixel.flattened background).channel channel).toNat = products pixel background channel := by
  rw [← toNat_clamped (products_le pixel background channel)]
  match channel, hchannel with
  | 0, _ | 1, _ | 2, _ => rfl

theorem channel_withAlpha (c : Color) (a : UInt8) (hchannel : channel < 3) :
    (c.withAlpha a).channel channel = c.channel channel := by
  match channel, hchannel with
  | 0, _ | 1, _ | 2, _ => rfl

-- A flattened pixel is the solid color that has its channels.
theorem flattened_eq {c : Color}
    (h : ∀ channel < 3, products pixel background channel = (c.channel channel).toNat) :
    pixel.flattened background = c.withAlpha 255 := by
  have hchannel (channel : Nat) (hchannel : channel < 3) :
      (pixel.flattened background).channel channel = c.channel channel := by
    rw [← UInt8.toNat_inj, channel_flattened hchannel, h channel hchannel]
  have hred : (pixel.flattened background).r = c.r := hchannel 0 (by decide)
  have hgreen : (pixel.flattened background).g = c.g := hchannel 1 (by decide)
  have hblue : (pixel.flattened background).b = c.b := hchannel 2 (by decide)
  rw [withAlpha, ← hred, ← hgreen, ← hblue]
  rfl

theorem products_of_clear (h : pixel.a = 0) (channel : Nat) :
    products pixel background channel = (background.channel channel).toNat := by
  rw [products, h, UInt8.toNat_zero, scaled_zero, Nat.zero_add, scaled_full]

theorem products_of_solid (h : pixel.a = 255) (channel : Nat) :
    products pixel background channel = (pixel.channel channel).toNat := by
  have halpha : pixel.a.toNat = 255 := by
    rw [h]
    rfl
  rw [products, halpha, Nat.sub_self, scaled_zero, Nat.add_zero, scaled_full]

-- Rounding the products on their own and rounding their sum make a difference of at most one.
theorem abs_products_sub_overlay_le (pixel background : Color) (hchannel : channel < 3) :
    |(products pixel background channel : Int) -
      (((background.withAlpha 255).overlay pixel).channel channel).toNat| ≤ 1 := by
  by_cases hclear : pixel.a = 0
  · rw [overlay_of_clear hclear, products_of_clear hclear, channel_withAlpha _ _ hchannel, sub_self, abs_zero]
    exact Int.one_nonneg
  by_cases hsolid : pixel.a = 255
  · rw [overlay_of_solid hsolid, products_of_solid hsolid, sub_self, abs_zero]
    exact Int.one_nonneg
  have halpha := toNat_le pixel.a
  have hshown : shownAlpha (background.withAlpha 255) pixel = 255 - pixel.a.toNat := full_scaled _
  rw [channel_overlay hclear hsolid hchannel, mean, channel_withAlpha _ _ hchannel, hshown, mixed_eq,
    Nat.add_sub_cancel' halpha, abs_le]
  unfold products scaled nearestQuotient
  omega

-- What a pixel on a solid background has to be. The last field compares it with the same pixel laid over
-- the background.
structure IsComposite (pixel background out : Color) : Prop where
  alpha : out.a = 255
  between {channel : Nat} : channel < 3 → (out.channel channel).toNat ∈
    Set.uIcc (pixel.channel channel).toNat (background.channel channel).toNat
  unclamped {channel : Nat} : channel < 3 →
    scaled (pixel.channel channel).toNat pixel.a.toNat +
      scaled (background.channel channel).toNat (255 - pixel.a.toNat) ≤ 255
  same : pixel.withAlpha 255 = background.withAlpha 255 → out = background.withAlpha 255
  clear : pixel.a = 0 → out = background.withAlpha 255
  solid : pixel.a = 255 → out = pixel
  near {channel : Nat} : channel < 3 → |((out.channel channel).toNat : Int) -
    (((background.withAlpha 255).overlay pixel).channel channel).toNat| ≤ 1

theorem isComposite_flattened (pixel background : Color) :
    IsComposite pixel background (pixel.flattened background) where
  alpha := rfl
  between hchannel := by
    rw [channel_flattened hchannel]
    exact products_mem_uIcc pixel background _
  unclamped _ := products_le pixel background _
  same h := by
    refine flattened_eq fun channel hchannel => ?_
    have hsame : pixel.channel channel = background.channel channel := by
      rw [← channel_withAlpha pixel 255 hchannel, h, channel_withAlpha background 255 hchannel]
    have hmem := products_mem_uIcc pixel background channel
    rwa [hsame, Set.uIcc_self, Set.mem_singleton_iff] at hmem
  clear h := flattened_eq fun channel _ => products_of_clear h channel
  solid h := by
    rw [flattened_eq fun channel _ => products_of_solid h channel, withAlpha, ← h]
  near hchannel := by
    rw [channel_flattened hchannel]
    exact abs_products_sub_overlay_le pixel background hchannel

end Color

namespace Encoder

open Color (IsComposite)

variable {data : Array UInt8} {n : Nat}

theorem colorAt_flatten (background : Color) {i : Nat} (hi : 4 * i + 3 < data.size) :
    Frame.colorAt (flatten background data) i = (Frame.colorAt data i).flattened background := by
  apply Frame.colorAt_eq_of_bytes
  intro channel hchannel
  rw [flatten, getD_ofFn _ _ (by omega)]
  dsimp only
  rw [show (4 * i + channel) / 4 = i by omega, show (4 * i + channel) % 4 = channel by omega]

-- Every pixel of a flattened buffer is a composite of what it was and the background.
theorem flatten_is_composite (background : Color) (hdata : data.size = 4 * n) :
    (flatten background data).size = 4 * n ∧
    ∀ i < n, IsComposite (Frame.colorAt data i) background (Frame.colorAt (flatten background data) i) := by
  refine ⟨(size_flatten background data).trans hdata, fun i hi => ?_⟩
  rw [colorAt_flatten background (by omega)]
  exact Color.isComposite_flattened _ background

-- Two pixels on gray. In the blue of the first one the two roundings come to one more than the common one.
theorem flatten_is_composite_halves :
    (#[255, 0, 3, 128, 10, 20, 30, 0] : Array UInt8).size = 4 * 2 ∧
    flatten ⟨128, 128, 128, 0⟩ #[255, 0, 3, 128, 10, 20, 30, 0] = #[192, 64, 66, 255, 128, 128, 128, 255] ∧
    Color.overlay ⟨128, 128, 128, 255⟩ ⟨255, 0, 3, 128⟩ = ⟨192, 64, 65, 255⟩ ∧
    Frame.colorAt (flatten ⟨128, 128, 128, 0⟩ #[255, 0, 3, 128, 10, 20, 30, 0]) 1 = ⟨128, 128, 128, 255⟩ := by
  have hdata : (#[255, 0, 3, 128, 10, 20, 30, 0] : Array UInt8).size = 4 * 2 := rfl
  obtain ⟨_, hpixels⟩ := flatten_is_composite ⟨128, 128, 128, 0⟩ hdata
  exact ⟨hdata, by decide, by decide, (hpixels 1 (by decide)).clear rfl⟩

end Encoder

end ParticleFx
