import Mathlib.Algebra.Order.Round
import Mathlib.Data.Rat.Floor
import Mathlib.Order.Interval.Set.UnorderedInterval
import Mathlib.Order.Lattice.Nat
import Mathlib.Tactic.FieldSimp
import ParticleFx.Color

namespace ParticleFx.Color

section

variable {n m d source sourceAlpha dest destAlpha : Nat}

-- A quotient rounded to the nearest whole number, halves upward.
def nearestQuotient (n d : Nat) : Nat :=
  (n + d / 2) / d

theorem scaled_eq (x y : Nat) : scaled x y = nearestQuotient (x * y) 255 := rfl

theorem mixed_eq (source sourceAlpha dest destAlpha : Nat) :
    mixed source sourceAlpha dest destAlpha =
      nearestQuotient (source * sourceAlpha + dest * destAlpha) (sourceAlpha + destAlpha) := rfl

theorem nearestQuotient_eq_round (n : Nat) (hd : 0 < d) :
    (nearestQuotient n d : Int) = round ((n : ℚ) / d) := by
  have hlow : d * nearestQuotient n d ≤ n + d / 2 := Nat.mul_div_le _ _
  have hhigh : n + d / 2 < d * (nearestQuotient n d + 1) := Nat.lt_mul_div_succ _ hd
  rw [Nat.mul_succ] at hhigh
  have hpos : (0 : ℚ) < 2 * d := by positivity
  have hhalf : (n : ℚ) / d + 1 / 2 = (2 * n + d) / (2 * d) := by field_simp
  rw [round_eq, hhalf, eq_comm, Int.floor_eq_iff, le_div_iff₀ hpos, div_lt_iff₀ hpos]
  constructor
  · have hle : nearestQuotient n d * (2 * d) ≤ 2 * n + d := by
      rw [Nat.mul_left_comm, Nat.mul_comm _ d]
      omega
    exact_mod_cast hle
  · have hlt : 2 * n + d < (nearestQuotient n d + 1) * (2 * d) := by
      rw [Nat.mul_left_comm, Nat.mul_comm _ d, Nat.mul_succ]
      omega
    exact_mod_cast hlt

theorem nearestQuotient_mono (d : Nat) (h : n ≤ m) : nearestQuotient n d ≤ nearestQuotient m d :=
  Nat.div_le_div_right (Nat.add_le_add_right h _)

theorem nearestQuotient_mul (k : Nat) (hd : 0 < d) : nearestQuotient (k * d) d = k := by
  rw [nearestQuotient, Nat.mul_comm, Nat.mul_add_div hd, Nat.div_eq_of_lt (by omega), Nat.add_zero]

-- A mean of two numbers, whatever their weights, is between them, ...
theorem weightedSum_bounds (source sourceAlpha dest destAlpha : Nat) :
    min source dest * (sourceAlpha + destAlpha) ≤ source * sourceAlpha + dest * destAlpha ∧
      source * sourceAlpha + dest * destAlpha ≤ max source dest * (sourceAlpha + destAlpha) := by
  rw [Nat.mul_add, Nat.mul_add]
  constructor
  · exact Nat.add_le_add (Nat.mul_le_mul_right _ (Nat.min_le_left _ _))
      (Nat.mul_le_mul_right _ (Nat.min_le_right _ _))
  · exact Nat.add_le_add (Nat.mul_le_mul_right _ (Nat.le_max_left _ _))
      (Nat.mul_le_mul_right _ (Nat.le_max_right _ _))

-- ... and rounding does not take it out again.
theorem mixed_mem_uIcc (htotal : 0 < sourceAlpha + destAlpha) :
    mixed source sourceAlpha dest destAlpha ∈ Set.uIcc source dest := by
  obtain ⟨hlow, hhigh⟩ := weightedSum_bounds source sourceAlpha dest destAlpha
  rw [mixed_eq]
  constructor
  · calc min source dest
        = nearestQuotient (min source dest * (sourceAlpha + destAlpha)) (sourceAlpha + destAlpha) :=
          (nearestQuotient_mul _ htotal).symm
      _ ≤ _ := nearestQuotient_mono _ hlow
  · calc _ ≤ nearestQuotient (max source dest * (sourceAlpha + destAlpha)) (sourceAlpha + destAlpha) :=
          nearestQuotient_mono _ hhigh
      _ = max source dest := nearestQuotient_mul _ htotal

theorem scaled_le {x y : Nat} (hx : x ≤ 255) : scaled x y ≤ y := by
  rw [scaled, ← Nat.lt_succ_iff, Nat.div_lt_iff_lt_mul (by decide)]
  have hproduct := Nat.mul_le_mul_right y hx
  omega

theorem sub_le_scaled {d s : Nat} (hd : d ≤ 255) (hs : s ≤ 255) : d - s ≤ scaled d (255 - s) := by
  rw [scaled, Nat.le_div_iff_mul_le (by norm_num)]
  by_cases hle : d ≤ s
  · rw [Nat.sub_eq_zero_of_le hle, Nat.zero_mul]
    exact Nat.zero_le _
  · obtain ⟨k, rfl⟩ := Nat.exists_eq_add_of_le (Nat.le_of_not_le hle)
    have hk : k * s ≤ (255 - s) * s := Nat.mul_le_mul_right s (by omega)
    calc (s + k - s) * 255
        = k * s + k * (255 - s) := by rw [Nat.add_sub_cancel_left, ← Nat.mul_add, Nat.add_sub_cancel' hs]
      _ ≤ (255 - s) * s + k * (255 - s) := Nat.add_le_add_right hk _
      _ = (s + k) * (255 - s) := by rw [Nat.add_mul, Nat.mul_comm s]
      _ ≤ (s + k) * (255 - s) + 127 := Nat.le_add_right _ _

end

theorem toNat_le (b : UInt8) : b.toNat ≤ 255 := Nat.le_of_lt_succ b.toNat_lt

theorem toNat_clamped {n : Nat} (h : n ≤ 255) : (min n 255).toUInt8.toNat = n := by
  rw [Nat.min_eq_left h, Nat.toUInt8, UInt8.toNat_ofNat_of_lt' (by change _ < 256; omega)]

variable {dest source : Color} {channel : Nat}

-- What the source lets through of the destination's alpha.
def shownAlpha (dest source : Color) : Nat :=
  scaled dest.a.toNat (255 - source.a.toNat)

theorem shownAlpha_eq_round (dest source : Color) :
    (dest.shownAlpha source : Int) = round ((dest.a.toNat * (255 - source.a.toNat) : ℚ) / 255) := by
  rw [shownAlpha, scaled_eq, nearestQuotient_eq_round _ (by decide)]
  push_cast [Nat.cast_sub (toNat_le source.a)]
  rfl

theorem alphas_le (dest source : Color) : source.a.toNat + dest.shownAlpha source ≤ 255 := by
  have hsource := toNat_le source.a
  have hshown : dest.shownAlpha source ≤ 255 - source.a.toNat := scaled_le (toNat_le dest.a)
  omega

theorem alphas_pos (dest : Color) (hsource : source.a ≠ 0) : 0 < source.a.toNat + dest.shownAlpha source := by
  have hpos : source.a.toNat ≠ 0 := fun h => hsource (UInt8.toNat_inj.mp h)
  omega

-- The mean of one channel under a source that shows.
def mean (dest source : Color) (channel : Nat) : Nat :=
  mixed (source.channel channel).toNat source.a.toNat (dest.channel channel).toNat (dest.shownAlpha source)

theorem mean_mem_uIcc (hsource : source.a ≠ 0) (channel : Nat) :
    dest.mean source channel ∈ Set.uIcc (source.channel channel).toNat (dest.channel channel).toNat :=
  mixed_mem_uIcc (alphas_pos dest hsource)

theorem mean_le (hsource : source.a ≠ 0) (channel : Nat) : dest.mean source channel ≤ 255 :=
  (mean_mem_uIcc hsource channel).2.trans (max_le (toNat_le _) (toNat_le _))

theorem abs_mean_sub_le (hsource : source.a ≠ 0) (channel : Nat) :
    |(dest.mean source channel : ℚ) -
      ((source.channel channel).toNat * source.a.toNat + (dest.channel channel).toNat * dest.shownAlpha source) /
        (source.a.toNat + dest.shownAlpha source)| ≤ 1 / 2 := by
  have hround := nearestQuotient_eq_round ((source.channel channel).toNat * source.a.toNat +
    (dest.channel channel).toNat * dest.shownAlpha source) (alphas_pos dest hsource)
  rw [← mixed_eq] at hround
  rw [mean, ← Int.cast_natCast, hround, abs_sub_comm]
  push_cast
  exact abs_sub_round _

-- Only a source between clear and opaque is mixed, and then no clamp acts.
theorem channel_overlay (hclear : source.a ≠ 0) (hsolid : source.a ≠ 255) (hchannel : channel < 3) :
    ((dest.overlay source).channel channel).toNat = dest.mean source channel := by
  rw [overlay, if_neg hclear, if_neg hsolid, ← toNat_clamped (mean_le hclear channel)]
  match channel, hchannel with
  | 0, _ | 1, _ | 2, _ => rfl

theorem alpha_overlay (hclear : source.a ≠ 0) (hsolid : source.a ≠ 255) :
    (dest.overlay source).a.toNat = source.a.toNat + dest.shownAlpha source := by
  rw [overlay, if_neg hclear, if_neg hsolid, ← toNat_clamped (alphas_le dest source)]
  rfl

theorem overlay_of_clear (h : source.a = 0) : dest.overlay source = dest := if_pos h

theorem overlay_of_solid (h : source.a = 255) : dest.overlay source = source := by
  rw [overlay, if_neg (by rw [h]; decide), if_pos h]

theorem channel_overlay_mem_uIcc (dest source : Color) (hchannel : channel < 3) :
    ((dest.overlay source).channel channel).toNat ∈
      Set.uIcc (source.channel channel).toNat (dest.channel channel).toNat := by
  by_cases hclear : source.a = 0
  · rw [overlay_of_clear hclear]
    exact Set.right_mem_uIcc
  by_cases hsolid : source.a = 255
  · rw [overlay_of_solid hsolid]
    exact Set.left_mem_uIcc
  rw [channel_overlay hclear hsolid hchannel]
  exact mean_mem_uIcc hclear channel

-- Whatever is laid over a pixel, it does not become more transparent, ...
theorem alpha_le_overlay (dest source : Color) : dest.a ≤ (dest.overlay source).a := by
  by_cases hclear : source.a = 0
  · rw [overlay_of_clear hclear]
    exact UInt8.le_refl _
  by_cases hsolid : source.a = 255
  · rw [overlay_of_solid hsolid, hsolid]
    exact toNat_le dest.a
  have hshown : dest.a.toNat - source.a.toNat ≤ dest.shownAlpha source :=
    sub_le_scaled (toNat_le dest.a) (toNat_le source.a)
  rw [UInt8.le_iff_toNat_le, alpha_overlay hclear hsolid]
  omega

-- ... nor than what is laid over it.
theorem sourceAlpha_le_overlay (dest source : Color) : source.a ≤ (dest.overlay source).a := by
  by_cases hclear : source.a = 0
  · rw [hclear]
    exact UInt8.zero_le
  by_cases hsolid : source.a = 255
  · rw [overlay_of_solid hsolid]
    exact UInt8.le_refl _
  rw [UInt8.le_iff_toNat_le, alpha_overlay hclear hsolid]
  exact Nat.le_add_right _ _

theorem alpha_overlay_of_solid (h : source.a = 255 ∨ dest.a = 255) : (dest.overlay source).a = 255 := by
  apply UInt8.le_antisymm (toNat_le _)
  rcases h with h | h
  · exact h ▸ sourceAlpha_le_overlay dest source
  · exact h ▸ alpha_le_overlay dest source

-- Every whole number on the way to a mixed pixel fits: alphas in 16 bits, products and their sums in 32,
-- and the result in a byte before it is clamped. The divisor is not zero.
structure OverlayFits (dest source : Color) : Prop where
  rest : source.a.toNat ≤ 255
  product : dest.a.toNat * (255 - source.a.toNat) + 127 < 2 ^ 32
  shown : dest.shownAlpha source < 2 ^ 16
  divisor : 0 < source.a.toNat + dest.shownAlpha source
  alpha : source.a.toNat + dest.shownAlpha source ≤ 255
  sum (channel : Nat) : (source.channel channel).toNat * source.a.toNat +
    (dest.channel channel).toNat * dest.shownAlpha source +
      (source.a.toNat + dest.shownAlpha source) / 2 < 2 ^ 32
  mean_le (channel : Nat) : dest.mean source channel ≤ 255

theorem overlayFits (dest : Color) (hsource : source.a ≠ 0) : OverlayFits dest source := by
  have halphas := alphas_le dest source
  have hproduct : dest.a.toNat * (255 - source.a.toNat) ≤ 255 * 255 :=
    Nat.mul_le_mul (toNat_le dest.a) (Nat.sub_le _ _)
  refine ⟨toNat_le source.a, by omega, by omega, alphas_pos dest hsource, halphas, fun channel => ?_,
    mean_le hsource⟩
  have hfront : (source.channel channel).toNat * source.a.toNat ≤ 255 * 255 :=
    Nat.mul_le_mul (toNat_le _) (toNat_le _)
  have hback : (dest.channel channel).toNat * dest.shownAlpha source ≤ 255 * 255 :=
    Nat.mul_le_mul (toNat_le _) (by omega)
  omega

-- Laying a color over a pixel gives their mean, weighted by what shows of each, and never less alpha than
-- either has.
theorem overlay_is_weighted_mean (dest source : Color) :
    source.a ≤ (dest.overlay source).a ∧ dest.a ≤ (dest.overlay source).a ∧
    (source.a = 255 ∨ dest.a = 255 → (dest.overlay source).a = 255) ∧
    (∀ channel < 3, ((dest.overlay source).channel channel).toNat ∈
      Set.uIcc (source.channel channel).toNat (dest.channel channel).toNat) ∧
    (dest.shownAlpha source : Int) = round ((dest.a.toNat * (255 - source.a.toNat) : ℚ) / 255) ∧
    (0 < source.a → source.a < 255 → OverlayFits dest source ∧
      (dest.overlay source).a.toNat = source.a.toNat + dest.shownAlpha source ∧
      ∀ channel < 3, |(((dest.overlay source).channel channel).toNat : ℚ) -
        ((source.channel channel).toNat * source.a.toNat + (dest.channel channel).toNat * dest.shownAlpha source) /
          (source.a.toNat + dest.shownAlpha source)| ≤ 1 / 2) := by
  refine ⟨sourceAlpha_le_overlay dest source, alpha_le_overlay dest source, alpha_overlay_of_solid,
    fun channel hchannel => channel_overlay_mem_uIcc dest source hchannel, shownAlpha_eq_round dest source, ?_⟩
  intro hpos hlt
  have hclear : source.a ≠ 0 := (UInt8.ne_of_lt hpos).symm
  have hsolid : source.a ≠ 255 := UInt8.ne_of_lt hlt
  refine ⟨overlayFits dest hclear, alpha_overlay hclear hsolid, fun channel hchannel => ?_⟩
  rw [channel_overlay hclear hsolid hchannel]
  exact abs_mean_sub_le hclear channel

-- Half of the source shows, and a quarter of what is under it.
theorem overlay_is_weighted_mean_half :
    0 < (⟨255, 0, 31, 128⟩ : Color).a ∧ (⟨255, 0, 31, 128⟩ : Color).a < 255 ∧
    shownAlpha ⟨10, 20, 30, 128⟩ ⟨255, 0, 31, 128⟩ = 64 ∧
    overlay ⟨10, 20, 30, 128⟩ ⟨255, 0, 31, 128⟩ = ⟨173, 7, 31, 192⟩ ∧
    |(173 : ℚ) - (255 * 128 + 10 * 64) / (128 + 64)| ≤ 1 / 2 := by
  have hshown : shownAlpha ⟨10, 20, 30, 128⟩ ⟨255, 0, 31, 128⟩ = 64 := by decide
  have hoverlay : overlay ⟨10, 20, 30, 128⟩ ⟨255, 0, 31, 128⟩ = ⟨173, 7, 31, 192⟩ := by decide
  obtain ⟨_, _, _, _, _, hmixed⟩ := overlay_is_weighted_mean ⟨10, 20, 30, 128⟩ ⟨255, 0, 31, 128⟩
  have hred := (hmixed (by decide) (by decide)).2.2 0 (by decide)
  rw [hoverlay, hshown] at hred
  exact ⟨by decide, by decide, hshown, hoverlay, hred⟩

end ParticleFx.Color
