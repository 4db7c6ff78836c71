import Mathlib.Algebra.Order.Field.Power
import Mathlib.Data.Rat.Cast.Order
import Mathlib.Tactic.FieldSimp
import Mathlib.Tactic.GCongr
import Mathlib.Tactic.Linarith
import Mathlib.Tactic.NormNum
import Mathlib.Tactic.Positivity
import Mathlib.Tactic.Ring
import Mathlib.Tactic.Zify
import ParticleFx.Number.Binary

namespace ParticleFx.Binary

open Float.Model (Format UnpackedFloat totalExponent)
open Float.Model.UnpackedFloat

variable {spec : Format} {m M : Nat} {e E : Int}

-- What a mantissa and an exponent stand for.
def value (m : Nat) (e : Int) : ℚ := m * 2 ^ e

theorem eq_of_value_eq (e : Int) (h : value M e = value m e) : M = m := by
  exact_mod_cast mul_right_cancel₀ (zpow_ne_zero e two_ne_zero) h

theorem value_pos (hm : 0 < m) (e : Int) : 0 < value m e := by
  unfold value
  positivity

theorem pos_of_value_eq (hm : 0 < m) (h : value M E = value m e) : 0 < M := by
  have hpos := h ▸ value_pos hm e
  rcases Nat.eq_zero_or_pos M with rfl | hM
  · simp [value] at hpos
  · exact hM

theorem value_shift (m k : Nat) (e : Int) : value (m * 2 ^ k) e = value m (e + k) := by
  rw [value, value, zpow_add₀ two_ne_zero, zpow_natCast]
  push_cast
  ring

-- The same value with another exponent has the mantissa shifted.
theorem eq_shift_of_value_eq (h : value M E = value m e) (hle : E ≤ e) :
    M = m * 2 ^ (e - E).toNat := by
  apply eq_of_value_eq E
  rw [h, value_shift, show E + (e - E).toNat = e by omega]

-- The value lies between two powers of two.
theorem value_bounds (hm : 0 < m) (e : Int) :
    (2 : ℚ) ^ (totalExponent m e - 1) ≤ value m e ∧ value m e < 2 ^ totalExponent m e := by
  have hlow : (2 : ℚ) ^ m.log2 ≤ m := by exact_mod_cast Nat.log2_self_le (Nat.ne_of_gt hm)
  have hhigh : (m : ℚ) < 2 ^ (m.log2 + 1) := by exact_mod_cast Nat.lt_log2_self
  have hpos : (0 : ℚ) < 2 ^ e := by positivity
  constructor
  · rw [totalExponent, show (m.log2 : Int) + 1 + e - 1 = m.log2 + e by ring,
      zpow_add₀ two_ne_zero, zpow_natCast]
    exact mul_le_mul_of_nonneg_right hlow hpos.le
  · rw [totalExponent, zpow_add₀ two_ne_zero]
    exact mul_lt_mul_of_pos_right (by exact_mod_cast hhigh) hpos

theorem totalExponent_le (hm : 0 < m) (hM : 0 < M) (h : value m e ≤ value M E) :
    totalExponent m e ≤ totalExponent M E := by
  have hlt := ((value_bounds hm e).1.trans h).trans_lt (value_bounds hM E).2
  have := (zpow_lt_zpow_iff_right₀ (one_lt_two : (1 : ℚ) < 2)).mp hlt
  omega

theorem totalExponent_congr (hm : 0 < m) (hM : 0 < M) (h : value m e = value M E) :
    totalExponent m e = totalExponent M E :=
  le_antisymm (totalExponent_le hm hM h.le) (totalExponent_le hM hm h.ge)

-- A mantissa and an exponent as the format has them.
structure Canonical (spec : Format) (m : Nat) (e : Int) : Prop where
  pos : 0 < m
  target : spec.targetExponent (totalExponent m e) = e

theorem shiftRight_exact (m k : Nat) :
    (⟨m * 2 ^ k, false, false⟩ : ExtendedMantissa) >>> k = ⟨m, false, false⟩ := by
  change k.repeat ExtendedMantissa.shiftRightOne _ = _
  induction k generalizing m with
  | zero => simp [Nat.repeat]
  | succ k ih =>
      rw [Nat.repeat, Nat.pow_succ', ← Nat.mul_assoc, ih (m * 2)]
      simp [ExtendedMantissa.shiftRightOne]

theorem shiftToTargetExponent_exact (h : Canonical spec m e) (hvalue : value M E = value m e)
    (hle : E ≤ e) : shiftToTargetExponent spec M E .exact = (⟨m, false, false⟩, e) := by
  have htotal := totalExponent_congr (pos_of_value_eq h.pos hvalue) h.pos hvalue
  have hmantissa := eq_shift_of_value_eq hvalue hle
  have hshift := shiftRight_exact m (e - E).toNat
  rw [← hmantissa] at hshift
  simp only [shiftToTargetExponent, shiftToExponent, htotal, h.target,
    ExtendedMantissa.ofMantissaAndAccuracy, hshift, Prod.mk.injEq, true_and]
  omega

-- What a format has is not rounded.
theorem roundWithAccuracy_exact (h : Canonical spec m e) (hvalue : value M E = value m e)
    (hle : E ≤ e) (s : Sign) : roundWithAccuracy spec s M E .exact = .finite s m e h.pos := by
  have hfirst := shiftToTargetExponent_exact h hvalue hle
  have hsecond := shiftToTargetExponent_exact h rfl le_rfl
  have hrounded : (⟨m, false, false⟩ : ExtendedMantissa).roundedMantissa = m := rfl
  rw [roundWithAccuracy, hfirst]
  dsimp only
  rw [hrounded, hsecond]
  exact dif_neg (Nat.ne_of_gt h.pos)

theorem round_exact (h : Canonical spec m e) (hvalue : value M E = value m e) (s : Sign) :
    UnpackedFloat.round spec s M E = .finite s m e h.pos := by
  have htotal := totalExponent_congr (pos_of_value_eq h.pos hvalue) h.pos hvalue
  dsimp only [UnpackedFloat.round, decreaseExponent]
  rw [htotal, h.target, Nat.shiftLeft_eq]
  refine roundWithAccuracy_exact h ?_ (by omega) s
  rw [value_shift, sub_add_cancel, hvalue]

theorem value_mul (m₁ m₂ : Nat) (e₁ e₂ : Int) :
    value m₁ e₁ * value m₂ e₂ = value (m₁ * m₂) (e₁ + e₂) := by
  rw [value, value, value, zpow_add₀ two_ne_zero]
  push_cast
  ring

-- A quotient has at most as many places before the point as its parts say.
theorem totalExponent_sub_le {m₁ m₂ : Nat} {e₁ e₂ : Int} (hm₁ : 0 < m₁) (hm₂ : 0 < m₂)
    (hm : 0 < m) (hvalue : value m₁ e₁ = value m e * value m₂ e₂) :
    totalExponent m₁ e₁ - totalExponent m₂ e₂ ≤ totalExponent m e := by
  have hlow := (value_bounds hm₁ e₁).1
  have hhigh : value m e * value m₂ e₂ < 2 ^ totalExponent m e * 2 ^ totalExponent m₂ e₂ :=
    mul_lt_mul'' (value_bounds hm e).2 (value_bounds hm₂ e₂).2 (value_pos hm e).le
      (value_pos hm₂ e₂).le
  rw [hvalue] at hlow
  have hlt := hlow.trans_lt hhigh
  rw [← zpow_add₀ two_ne_zero] at hlt
  have := (zpow_lt_zpow_iff_right₀ (one_lt_two : (1 : ℚ) < 2)).mp hlt
  omega

-- A quotient that the format has comes out without a remainder.
theorem div_exact {m₁ m₂ : Nat} {e₁ e₂ : Int} (hm₁ : 0 < m₁) (hm₂ : 0 < m₂)
    (h : Canonical spec m e) (hvalue : value m₁ e₁ = value m e * value m₂ e₂) (s₁ s₂ : Sign) :
    UnpackedFloat.div spec (.finite s₁ m₁ e₁ hm₁) (.finite s₂ m₂ e₂ hm₂) =
      .finite (s₁ / s₂) m e h.pos := by
  have htotal := totalExponent_sub_le hm₁ hm₂ h.pos hvalue
  have htarget := h.target
  dsimp only [UnpackedFloat.div, divCore]
  generalize ht : min (e₁ - e₂)
    (spec.targetExponent (totalExponent m₁ e₁ - totalExponent m₂ e₂)) = t
  have hte : t ≤ e := by
    simp only [Format.targetExponent] at ht htarget
    omega
  -- The numerator is shifted at least as far as the quotient reaches.
  have hshift : m₁ <<< (e₁ - e₂ - t).toNat = m * 2 ^ (e - t).toNat * m₂ := by
    rw [Nat.shiftLeft_eq]
    apply eq_of_value_eq (t + e₂)
    rw [value_shift, ← value_mul, value_shift, show t + e₂ + (e₁ - e₂ - t).toNat = e₁ by omega,
      show t + (e - t).toNat = e by omega, hvalue]
  rw [hshift, Nat.mul_div_cancel _ hm₂, Nat.mul_mod_left]
  refine roundWithAccuracy_exact h ?_ hte _
  rw [value_shift]
  congr 1
  omega

-- A short mantissa has a place in the format.
theorem exists_canonical (hm : 0 < m) (hbits : m.log2 < spec.mantissaBits)
    (he : spec.minExponent ≤ e) :
    ∃ m' e', Canonical spec m' e' ∧ value m' e' = value m e ∧ e' ≤ e ∧
      e' = spec.targetExponent (totalExponent m e) := by
  generalize ht : spec.targetExponent (totalExponent m e) = t
  have hte : t ≤ e := by
    simp only [Format.targetExponent, totalExponent] at ht
    omega
  have hvalue : value (m * 2 ^ (e - t).toNat) t = value m e := by
    rw [value_shift, show t + (e - t).toNat = e by omega]
  have hpos : 0 < m * 2 ^ (e - t).toNat := by positivity
  refine ⟨_, t, ⟨hpos, ?_⟩, hvalue, hte, rfl⟩
  rw [totalExponent_congr hpos hm hvalue, ht]

theorem Canonical.log2_lt (h : Canonical spec m e) : m.log2 < spec.mantissaBits := by
  have htarget := h.target
  simp only [Format.targetExponent, totalExponent] at htarget
  omega

theorem Canonical.minExponent_le (h : Canonical spec m e) : spec.minExponent ≤ e := by
  have htarget := h.target
  simp only [Format.targetExponent] at htarget
  omega

-- The decimal number that a quotient by a power of ten comes to.
theorem ofScientific_exact (h : Canonical spec m e) {n k : Nat} (hn : 0 < n)
    (hvalue : value n 0 = value m e * value (10 ^ k) 0) (hk : k ≤ 2 ^ spec.exponentBits) :
    UnpackedFloat.ofScientific spec n (Int.negOfNat k) = .finite .positive m e h.pos := by
  rw [show Int.negOfNat k = -(k : Int) from Int.negOfNat_eq]
  have hsmall : ¬((-k : Int) > 2 ^ spec.exponentBits) := by
    have : (0 : Int) < 2 ^ spec.exponentBits := by positivity
    omega
  have hlarge : ¬((-k : Int) < -((2 : Int) ^ spec.exponentBits + n.log2)) := by
    have : (k : Int) ≤ 2 ^ spec.exponentBits := by exact_mod_cast hk
    omega
  rw [UnpackedFloat.ofScientific, dif_neg (Nat.ne_of_gt hn), if_neg hsmall, if_neg hlarge]
  by_cases hzero : k = 0
  · subst hzero
    have hsame : value n 0 = value m e := by simpa [value] using hvalue
    have htotal := totalExponent_congr hn h.pos hsame
    have hbelow : -(spec.mantissaBits : Int) + 0 ≤ e := by
      have htarget := h.target
      rw [← htotal] at htarget
      simp only [Format.targetExponent, totalExponent] at htarget
      omega
    rw [if_pos (by omega)]
    refine roundWithAccuracy_exact h ?_ hbelow _
    rw [Nat.shiftLeft_eq, Int.toNat_neg_natCast, pow_zero, mul_one, value_shift, ← hsame]
    congr 1
    ring
  · rw [if_neg (by omega)]
    refine div_exact hn (by positivity) h ?_ _ _
    rwa [neg_neg, Int.toNat_natCast]

end ParticleFx.Binary
