import Mathlib.Algebra.BigOperators.Group.Finset.Basic
import ParticleFx.Effect.Kernel
import ParticleFx.Proofs.Number.Decay

namespace ParticleFx.Kernel

open Binary (value)
open Number

variable {exp : Float → Float} {radius t : Nat} {sigma : Float32} {ts : Array Nat}

-- A width that a bell can have.
def IsWidth (sigma : Float32) : Prop :=
  sigma.isFinite = true ∧ ¬sigma ≤ 0

instance (sigma : Float32) : Decidable (IsWidth sigma) :=
  inferInstanceAs (Decidable (sigma.isFinite = true ∧ ¬sigma ≤ 0))

-- Twice the square of a width stays well within double precision.
theorem exists_parts_doubled (h : IsWidth sigma) :
    ∃ m e, Parts (2 * (widen sigma * widen sigma)) m e := by
  obtain ⟨m, e, hparts, hlong, hlow, hlt⟩ := exists_parts_widen h.1 h.2
  have hpos := Binary.value_pos hparts.canonical.pos e
  have hsquare : value m e * value m e < 2 ^ (256 : Int) := by
    rw [show (256 : Int) = 128 + 128 from rfl, zpow_add₀ two_ne_zero]
    exact mul_lt_mul'' hlt hlt hpos.le hpos.le
  obtain ⟨n, F, hproduct, hlong', hexponent, hdouble⟩ := hparts.exists_mul hparts hlong hlong (by omega)
    (hsquare.trans (zpow_lt_zpow_right₀ one_lt_two (by norm_num)))
  have htwo : Parts 2 (2 ^ 52) (-51) :=
    ⟨⟨by norm_num, by decide +kernel⟩, show (-51 : Int) + 1023 + 52 + 1 < 2048 by norm_num, by rfl⟩
  obtain ⟨N, G, hdoubled, _⟩ := htwo.exists_mul hproduct (Nat.le_refl _) hlong' (by omega) (by
    calc value (2 ^ 52) (-51) * value n F ≤ 2 * (2 * 2 ^ (256 : Int)) := by
          rw [show value (2 ^ 52) (-51) = 2 by norm_num [value]]
          linarith
      _ = 2 ^ (1 + (1 + 256) : Int) := by rw [zpow_one_add₀ two_ne_zero, zpow_one_add₀ two_ne_zero]
      _ < 2 ^ (1022 : Int) := zpow_lt_zpow_right₀ one_lt_two (by norm_num))
  exact ⟨N, G, hdoubled⟩

-- The bell is highest in its middle, and one high there.
theorem bell_zero (hexp : Decays exp) (h : IsWidth sigma) : bell exp sigma 0 = 1 := by
  obtain ⟨m, e, hdoubled⟩ := exists_parts_doubled h
  exact (congrArg exp (neg_zero_div hdoubled)).trans hexp.zero

theorem isAmount_bell (hexp : Decays exp) (h : IsWidth sigma) (i : Nat) :
    IsAmount (bell exp sigma i) ∧ amount (bell exp sigma i) ≤ 1 := by
  obtain ⟨m, e, hdoubled⟩ := exists_parts_doubled h
  obtain ⟨hlow, hhigh⟩ := hexp.share _ ((isAmount_ofUInt64 (i * i).toUInt64).neg_div_nonpos hdoubled)
  exact IsAmount.of_le_one hlow hhigh

theorem amount_one : amount 1 = 1 := by
  rw [Parts.one.amount_eq]
  norm_num [value]

theorem offset_le (ht : t ≤ 2 * radius) : offset radius t ≤ radius := by
  unfold offset
  split <;> omega

theorem offset_self (radius : Nat) : offset radius radius = 0 := by
  simp [offset]

theorem size_heights (exp : Float → Float) (radius : Nat) (sigma : Float32) :
    (heights exp radius sigma).size = 2 * radius + 1 := by
  simp [heights]

theorem toList_heights (exp : Float → Float) (radius : Nat) (sigma : Float32) :
    (heights exp radius sigma).toList =
      (List.range (2 * radius + 1)).map fun t => bell exp sigma (offset radius t) := by
  rw [heights, Array.toList_ofFn, List.ofFn_eq_map, ← List.map_coe_finRange_eq_range, List.map_map]
  rfl

-- The sum of the heights is a number between one and all that they could be, and is off by no more than what
-- each of the sums on the way is rounded by.
structure Totals (exp : Float → Float) (radius : Nat) (sigma : Float32) (places : Int) : Prop where
  isAmount : IsAmount (total (heights exp radius sigma))
  ge (t : Nat) : t ≤ 2 * radius →
    amount (bell exp sigma (offset radius t)) ≤ amount (total (heights exp radius sigma))
  error : |amount (total (heights exp radius sigma)) -
      ∑ t ∈ Finset.range (2 * radius + 1), amount (bell exp sigma (offset radius t))| ≤
    (2 * radius + 1) * 2 ^ (places - 53)

theorem totals (hexp : Decays exp) (h : IsWidth sigma) {places : Int} (hlow : 0 ≤ places)
    (hhigh : places ≤ 53) (hroom : 2 * (2 * radius + 1 : ℚ) < 2 ^ places) :
    Totals exp radius sigma places := by
  have hzero : (0 : Float).toModel.unpack = .zero .positive := by rfl
  have hstart : IsAmount 0 := .zero .positive hzero
  have hfold : total (heights exp radius sigma) = (heights exp radius sigma).toList.foldl (· + ·) 0 := by
    rw [total, Array.foldl_toList]
  have hmem : ∀ x ∈ (heights exp radius sigma).toList, IsAmount x ∧ amount x ≤ 1 := by
    intro x hx
    rw [toList_heights, List.mem_map] at hx
    obtain ⟨t, _, rfl⟩ := hx
    exact isAmount_bell hexp h _
  have hlength : (((heights exp radius sigma).toList.length : Nat) : ℚ) = 2 * radius + 1 := by
    rw [Array.length_toList, size_heights]
    push_cast
    rfl
  have hsum : ((heights exp radius sigma).toList.map amount).sum =
      ∑ t ∈ Finset.range (2 * radius + 1), amount (bell exp sigma (offset radius t)) := by
    rw [toList_heights, List.map_map]
    rfl
  obtain ⟨hisAmount, _, hge, herror⟩ := amount_foldl_add _ hstart hmem hlow hhigh (by
    rw [amount_eq_zero hzero, zero_add, hlength]
    exact hroom)
  rw [← hfold] at hisAmount hge herror
  rw [amount_eq_zero hzero, zero_add, hsum, hlength] at herror
  refine ⟨hisAmount, fun t ht => hge _ ?_, herror⟩
  rw [toList_heights]
  exact List.mem_map_of_mem (List.mem_range.mpr (by omega))

theorem Totals.one_le {places : Int} (htotals : Totals exp radius sigma places) (hexp : Decays exp)
    (h : IsWidth sigma) : 1 ≤ amount (total (heights exp radius sigma)) := by
  have hmiddle := htotals.ge radius (by omega)
  rwa [offset_self, bell_zero hexp h, amount_one] at hmiddle

theorem taps_eq_ok_iff :
    taps exp radius sigma = .ok ts ↔
      IsWidth sigma ∧ isNormal (total (heights exp radius sigma)) = true ∧
        ts = balanced radius (shares (heights exp radius sigma)) := by
  unfold taps IsWidth
  by_cases hfinite : sigma.isFinite = true <;> by_cases hpos : sigma ≤ 0 <;>
    by_cases hnormal : isNormal (total (heights exp radius sigma)) = true <;>
      simp [hfinite, hpos, hnormal, eq_comm]

-- There are taps for every bell that has a width.
theorem exists_taps (hexp : Decays exp) (h : IsWidth sigma) (hradius : radius < 2 ^ 50) :
    ∃ ts, taps exp radius sigma = .ok ts := by
  have hroom : 2 * (2 * radius + 1 : ℚ) < 2 ^ (53 : Int) := by
    have : (radius : ℚ) + 1 ≤ 2 ^ 50 := by exact_mod_cast hradius
    rw [zpow_ofNat]
    linarith
  have htotals := totals hexp h (by norm_num) (le_refl _) hroom
  exact ⟨_, taps_eq_ok_iff.mpr ⟨h, htotals.isAmount.isNormal (htotals.one_le hexp h), rfl⟩⟩

end ParticleFx.Kernel
