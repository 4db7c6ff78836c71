import ParticleFx.Number.Exponential
import ParticleFx.Proofs.Number.Amount

namespace ParticleFx

open Binary Number
open Float.Model (Format UnpackedFloat totalExponent)
open Float.Model.UnpackedFloat

-- All that is asked of an exponential: no arguments are taken but those that are not positive, and there
-- it is a share of one.
structure Decays (exp : Float → Float) : Prop where
  zero : exp (-0) = 1
  share (x : Float) : x ≤ 0 → 0 ≤ exp x ∧ exp x ≤ 1

namespace Exponential

-- The terms shrink and their signs alternate, so a sum is never left again by more than its last term.
theorem series_bounds (r left n term : Nat) (sum : Int) (hr : r ≤ unit) :
    (if n % 2 = 0 then sum else sum - term) ≤ series r left n term sum ∧
      series r left n term sum ≤ if n % 2 = 0 then sum + term else sum := by
  induction left generalizing n term sum with
  | zero =>
      unfold series
      split <;> omega
  | succ left ih =>
      rw [series]
      by_cases hterm : term = 0
      · rw [if_pos hterm]
        split <;> omega
      · rw [if_neg hterm]
        have hnext : term * r / ((n + 1) * unit) ≤ term := by
          apply Nat.div_le_of_le_mul
          rw [Nat.mul_comm _ term]
          exact Nat.mul_le_mul_left term (hr.trans (Nat.le_mul_of_pos_left unit n.succ_pos))
        by_cases heven : n % 2 = 0
        · have hrest := ih (n + 1) (term * r / ((n + 1) * unit)) (sum + term)
          rw [if_neg (by omega), if_neg (by omega)] at hrest
          rw [if_pos heven, if_pos heven, if_pos heven]
          omega
        · have hrest := ih (n + 1) (term * r / ((n + 1) * unit)) (sum - term)
          rw [if_pos (by omega), if_pos (by omega)] at hrest
          rw [if_neg heven, if_neg heven, if_neg heven]
          omega

theorem series_le (r left : Nat) (hr : r ≤ unit) : (series r left 0 unit 0).toNat ≤ unit := by
  have hseries := (series_bounds r left 0 unit 0 hr).2
  rw [if_pos rfl] at hseries
  omega

theorem le_series (r left : Nat) (hr : r ≤ unit) : unit - r ≤ (series r (left + 1) 0 unit 0).toNat := by
  have hfirst : unit * r / ((0 + 1) * unit) = r := by
    rw [zero_add, one_mul, Nat.mul_div_cancel_left _ (by decide)]
  have hseries := (series_bounds r left 1 r unit hr).1
  rw [if_neg (by decide)] at hseries
  rw [series, if_neg (by decide), if_pos rfl, hfirst]
  change _ ≤ (series r left 1 r (0 + unit)).toNat
  rw [Int.zero_add]
  omega

-- What is left after whole halvings is less than one.
theorem rest_le (y : Nat) : y % ln2 ≤ unit :=
  (Nat.mod_lt y (by decide)).le.trans (by decide)

theorem exists_decay {y : Nat} (hy : y < 1075 * ln2) :
    ∃ m e, decay y = ⟨false, m, e⟩ ∧ m ≤ 2 ^ 53 ∧ -1074 ≤ e ∧ value m e ≤ 1 := by
  have hseries := series_le _ terms (rest_le y)
  have hhalvings : y / ln2 ≤ 1074 := Nat.le_of_lt_succ (Nat.div_lt_of_lt_mul (by rwa [Nat.mul_comm]))
  simp only [decay]
  generalize (series (y % ln2) terms 0 unit 0).toNat = x at hseries ⊢
  generalize y / ln2 = halvings at hhalvings ⊢
  generalize hbits : min 53 (1074 - halvings) = bits
  obtain ⟨k, hk⟩ : ∃ k, places - bits = k + 1 := ⟨places - bits - 1, by unfold places; omega⟩
  have hmantissa : (x + 1 <<< (places - bits - 1)) >>> (places - bits) ≤ 2 ^ bits := by
    rw [hk, Nat.add_sub_cancel, Nat.one_shiftLeft, Nat.shiftRight_eq_div_pow]
    apply Nat.le_of_lt_succ
    rw [Nat.div_lt_iff_lt_mul (by positivity)]
    have hunit : unit = 2 ^ bits * 2 ^ (k + 1) := by
      rw [← Nat.pow_add, show bits + (k + 1) = 128 by unfold places at hk; omega]
      rfl
    have hhalf : 2 ^ (k + 1) = 2 * 2 ^ k := Nat.pow_succ'
    have := Nat.two_pow_pos k
    rw [Nat.succ_mul]
    omega
  refine ⟨_, _, rfl, hmantissa.trans (Nat.pow_le_pow_right (by decide) (by omega)), by omega, ?_⟩
  calc value ((x + 1 <<< (places - bits - 1)) >>> (places - bits)) (-(halvings + bits : Nat))
      ≤ value (2 ^ bits) (-(halvings + bits : Nat)) := value_mono hmantissa _
    _ = 2 ^ (-(halvings : Int)) := by
        rw [← one_mul (2 ^ bits), value_shift, value_one]
        congr 1
        omega
    _ ≤ 1 := zpow_le_one_of_nonpos₀ one_le_two (by omega)

theorem decays : Decays exponential := by
  refine ⟨by decide +kernel, fun x _ => ?_⟩
  have hzero : (0 : Float) ≤ 0 ∧ (0 : Float) ≤ 1 := by decide +kernel
  rw [exponential]
  split
  · exact hzero
  · dsimp only
    split
    · exact hzero
    · rename_i hy
      obtain ⟨m, e, hdecay, hmantissa, hexponent, hle⟩ := exists_decay (not_le.mp hy)
      rw [hdecay]
      obtain ⟨hamount, hvalue⟩ := isAmount_toFloat hmantissa hexponent hle
      exact hamount.le_one (hvalue.trans_le hle)

theorem fixed_lt {b : Binary} {k : Nat} (hsmall : value b.mantissa b.exponent < 2 ^ ((k : Int) - 128)) :
    fixed b < 2 ^ k := by
  have hbelow : value (fixed b) (-128) ≤ value b.mantissa b.exponent := by
    simp only [fixed]
    split
    · rename_i hleft
      obtain ⟨n, hn⟩ := Int.eq_ofNat_of_zero_le hleft
      rw [hn, Int.toNat_natCast, Nat.shiftLeft_eq, value_shift]
      refine (congrArg (value b.mantissa) ?_).le
      change b.exponent + (128 : Nat) = n at hn
      omega
    · rename_i hright
      obtain ⟨n, hn⟩ : ∃ n : Nat, b.exponent + places = -(n : Int) := ⟨(-(b.exponent + places)).toNat, by omega⟩
      rw [hn, neg_neg, Int.toNat_natCast, Nat.shiftRight_eq_div_pow]
      have hfloor := (value_floor b.mantissa n b.exponent).1
      change b.exponent + (128 : Nat) = -(n : Int) at hn
      rwa [show b.exponent + n = -128 by omega] at hfloor
  have hpow : (2 : ℚ) ^ ((k : Int) - 128) = value (2 ^ k) (-128) := by
    rw [← one_mul (2 ^ k), value_shift, value_one, neg_add_eq_sub]
  exact lt_of_value_lt (hbelow.trans_lt (hsmall.trans_eq hpow))

-- So near to zero nothing is left of the slope.
theorem exponential_of_small {x : Float} {b : Binary} (hb : Binary.ofFloat? x = some b)
    (hsmall : value b.mantissa b.exponent < 2 ^ (-54 : Int)) : exponential x = 1 := by
  have hy : fixed b < 2 ^ 74 := fixed_lt hsmall
  have hln2 : 2 ^ 74 < ln2 := by decide
  have hunit : unit = 2 ^ 128 := by decide
  rw [exponential, hb]
  dsimp only
  rw [if_neg (by omega)]
  have hupper := series_le (fixed b) terms (by omega)
  have hlower := le_series (fixed b) 39 (by omega)
  have hmantissa : ((series (fixed b) terms 0 unit 0).toNat + 1 <<< 74) >>> 75 = 2 ^ 53 := by
    change unit - fixed b ≤ (series (fixed b) terms 0 unit 0).toNat at hlower
    rw [Nat.shiftRight_eq_div_pow, Nat.one_shiftLeft]
    omega
  have hdecay : decay (fixed b) = ⟨false, 2 ^ 53, -53⟩ := by
    simp only [decay, Nat.div_eq_of_lt (hy.trans hln2), Nat.mod_eq_of_lt (hy.trans hln2)]
    exact congrArg (Binary.mk false · (-53)) hmantissa
  rw [hdecay]
  decide +kernel

end Exponential

end ParticleFx
