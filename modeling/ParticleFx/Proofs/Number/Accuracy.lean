import ParticleFx.Proofs.Number.Magnitude

namespace ParticleFx.Binary

open Float.Model (Format UnpackedFloat totalExponent)
open Float.Model.UnpackedFloat

variable {spec : Format} {m M g m₁ m₂ : Nat} {e E G t e₁ e₂ : Int}

theorem totalExponent_le_of_lt (hM : 0 < M) (h : value M E < 2 ^ t) : totalExponent M E ≤ t := by
  have := (zpow_lt_zpow_iff_right₀ (one_lt_two : (1 : ℚ) < 2)).mp ((value_bounds hM E).1.trans_lt h)
  omega

-- The neighbours of a number are one step of the grid apart.
theorem Nearby.abs_sub_le (h : Nearby spec M E m e) :
    |value m e - value M E| ≤ 2 ^ spec.targetExponent (totalExponent M E) := by
  obtain ⟨floor, hbelow, habove, hfloor, hceiling⟩ := h
  have hstep : value (floor + 1) (spec.targetExponent (totalExponent M E)) =
      value floor (spec.targetExponent (totalExponent M E)) +
        2 ^ spec.targetExponent (totalExponent M E) := by
    simp only [value, Nat.cast_add, Nat.cast_one, add_mul, one_mul]
  rw [hstep] at habove hceiling
  rw [abs_le]
  constructor <;> linarith

theorem Nearby.le_two_mul (hM : 0 < M) (hmin : spec.minExponent < totalExponent M E)
    (h : Nearby spec M E m e) : value m e ≤ 2 * value M E := by
  have hstep := (abs_sub_le_iff.mp h.abs_sub_le).1
  have htarget := targetExponent_lt hmin
  have hgrid : (2 : ℚ) ^ spec.targetExponent (totalExponent M E) ≤ value M E :=
    (zpow_le_zpow_right₀ one_le_two (by omega)).trans (value_bounds hM E).1
  linarith

-- Rounding does not go below a number that the format has.
theorem Nearby.ge (hM : 0 < M) (hg : Canonical spec g G) (h : Nearby spec M E m e)
    (hle : value g G ≤ value M E) : value g G ≤ value m e := by
  obtain ⟨floor, _, habove, hfloor, _⟩ := h
  refine le_trans ?_ hfloor
  have htotal := totalExponent_le hg.pos hM hle
  have htarget := hg.target
  have hlow := hg.minExponent_le
  by_cases hgrid : spec.targetExponent (totalExponent M E) = G
  · rw [hgrid] at habove ⊢
    exact value_mono (Nat.le_of_lt_succ (lt_of_value_lt (hle.trans_lt habove))) G
  · -- On a coarser grid there is a power of two between the numbers.
    have hless : totalExponent g G ≤ totalExponent M E - 1 := by
      simp only [Format.targetExponent] at htarget hgrid
      omega
    have hreach : spec.targetExponent (totalExponent M E) < totalExponent M E := by
      apply targetExponent_lt
      simp only [Format.targetExponent] at htarget hgrid
      omega
    calc value g G
        ≤ 2 ^ totalExponent g G := (value_bounds hg.pos G).2.le
      _ ≤ 2 ^ (totalExponent M E - 1) := zpow_le_zpow_right₀ one_le_two hless
      _ ≤ value floor (spec.targetExponent (totalExponent M E)) :=
          pow_le_floor hreach (value_bounds hM E).1 habove

theorem Nearby.congr {M' : Nat} {E' : Int} (hM : 0 < M) (hvalue : value M' E' = value M E)
    (h : Nearby spec M' E' m e) : Nearby spec M E m e := by
  have htotal := totalExponent_congr (pos_of_value_eq hM hvalue) hM hvalue
  unfold Nearby at h ⊢
  rwa [htotal, hvalue] at h

-- Whatever the grid, rounding is to a neighbour.
theorem exists_round (hM : 0 < M) (hE : spec.minExponent ≤ E) (s : Sign) :
    ∃ m e, ∃ h : Canonical spec m e,
      UnpackedFloat.round spec s M E = .finite s m e h.pos ∧ Nearby spec M E m e := by
  have hmin : spec.minExponent < totalExponent M E := by
    rw [totalExponent]
    omega
  generalize hk : (E - spec.targetExponent (totalExponent M E)).toNat = k
  have hvalue : value (M * 2 ^ k) (E - k) = value M E := by
    rw [value_shift, sub_add_cancel]
  have hpos := pos_of_value_eq hM hvalue
  have htotal := totalExponent_congr hpos hM hvalue
  have hplace : E - k ≤ spec.targetExponent (totalExponent (M * 2 ^ k) (E - k)) := by
    rw [htotal]
    omega
  obtain ⟨m, e, h, hround, hnearby⟩ := exists_rounded hpos hplace (by rwa [htotal]) s .exact
  refine ⟨m, e, h, ?_, hnearby.congr hM hvalue⟩
  simp only [UnpackedFloat.round, decreaseExponent, hk, Nat.shiftLeft_eq]
  exact hround

theorem targetExponent_lowest (hbits : 2 ≤ spec.mantissaBits) (ht : t ≤ spec.minExponent + 2) :
    spec.targetExponent t = spec.minExponent := by
  rw [Format.targetExponent]
  omega

theorem shiftToTargetExponent_lowest {k : Nat} (hbits : 2 ≤ spec.mantissaBits) (hE : E + k = spec.minExponent)
    (htotal : totalExponent M E ≤ spec.minExponent + 2) (accuracy : Accuracy) :
    shiftToTargetExponent spec M E accuracy =
      (ExtendedMantissa.ofMantissaAndAccuracy M accuracy >>> k, spec.minExponent) := by
  have hk : spec.minExponent - E = k := by omega
  simp only [shiftToTargetExponent, shiftToExponent, targetExponent_lowest hbits htotal, hk, Int.toNat_natCast]
  rw [hE]

-- What is less than two steps of the lowest grid ends on one of its first places.
theorem rounded_of_tiny (hbits : 2 ≤ spec.mantissaBits) (hE : E ≤ spec.minExponent)
    (h : value M E < value 2 spec.minExponent) (s : Sign) (accuracy : Accuracy) :
    roundWithAccuracy spec s M E accuracy = .zero s ∨
      ∃ m, ∃ h : Canonical spec m spec.minExponent,
        roundWithAccuracy spec s M E accuracy = .finite s m spec.minExponent h.pos ∧ m ≤ 2 := by
  obtain ⟨k, hk⟩ : ∃ k : Nat, E + k = spec.minExponent := ⟨(spec.minExponent - E).toNat, by omega⟩
  have hsmall : M < 2 * 2 ^ k := by
    rw [← hk, ← value_shift] at h
    exact lt_of_value_lt h
  have htotal : totalExponent M E ≤ spec.minExponent + 2 := by
    rcases Nat.eq_zero_or_pos M with rfl | hM
    · simp only [totalExponent, Nat.log2_zero]
      omega
    · refine (totalExponent_le_of_lt hM (h.trans_eq ?_)).trans (by omega : spec.minExponent + 1 ≤ _)
      rw [value, Nat.cast_two, zpow_add_one₀ two_ne_zero, mul_comm]
  have hfirst := shiftToTargetExponent_lowest hbits hk htotal accuracy
  generalize hem : ExtendedMantissa.ofMantissaAndAccuracy M accuracy >>> k = em at hfirst
  have hmantissa : em.mantissa ≤ 1 := by
    rw [← hem, mantissa_shiftRight, mantissa_ofAccuracy]
    exact Nat.le_of_lt_succ (Nat.div_lt_of_lt_mul (by rwa [Nat.mul_comm]))
  have hrounded : em.roundedMantissa ≤ 2 := by
    rcases roundedMantissa_cases em with h | h <;> omega
  have hplace : totalExponent em.roundedMantissa spec.minExponent ≤ spec.minExponent + 2 := by
    have hlog : em.roundedMantissa.log2 ≤ 1 := by
      interval_cases em.roundedMantissa <;> decide
    rw [totalExponent]
    omega
  have hsecond : shiftToTargetExponent spec em.roundedMantissa spec.minExponent .exact =
      (⟨em.roundedMantissa, false, false⟩, spec.minExponent) :=
    shiftToTargetExponent_lowest hbits (add_zero _) hplace .exact
  simp only [roundWithAccuracy, hfirst, hsecond]
  by_cases hzero : em.roundedMantissa = 0
  · exact .inl (dif_pos hzero)
  · exact .inr ⟨_, ⟨Nat.pos_of_ne_zero hzero, targetExponent_lowest hbits hplace⟩, dif_neg hzero, hrounded⟩

theorem value_lt_pow_mul (hm₁ : 0 < m₁) (hm₂ : 0 < m₂) (h : totalExponent m₁ e₁ - totalExponent m₂ e₂ < t) :
    value m₁ e₁ < 2 ^ t * value m₂ e₂ := by
  calc value m₁ e₁ < 2 ^ totalExponent m₁ e₁ := (value_bounds hm₁ e₁).2
    _ ≤ 2 ^ (t + (totalExponent m₂ e₂ - 1)) := zpow_le_zpow_right₀ one_le_two (by omega)
    _ = 2 ^ t * 2 ^ (totalExponent m₂ e₂ - 1) := zpow_add₀ two_ne_zero _ _
    _ ≤ 2 ^ t * value m₂ e₂ := by
        have := (value_bounds hm₂ e₂).1
        gcongr

-- A quotient that is below two steps of the lowest grid ends on one of its first places.
theorem div_of_tiny (hm₁ : 0 < m₁) (hm₂ : 0 < m₂)
    (hmin : totalExponent m₁ e₁ - totalExponent m₂ e₂ ≤ Format.binary64.minExponent) (s₁ s₂ : Sign) :
    UnpackedFloat.div .binary64 (.finite s₁ m₁ e₁ hm₁) (.finite s₂ m₂ e₂ hm₂) = .zero (s₁ / s₂) ∨
    ∃ m, ∃ h : Canonical .binary64 m Format.binary64.minExponent,
      UnpackedFloat.div .binary64 (.finite s₁ m₁ e₁ hm₁) (.finite s₂ m₂ e₂ hm₂) =
        .finite (s₁ / s₂) m Format.binary64.minExponent h.pos ∧ m ≤ 2 := by
  change _ ≤ (-1074 : Int) at hmin
  simp only [UnpackedFloat.div, divCore]
  generalize ht : min (e₁ - e₂)
    (Format.binary64.targetExponent (totalExponent m₁ e₁ - totalExponent m₂ e₂)) = t
  have hplace : t ≤ Format.binary64.minExponent := by
    rw [← ht, Format.targetExponent]
    change min _ (max (_ - 53) (-1074)) ≤ -1074
    omega
  have hquotient : value (m₁ <<< (e₁ - e₂ - t).toNat / m₂) t < value 2 Format.binary64.minExponent := by
    have hbelow := (@quotient_bounds m₁ m₂ e₁ e₂ t hm₂ (by omega)).1
    have hsmall : value m₁ e₁ < 2 ^ (-1073 : Int) * value m₂ e₂ := value_lt_pow_mul hm₁ hm₂ (by omega)
    refine (lt_of_mul_lt_mul_right (hbelow.trans_lt hsmall) (value_pos hm₂ e₂).le).trans_eq ?_
    change _ = value 2 (-1074)
    rw [value, Nat.cast_two, ← zpow_one_add₀ two_ne_zero]
    rfl
  exact rounded_of_tiny (by decide) hplace hquotient (s₁ / s₂) _

-- A quotient is rounded by no more than the place of its last bit.
theorem div_cases (hm₁ : 0 < m₁) (hm₂ : 0 < m₂) (s₁ s₂ : Sign) :
    UnpackedFloat.div .binary64 (.finite s₁ m₁ e₁ hm₁) (.finite s₂ m₂ e₂ hm₂) = .zero (s₁ / s₂) ∨
    ∃ m e, ∃ h : Canonical .binary64 m e,
      UnpackedFloat.div .binary64 (.finite s₁ m₁ e₁ hm₁) (.finite s₂ m₂ e₂ hm₂) =
        .finite (s₁ / s₂) m e h.pos ∧
      ∀ k : Int, -1021 ≤ k → value m₁ e₁ ≤ 2 ^ k * value m₂ e₂ →
        value m e ≤ value m₁ e₁ / value m₂ e₂ + 2 ^ (k - 52) := by
  have hpos := value_pos hm₂ e₂
  by_cases hmin : Format.binary64.minExponent < totalExponent m₁ e₁ - totalExponent m₂ e₂
  · obtain ⟨q, t, hq, _, hbelow, _, m, e, h, hdiv, hnearby⟩ :=
      exists_quotient_nearby hm₁ hm₂ hmin s₁ s₂
    refine .inr ⟨m, e, h, hdiv, fun k hk hle => ?_⟩
    have hquotient : value q t ≤ value m₁ e₁ / value m₂ e₂ := (le_div_iff₀ hpos).mpr hbelow
    have htotal : totalExponent q t ≤ k + 1 := by
      apply totalExponent_le_of_lt hq
      calc value q t ≤ value m₁ e₁ / value m₂ e₂ := hquotient
        _ ≤ 2 ^ k := (div_le_iff₀ hpos).mpr hle
        _ < 2 ^ (k + 1) := zpow_lt_zpow_right₀ one_lt_two (by omega)
    have hgrid : Format.binary64.targetExponent (totalExponent q t) ≤ k - 52 := by
      change max (totalExponent q t - 53) (-1074) ≤ k - 52
      omega
    calc value m e
        ≤ value q t + 2 ^ Format.binary64.targetExponent (totalExponent q t) :=
          (abs_sub_le_iff.mp hnearby.abs_sub_le).1 |> sub_le_iff_le_add'.mp
      _ ≤ value m₁ e₁ / value m₂ e₂ + 2 ^ (k - 52) :=
          add_le_add hquotient (zpow_le_zpow_right₀ one_le_two hgrid)
  · rcases div_of_tiny hm₁ hm₂ (not_lt.mp hmin) s₁ s₂ with hzero | ⟨m, h, hdiv, hm⟩
    · exact .inl hzero
    · refine .inr ⟨m, _, h, hdiv, fun k hk _ => ?_⟩
      calc value m Format.binary64.minExponent
          ≤ value 2 (-1074) := value_mono hm _
        _ ≤ 2 ^ (k - 52) := by
            rw [value, Nat.cast_two, ← zpow_one_add₀ two_ne_zero]
            exact zpow_le_zpow_right₀ one_le_two (by omega)
        _ ≤ value m₁ e₁ / value m₂ e₂ + 2 ^ (k - 52) :=
            le_add_of_nonneg_left (div_pos (value_pos hm₁ e₁) hpos).le

end ParticleFx.Binary
