import ParticleFx.Proofs.Number.Widening

namespace ParticleFx.Binary

open Float.Model (Format UnpackedFloat totalExponent)
open Float.Model.UnpackedFloat

variable {spec : Format} {m M m₁ m₂ : Nat} {e E e₁ e₂ : Int}

theorem value_mono (h : m ≤ M) (e : Int) : value m e ≤ value M e := by
  unfold value
  gcongr

theorem value_strictMono (h : m < M) (e : Int) : value m e < value M e := by
  unfold value
  gcongr

theorem lt_of_value_lt (h : value m e < value M e) : m < M := by
  have hpos : (0 : ℚ) < 2 ^ e := by positivity
  exact_mod_cast lt_of_mul_lt_mul_right h hpos.le

theorem value_one (e : Int) : value 1 e = 2 ^ e := by simp [value]

-- A power of two that is no finer than the grid is on it.
theorem exists_value_eq (h : e ≤ E) (m : Nat) : ∃ n, value n e = value m E := by
  refine ⟨m * 2 ^ (E - e).toNat, ?_⟩
  rw [value_shift, show e + (E - e).toNat = E by omega]

theorem totalExponent_eq_of_bounds {t : Int} (hm : 0 < m) (hlow : (2 : ℚ) ^ (t - 1) ≤ value m e)
    (hhigh : value m e < 2 ^ t) : totalExponent m e = t := by
  obtain ⟨hbelow, habove⟩ := value_bounds hm e
  have hle := (zpow_lt_zpow_iff_right₀ (one_lt_two : (1 : ℚ) < 2)).mp (hlow.trans_lt habove)
  have hge := (zpow_lt_zpow_iff_right₀ (one_lt_two : (1 : ℚ) < 2)).mp (hbelow.trans_lt hhigh)
  omega

theorem lt_totalExponent {t : Int} (hm : 0 < m) (h : (2 : ℚ) ^ t ≤ value m e) :
    t < totalExponent m e :=
  (zpow_lt_zpow_iff_right₀ (one_lt_two : (1 : ℚ) < 2)).mp (h.trans_lt (value_bounds hm e).2)

theorem pos_of_pow_le {t : Int} (h : (2 : ℚ) ^ t ≤ value m e) : 0 < m := by
  apply Nat.pos_of_ne_zero
  rintro rfl
  rw [value, Nat.cast_zero, zero_mul] at h
  exact absurd h (not_le.mpr (by positivity))

theorem mantissa_shiftRight (em : ExtendedMantissa) (k : Nat) :
    (em >>> k).mantissa = em.mantissa / 2 ^ k := by
  change (k.repeat ExtendedMantissa.shiftRightOne em).mantissa = _
  induction k with
  | zero => simp [Nat.repeat]
  | succ k ih =>
      rw [Nat.repeat, ExtendedMantissa.shiftRightOne, ih, Nat.pow_succ, Nat.div_div_eq_div_mul]

theorem mantissa_ofAccuracy (m : Nat) (accuracy : Accuracy) :
    (ExtendedMantissa.ofMantissaAndAccuracy m accuracy).mantissa = m := by
  cases accuracy with
  | exact => rfl
  | inexact order => cases order <;> rfl

-- Rounding stays or goes up by one.
theorem roundedMantissa_cases (em : ExtendedMantissa) :
    em.roundedMantissa = em.mantissa ∨ em.roundedMantissa = em.mantissa + 1 := by
  obtain ⟨m, round, sticky⟩ := em
  cases round with
  | false => cases sticky <;> exact .inl rfl
  | true =>
      cases sticky with
      | true => exact .inr rfl
      | false =>
          show m + m % 2 = m ∨ m + m % 2 = m + 1
          omega

theorem Canonical.of_totalExponent {t : Int} (hm : 0 < m) (htotal : totalExponent m e = t)
    (he : spec.targetExponent t = e) : Canonical spec m e := ⟨hm, by rw [htotal, he]⟩

-- A mantissa that rounding has brought to the next power of two has a canonical form as well.
theorem exists_canonical_of_le {t : Int} (hmin : spec.minExponent ≤ t)
    (he : spec.targetExponent t = e) (hlow : (2 : ℚ) ^ (t - 1) ≤ value m e)
    (hhigh : value m e ≤ 2 ^ t) :
    ∃ m' e', Canonical spec m' e' ∧ value m' e' = value m e ∧ e ≤ e' := by
  have hm := pos_of_pow_le hlow
  rcases hhigh.lt_or_eq with hlt | heq
  · exact ⟨m, e, .of_totalExponent hm (totalExponent_eq_of_bounds hm hlow hlt) he, rfl, le_rfl⟩
  · have hbits : Nat.log2 1 < spec.mantissaBits := by
      rw [Format.mantissaBits]
      exact Nat.lt_of_lt_of_le Nat.zero_lt_one (Nat.le_add_right 1 _)
    obtain ⟨m', e', hcanonical, hvalue, _, htarget⟩ := exists_canonical Nat.one_pos hbits hmin
    refine ⟨m', e', hcanonical, by rw [hvalue, value_one, heq], ?_⟩
    simp only [Format.targetExponent, totalExponent] at he htarget
    have : Nat.log2 1 = 0 := rfl
    omega

-- Cutting off places leaves the number below on the coarser grid.
theorem value_floor (M k : Nat) (E : Int) :
    value (M / 2 ^ k) (E + k) ≤ value M E ∧ value M E < value (M / 2 ^ k + 1) (E + k) := by
  rw [← value_shift, ← value_shift]
  refine ⟨value_mono (Nat.div_mul_le_self M _) E, ?_⟩
  rw [Nat.mul_comm]
  exact value_strictMono (Nat.lt_mul_div_succ M (Nat.two_pow_pos k)) E

-- A number is one of the two neighbours of another on the grid of the format.
def Nearby (spec : Format) (M : Nat) (E : Int) (m : Nat) (e : Int) : Prop :=
  ∃ floor, value floor (spec.targetExponent (totalExponent M E)) ≤ value M E ∧
    value M E < value (floor + 1) (spec.targetExponent (totalExponent M E)) ∧
    value floor (spec.targetExponent (totalExponent M E)) ≤ value m e ∧
    value m e ≤ value (floor + 1) (spec.targetExponent (totalExponent M E))

theorem targetExponent_lt {t : Int} (hmin : spec.minExponent < t) : spec.targetExponent t < t := by
  rw [Format.targetExponent, Format.mantissaBits]
  omega

-- The power of two below a number is on the grid, so it is below the neighbours too.
theorem pow_le_floor {floor : Nat} {t a : Int} (ha : a < t) (hlow : (2 : ℚ) ^ (t - 1) ≤ value M E)
    (habove : value M E < value (floor + 1) a) : (2 : ℚ) ^ (t - 1) ≤ value floor a := by
  obtain ⟨n, hn⟩ := exists_value_eq (show a ≤ t - 1 by omega) 1
  rw [← value_one, ← hn] at hlow ⊢
  exact value_mono (Nat.le_of_lt_succ (lt_of_value_lt (hlow.trans_lt habove))) _

theorem ceiling_le_pow {floor : Nat} {t a : Int} (ha : a < t) (hhigh : value M E < 2 ^ t)
    (hbelow : value floor a ≤ value M E) : value (floor + 1) a ≤ 2 ^ t := by
  obtain ⟨n, hn⟩ := exists_value_eq ha.le 1
  rw [← value_one, ← hn] at hhigh ⊢
  exact value_mono (lt_of_value_lt (hbelow.trans_lt hhigh)) _

theorem Nearby.pow_le (hM : 0 < M) (hmin : spec.minExponent < totalExponent M E)
    (h : Nearby spec M E m e) : (2 : ℚ) ^ (totalExponent M E - 1) ≤ value m e := by
  obtain ⟨floor, _, habove, hfloor, _⟩ := h
  exact (pow_le_floor (targetExponent_lt hmin) (value_bounds hM E).1 habove).trans hfloor

-- Rounding does not go past a number that the format has.
theorem Nearby.le {g : Nat} {G : Int} (hM : 0 < M) (hg : Canonical spec g G)
    (h : Nearby spec M E m e) (hlt : value M E < value g G) : value m e ≤ value g G := by
  obtain ⟨floor, hbelow, _, _, hceiling⟩ := h
  have hgrid : spec.targetExponent (totalExponent M E) ≤ G := by
    have htotal := totalExponent_le hM hg.pos hlt.le
    rw [← hg.target]
    simp only [Format.targetExponent]
    omega
  obtain ⟨n, hn⟩ := exists_value_eq hgrid g
  rw [← hn] at hlt ⊢
  exact hceiling.trans (value_mono (lt_of_value_lt (hbelow.trans_lt hlt)) _)

theorem exists_rounded (hM : 0 < M) (hE : E ≤ spec.targetExponent (totalExponent M E))
    (hmin : spec.minExponent < totalExponent M E) (s : Sign) (accuracy : Accuracy) :
    ∃ m e, ∃ h : Canonical spec m e,
      roundWithAccuracy spec s M E accuracy = .finite s m e h.pos ∧ Nearby spec M E m e := by
  unfold Nearby
  have hgrid := targetExponent_lt hmin
  obtain ⟨hlow, hhigh⟩ := value_bounds hM E
  generalize ht : totalExponent M E = t at *
  generalize ha : spec.targetExponent t = a at *
  obtain ⟨k, hk⟩ := Int.eq_ofNat_of_zero_le (show 0 ≤ a - E by omega)
  obtain rfl : a = E + k := by omega
  have hfirst : shiftToTargetExponent spec M E accuracy =
      (ExtendedMantissa.ofMantissaAndAccuracy M accuracy >>> k, E + k) := by
    simp only [shiftToTargetExponent, shiftToExponent, ht, ha, hk, Int.toNat_natCast]
  generalize hem : ExtendedMantissa.ofMantissaAndAccuracy M accuracy >>> k = em at hfirst
  have hmantissa : em.mantissa = M / 2 ^ k := by rw [← hem, mantissa_shiftRight, mantissa_ofAccuracy]
  obtain ⟨hbelow, habove⟩ := value_floor M k E
  have hrounded : value (M / 2 ^ k) (E + k) ≤ value em.roundedMantissa (E + k) ∧
      value em.roundedMantissa (E + k) ≤ value (M / 2 ^ k + 1) (E + k) := by
    rcases roundedMantissa_cases em with h | h
    · rw [h, hmantissa]
      exact ⟨le_rfl, value_mono (Nat.le_succ _) _⟩
    · rw [h, hmantissa]
      exact ⟨value_mono (Nat.le_succ _) _, le_rfl⟩
  have hfloor := (pow_le_floor hgrid hlow habove).trans hrounded.1
  have hceiling := hrounded.2.trans (ceiling_le_pow hgrid hhigh hbelow)
  obtain ⟨m, e, h, hvalue, hle⟩ := exists_canonical_of_le hmin.le ha hfloor hceiling
  have hsecond := shiftToTargetExponent_exact h hvalue.symm hle
  rw [← hvalue] at hrounded
  refine ⟨m, e, h, ?_, M / 2 ^ k, hbelow, habove, hrounded⟩
  simp only [roundWithAccuracy, hfirst, hsecond]
  rw [dif_neg (Nat.ne_of_gt h.pos)]

theorem pow_mul_value_le (hm₁ : 0 < m₁) (hm₂ : 0 < m₂) :
    (2 : ℚ) ^ (totalExponent m₁ e₁ - totalExponent m₂ e₂ - 1) * value m₂ e₂ ≤ value m₁ e₁ := by
  calc (2 : ℚ) ^ (totalExponent m₁ e₁ - totalExponent m₂ e₂ - 1) * value m₂ e₂
      ≤ 2 ^ (totalExponent m₁ e₁ - totalExponent m₂ e₂ - 1) * 2 ^ totalExponent m₂ e₂ := by
        have := (value_bounds hm₂ e₂).2
        gcongr
    _ = 2 ^ (totalExponent m₁ e₁ - 1) := by
        rw [← zpow_add₀ two_ne_zero]
        congr 1
        omega
    _ ≤ value m₁ e₁ := (value_bounds hm₁ e₁).1

-- Nothing is cut off from a power of two that is on the grid.
theorem pow_le_quotient {q : Nat} {t k : Int} {v : ℚ} (hm₂ : 0 < m₂) (hk : t ≤ k)
    (habove : v < value (q + 1) t * value m₂ e₂) (h : (2 : ℚ) ^ k * value m₂ e₂ ≤ v) :
    (2 : ℚ) ^ k ≤ value q t := by
  have hlt := lt_of_mul_lt_mul_right (h.trans_lt habove) (value_pos hm₂ e₂).le
  obtain ⟨n, hn⟩ := exists_value_eq hk 1
  rw [← value_one, ← hn] at hlt ⊢
  exact value_mono (Nat.le_of_lt_succ (lt_of_value_lt hlt)) t

-- Wherever a quotient is cut off, it lies within one step of the grid there.
theorem quotient_bounds {t : Int} (hm₂ : 0 < m₂) (ht : t ≤ e₁ - e₂) :
    value (m₁ <<< (e₁ - e₂ - t).toNat / m₂) t * value m₂ e₂ ≤ value m₁ e₁ ∧
      value m₁ e₁ < value (m₁ <<< (e₁ - e₂ - t).toNat / m₂ + 1) t * value m₂ e₂ := by
  generalize hn : m₁ <<< (e₁ - e₂ - t).toNat = n
  have hvalue : value n (t + e₂) = value m₁ e₁ := by
    rw [← hn, Nat.shiftLeft_eq, value_shift]
    congr 1
    omega
  rw [value_mul, value_mul, ← hvalue]
  refine ⟨value_mono (Nat.div_mul_le_self n m₂) _, value_strictMono ?_ _⟩
  rw [Nat.mul_comm]
  exact Nat.lt_mul_div_succ n hm₂

-- A quotient is cut off on a grid that is fine enough, and rounded from there.
theorem exists_quotient_nearby (hm₁ : 0 < m₁) (hm₂ : 0 < m₂)
    (hmin : spec.minExponent < totalExponent m₁ e₁ - totalExponent m₂ e₂) (s₁ s₂ : Sign) :
    ∃ q t, 0 < q ∧ spec.minExponent < totalExponent q t ∧
      value q t * value m₂ e₂ ≤ value m₁ e₁ ∧ value m₁ e₁ < value (q + 1) t * value m₂ e₂ ∧
      ∃ m e, ∃ h : Canonical spec m e,
        UnpackedFloat.div spec (.finite s₁ m₁ e₁ hm₁) (.finite s₂ m₂ e₂ hm₂) =
          .finite (s₁ / s₂) m e h.pos ∧ Nearby spec q t m e := by
  simp only [UnpackedFloat.div, divCore]
  generalize ht : min (e₁ - e₂)
    (spec.targetExponent (totalExponent m₁ e₁ - totalExponent m₂ e₂)) = t
  have hgrid := targetExponent_lt hmin
  obtain ⟨hbelow, habove⟩ := @quotient_bounds m₁ m₂ e₁ e₂ t hm₂ (by omega)
  generalize m₁ <<< (e₁ - e₂ - t).toNat = n at hbelow habove ⊢
  have hpow := pow_le_quotient hm₂ (by omega) habove (pow_mul_value_le hm₁ hm₂)
  have hq := pos_of_pow_le hpow
  have htotal := lt_totalExponent hq hpow
  have hplace : t ≤ spec.targetExponent (totalExponent (n / m₂) t) := by
    simp only [Format.targetExponent] at ht ⊢
    omega
  obtain ⟨m, e, h, hround, hnearby⟩ :=
    exists_rounded hq hplace (by omega) (s₁ / s₂) (accuracyOfFraction (n % m₂) m₂)
  exact ⟨n / m₂, t, hq, by omega, hbelow, habove, m, e, h, hround, hnearby⟩

-- So a quotient does not go past a number that the format has, nor does it fall below a power of two.
theorem exists_quotient (hm₁ : 0 < m₁) (hm₂ : 0 < m₂)
    (hmin : spec.minExponent < totalExponent m₁ e₁ - totalExponent m₂ e₂) (s₁ s₂ : Sign) :
    ∃ m e, ∃ h : Canonical spec m e,
      UnpackedFloat.div spec (.finite s₁ m₁ e₁ hm₁) (.finite s₂ m₂ e₂ hm₂) =
        .finite (s₁ / s₂) m e h.pos ∧
      (∀ g G, Canonical spec g G → value m₁ e₁ < value g G * value m₂ e₂ → value m e ≤ value g G) ∧
      ∀ k : Int, 2 ^ k * value m₂ e₂ ≤ value m₁ e₁ → 2 ^ k ≤ value m e := by
  obtain ⟨q, t, hq, htotal, hbelow, habove, m, e, h, hdiv, hnearby⟩ :=
    exists_quotient_nearby hm₁ hm₂ hmin s₁ s₂
  refine ⟨m, e, h, hdiv, ?_, ?_⟩
  · intro g G hg hlt
    exact hnearby.le hq hg (lt_of_mul_lt_mul_right (hbelow.trans_lt hlt) (value_pos hm₂ e₂).le)
  · intro k hle
    have hlt : k < totalExponent q t := by
      rcases le_or_gt t k with hk | hk
      · exact lt_totalExponent hq (pow_le_quotient hm₂ hk habove hle)
      · rw [totalExponent]
        omega
    refine le_trans ?_ (hnearby.pow_le hq htotal)
    exact zpow_le_zpow_right₀ one_le_two (by omega)

-- Numbers that are too large for the format become infinite.
theorem unpack_pack_of_not_fits (h : Canonical spec m e) (hfits : ¬Fits spec e) (s : Sign) :
    unpack spec (UnpackedFloat.pack spec (.finite s m e h.pos)) = .infinity s := by
  have hinfinite : UnpackedFloat.pack spec (.finite s m e h.pos) = packedInfinity spec s := by
    have hlarge : 2 ^ spec.exponentBits ≤
        (e + spec.exponentBias + spec.mantissaBitsWithoutImplicit).toNat + 1 := by
      rw [Fits, not_lt] at hfits
      zify
      omega
    simp only [UnpackedFloat.pack, if_pos hlarge]
  simp [hinfinite, packedInfinity, unpack]

-- A lower exponent means a smaller number, whatever the mantissas.
theorem value_lt_of_exponent_lt (h : Canonical spec m e) (H : Canonical spec M E) (hlt : e < E) :
    value m e < value M E := by
  have hlog := h.log2_lt
  have hlow := h.minExponent_le
  have htarget := H.target
  have hle : totalExponent m e ≤ totalExponent M E - 1 := by
    simp only [Format.targetExponent, totalExponent] at htarget ⊢
    omega
  calc value m e
      < 2 ^ totalExponent m e := (value_bounds h.pos e).2
    _ ≤ 2 ^ (totalExponent M E - 1) := zpow_le_zpow_right₀ one_le_two hle
    _ ≤ value M E := (value_bounds H.pos E).1

theorem compare_eq_lt_iff (h : Canonical spec m e) (H : Canonical spec M E) :
    (compare e E).then (compare m M) = .lt ↔ value m e < value M E := by
  rcases lt_trichotomy e E with hlt | rfl | hlt
  · rw [compare_lt_iff_lt.mpr hlt]
    exact iff_of_true rfl (value_lt_of_exponent_lt h H hlt)
  · rw [compare_eq_iff_eq.mpr rfl, Ordering.eq_then, compare_lt_iff_lt]
    exact ⟨fun hlt => value_strictMono hlt e, lt_of_value_lt⟩
  · rw [compare_gt_iff_gt.mpr hlt]
    exact iff_of_false nofun (not_lt.mpr (value_lt_of_exponent_lt H h hlt).le)

-- Double precision ends at a power of two.
theorem fits_iff (h : Canonical .binary64 m e) : Fits .binary64 e ↔ value m e < 2 ^ (1024 : Int) := by
  have hlog : m.log2 < 53 := h.log2_lt
  have htarget : max ((m.log2 : Int) + 1 + e - 53) (-1074) = e := h.target
  obtain ⟨hlow, hhigh⟩ := value_bounds h.pos e
  rw [totalExponent] at hlow hhigh
  constructor
  · intro hfits
    change e + 1023 + 52 + 1 < 2048 at hfits
    exact hhigh.trans_le (zpow_le_zpow_right₀ one_le_two (by omega))
  · intro hlt
    have := (zpow_lt_zpow_iff_right₀ (one_lt_two : (1 : ℚ) < 2)).mp (hlow.trans_lt hlt)
    change e + 1023 + 52 + 1 < 2048
    omega

end ParticleFx.Binary

namespace ParticleFx.Number

open Binary
open Float.Model (UnpackedFloat totalExponent)
open Float.Model.UnpackedFloat

variable {x y : Float} {m M : Nat} {e E : Int}

-- The mantissa and the exponent of a positive number.
structure Parts (x : Float) (m : Nat) (e : Int) : Prop where
  canonical : Canonical .binary64 m e
  fits : Fits .binary64 e
  unpacked : x.toModel.unpack = .finite .positive m e canonical.pos

theorem lt_iff_compare : x < y ↔ x.toModel.unpack.compare y.toModel.unpack = some .lt :=
  ⟨fun h => eq_of_beq (of_decide_eq_true h), fun h => decide_eq_true (beq_of_eq h)⟩

theorem exists_parts (hfinite : x.isFinite = true) (hpos : 0 < x) : ∃ m e, Parts x m e := by
  have hcompare : (UnpackedFloat.zero .positive).compare x.toModel.unpack = some .lt :=
    lt_iff_compare.mp hpos
  have hfinite : x.toModel.unpack.isFinite = true := hfinite
  cases hx : x.toModel.unpack with
  | notANumber =>
      rw [hx] at hfinite
      cases hfinite
  | infinity s =>
      rw [hx] at hfinite
      cases hfinite
  | zero s =>
      rw [hx] at hcompare
      cases hcompare
  | finite s m e hm =>
      cases s with
      | negative =>
          rw [hx] at hcompare
          cases hcompare
      | positive =>
          obtain ⟨hcanonical, hfits⟩ := canonical_of_unpack (by decide) hx
          exact ⟨m, e, hcanonical, hfits, hx⟩

-- The number with the given parts; infinite if double precision does not reach that far.
def ofParts (h : Canonical .binary64 m e) : Float :=
  ⟨Float.Model.pack (.finite .positive m e h.pos)⟩

theorem parts_ofParts (h : Canonical .binary64 m e) (hlt : value m e < 2 ^ (1024 : Int)) :
    Parts (ofParts h) m e :=
  ⟨h, (fits_iff h).mpr hlt, unpack_pack h ((fits_iff h).mpr hlt) .positive⟩

theorem unpack_ofParts (h : Canonical .binary64 m e) (hle : 2 ^ (1024 : Int) ≤ value m e) :
    (ofParts h).toModel.unpack = .infinity .positive :=
  unpack_pack_of_not_fits h (fun hfits => absurd ((fits_iff h).mp hfits) (not_lt.mpr hle)) .positive

theorem ofParts_pos (h : Canonical .binary64 m e) : 0 < ofParts h := by
  rw [lt_iff_compare]
  rcases lt_or_ge (value m e) (2 ^ (1024 : Int)) with hlt | hle
  · rw [(parts_ofParts h hlt).unpacked]
    rfl
  · rw [unpack_ofParts h hle]
    rfl

theorem isFinite_ofParts (h : Canonical .binary64 m e) :
    (ofParts h).isFinite = true ↔ value m e < 2 ^ (1024 : Int) := by
  change (ofParts h).toModel.unpack.isFinite = true ↔ _
  rcases lt_or_ge (value m e) (2 ^ (1024 : Int)) with hlt | hle
  · rw [(parts_ofParts h hlt).unpacked]
    exact iff_of_true rfl hlt
  · rw [unpack_ofParts h hle]
    exact iff_of_false nofun (not_lt.mpr hle)

namespace Parts

-- Positive numbers are ordered by their values.
theorem lt_iff (hx : Parts x m e) (hy : Parts y M E) : x < y ↔ value m e < value M E := by
  rw [← compare_eq_lt_iff hx.canonical hy.canonical, lt_iff_compare, hx.unpacked, hy.unpacked]
  exact Option.some_inj

-- A power of two within the reach of double precision.
theorem pow {k : Int} (hlow : -1074 ≤ k) (hhigh : k < 1024) :
    ∃ m e, Parts (toFloat ⟨false, 1, k⟩) m e ∧ value m e = 2 ^ k := by
  obtain ⟨m, e, hcanonical, hvalue, _, _⟩ :=
    @exists_canonical .binary64 1 k Nat.one_pos (by decide) hlow
  rw [value_one] at hvalue
  have hlt : value m e < 2 ^ (1024 : Int) := by
    rw [hvalue]
    exact zpow_lt_zpow_right₀ one_lt_two hhigh
  refine ⟨m, e, ?_, hvalue⟩
  rw [toFloat_eq (s := .positive) hcanonical ((fits_iff hcanonical).mpr hlt) rfl
    (by rw [hvalue, value_one]) (by dsimp only; omega)]
  exact parts_ofParts hcanonical hlt

-- The width of a range around zero is computed without rounding.
theorem exists_doubled (hx : Parts x m e) :
    ∃ M E, ∃ h : Canonical .binary64 M E, x - -x = ofParts h ∧ value M E = 2 * value m e := by
  have hlow : -1074 ≤ e := hx.canonical.minExponent_le
  obtain ⟨M, E, h, hvalue, _, _⟩ :=
    @exists_canonical .binary64 m (e + 1) hx.canonical.pos hx.canonical.log2_lt (by change -1074 ≤ _; omega)
  have hdouble : value (2 * m) e = value m (e + 1) := by
    rw [Nat.mul_comm, ← pow_one 2, value_shift, Nat.cast_one]
  have hneg : (-x).toModel.unpack = .finite .negative m e hx.canonical.pos := by
    change unpack .binary64 (UnpackedFloat.pack .binary64 x.toModel.unpack.neg) = _
    rw [hx.unpacked]
    exact unpack_pack hx.canonical hx.fits .negative
  have hsum : Sign.positive.apply m - Sign.negative.apply m = ((2 * m : Nat) : Int) := by
    simp only [Sign.apply]
    omega
  refine ⟨M, E, h, ?_, ?_⟩
  · have hpos := hx.canonical.pos
    have hsub : UnpackedFloat.sub .binary64 x.toModel.unpack (-x).toModel.unpack =
        .finite .positive M E h.pos := by
      rw [hx.unpacked, hneg]
      simp only [UnpackedFloat.sub, min_self, decreaseExponent, sub_self, Int.toNat_zero,
        Nat.shiftLeft_zero, hsum, UnpackedFloat.normalize, Int.toNat_natCast]
      rw [show compare ((2 * m : Nat) : Int) 0 = .gt from Int.compare_eq_gt.mpr (by omega)]
      exact round_exact h (by rw [hdouble, hvalue]) .positive
    exact congrArg (fun u => (⟨Float.Model.pack u⟩ : Float)) hsub
  · rw [hvalue, ← hdouble, value, value]
    push_cast
    ring

theorem one : Parts 1 (2 ^ 52) (-52) :=
  ⟨⟨by norm_num, by decide +kernel⟩, show (-52 : Int) + 1023 + 52 + 1 < 2048 by norm_num, by rfl⟩

-- The reciprocal is rounded; it goes past no number that double precision has, and past no power of
-- two.
theorem exists_reciprocal (hx : Parts x m e) :
    ∃ M E, ∃ h : Canonical .binary64 M E, 1 / x = ofParts h ∧
      (∀ g G, Canonical .binary64 g G → 1 < value g G * value m e → value M E ≤ value g G) ∧
      ∀ k : Int, 2 ^ k * value m e ≤ 1 → 2 ^ k ≤ value M E := by
  have hfits : e + 1023 + 52 + 1 < 2048 := hx.fits
  have hlog : m.log2 < 53 := hx.canonical.log2_lt
  have hmin : Float.Model.Format.binary64.minExponent <
      totalExponent (2 ^ 52) (-52) - totalExponent m e := by
    change (-1074 : Int) < (Nat.log2 (2 ^ 52) : Int) + 1 + -52 - (m.log2 + 1 + e)
    rw [Nat.log2_two_pow]
    omega
  obtain ⟨M, E, h, hdiv, habove, hbelow⟩ :=
    exists_quotient one.canonical.pos hx.canonical.pos hmin .positive .positive
  have hone : value (2 ^ 52) (-52) = 1 := by norm_num [value]
  rw [hone] at habove hbelow
  rw [← one.unpacked, ← hx.unpacked] at hdiv
  exact ⟨M, E, h, congrArg (fun u => (⟨Float.Model.pack u⟩ : Float)) hdiv, habove, hbelow⟩

end Parts

-- Half of a range is too much from the upper half of double precision on.
theorem isFinite_sub_neg_iff (hfinite : x.isFinite = true) (hpos : 0 < x) :
    (x - -x).isFinite = true ↔ x < toFloat ⟨false, 1, 1023⟩ := by
  obtain ⟨m, e, hx⟩ := exists_parts hfinite hpos
  obtain ⟨M, E, hcanonical, hdouble, hvalue⟩ := hx.exists_doubled
  obtain ⟨g, G, hpow, hlimit⟩ := Parts.pow (k := 1023) (by norm_num) (by norm_num)
  rw [hdouble, isFinite_ofParts, hx.lt_iff hpow, hvalue, hlimit,
    show (1024 : Int) = 1 + 1023 from rfl, zpow_add₀ two_ne_zero, zpow_one]
  exact mul_lt_mul_iff_right₀ two_pos

-- The largest number of double precision.
theorem canonical_largest : Canonical .binary64 (2 ^ 53 - 1) 971 :=
  ⟨by norm_num, by decide +kernel⟩

-- The largest number is more than the reciprocal of the second number after the first that is too slow.
theorem one_lt_largest_mul (h : -1074 ≤ e) (hlt : 2 ^ (-1024 : Int) < value m e) :
    1 < value (2 ^ 53 - 1) 971 * value m e := by
  obtain ⟨n, hn⟩ := exists_value_eq h m
  have hpow : (2 : ℚ) ^ (-1024 : Int) = value (2 ^ 50) (-1074) := by
    rw [← one_mul (2 ^ 50), value_shift, value_one]
    norm_num
  rw [← hn, hpow] at hlt
  have hbeyond : 2 ^ 50 + 1 ≤ n := lt_of_value_lt hlt
  rw [← hn, value_mul, show (1 : ℚ) = value (2 ^ 103) (971 + -1074) by norm_num [value]]
  apply value_strictMono
  calc 2 ^ 103 < (2 ^ 53 - 1) * (2 ^ 50 + 1) := by norm_num
    _ ≤ (2 ^ 53 - 1) * n := Nat.mul_le_mul_left _ hbeyond

theorem isFinite_reciprocal_iff (hfinite : x.isFinite = true) (hpos : 0 < x) :
    (1 / x).isFinite = true ↔ toFloat ⟨false, 1, -1024⟩ < x := by
  obtain ⟨m, e, hx⟩ := exists_parts hfinite hpos
  obtain ⟨M, E, h, hreciprocal, habove, hbelow⟩ := hx.exists_reciprocal
  obtain ⟨g, G, hpow, hlimit⟩ := Parts.pow (k := -1024) (by norm_num) (by norm_num)
  rw [hreciprocal, isFinite_ofParts, hpow.lt_iff hx, hlimit]
  constructor
  · intro hlt
    by_contra hle
    refine absurd (hbelow 1024 ?_) (not_le.mpr hlt)
    rw [not_lt, zpow_neg] at hle
    calc (2 : ℚ) ^ (1024 : Int) * value m e
        ≤ 2 ^ (1024 : Int) * (2 ^ (1024 : Int))⁻¹ := by gcongr
      _ = 1 := mul_inv_cancel₀ (by positivity)
  · intro hlt
    have hlargest : value (2 ^ 53 - 1) 971 < 2 ^ (1024 : Int) := by
      rw [show (1024 : Int) = 971 + (53 : Nat) from rfl, ← value_one, ← value_shift]
      exact value_strictMono (by norm_num) 971
    exact (habove _ _ canonical_largest (one_lt_largest_mul hx.canonical.minExponent_le hlt)).trans_lt
      hlargest

theorem reciprocal_pos (hfinite : x.isFinite = true) (hpos : 0 < x) : 0 < 1 / x := by
  obtain ⟨m, e, hx⟩ := exists_parts hfinite hpos
  obtain ⟨M, E, h, hreciprocal, _⟩ := hx.exists_reciprocal
  rw [hreciprocal]
  exact ofParts_pos h

theorem isNaN_of_isFinite (h : x.isFinite = true) : x.isNaN = false := by
  change x.toModel.unpack.isFinite = true at h
  change x.toModel.unpack.isNaN = false
  cases hx : x.toModel.unpack with
  | notANumber =>
      rw [hx] at h
      cases h
  | infinity _ | zero _ | finite _ _ _ _ => rfl

-- A finite number that is not at most zero is above it.
theorem pos_of_not_le (hfinite : x.isFinite = true) (h : ¬x ≤ 0) : 0 < x := by
  change x.toModel.unpack.isFinite = true at hfinite
  have hle : ¬(x.toModel.unpack.compare (.zero .positive)).any Ordering.isLE = true :=
    fun hle => h (decide_eq_true hle)
  have hlt : (UnpackedFloat.zero .positive).compare x.toModel.unpack = some .lt := by
    cases hx : x.toModel.unpack with
    | notANumber | infinity _ =>
        rw [hx] at hfinite
        cases hfinite
    | zero _ =>
        rw [hx] at hle
        exact absurd rfl hle
    | finite s _ _ _ =>
        cases s with
        | positive => rfl
        | negative =>
            rw [hx] at hle
            exact absurd rfl hle
  exact lt_iff_compare.mpr hlt

theorem Parts.lt_of_nonpos (hy : Parts y m e) (h : x ≤ 0) : x < y := by
  have hle : (x.toModel.unpack.compare (.zero .positive)).any Ordering.isLE = true :=
    of_decide_eq_true h
  rw [lt_iff_compare, hy.unpacked]
  cases hx : x.toModel.unpack with
  | notANumber =>
      rw [hx] at hle
      cases hle
  | zero _ => rfl
  | infinity s | finite s _ _ _ =>
      cases s with
      | negative => rfl
      | positive =>
          rw [hx] at hle
          cases hle

end ParticleFx.Number
