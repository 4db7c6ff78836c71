import Mathlib
import ParticleFx.Proofs.Number.Exactness

-- The library is imported whole because none of its parts brings along what it knows of packed floats.

namespace ParticleFx.Binary

open Float.Model (Format UnpackedFloat totalExponent)
open Float.Model.UnpackedFloat

variable {spec : Format} {m : Nat} {e : Int}

-- A mantissa of full length is its lower bits with a leading one in front.
theorem toNat_append_one {n : Nat} (v : BitVec n) : (1#1 ++ v).toNat = v.toNat + 2 ^ n := by
  have hor := Nat.two_pow_add_eq_or_of_lt v.isLt 1
  rw [BitVec.toNat_append, BitVec.toNat_ofNat, Nat.shiftLeft_eq, Nat.mul_comm]
  change 2 ^ n * 1 ||| v.toNat = _
  omega

theorem toNat_append_mantissa {n : Nat} (hm : 0 < m) (hlog : m.log2 = n) :
    (1#1 ++ BitVec.ofNat n m).toNat = m := by
  obtain ⟨hlow, hhigh⟩ := (Nat.log2_eq_iff (Nat.ne_of_gt hm)).mp hlog
  have hquotient : m / 2 ^ n = 1 := by
    rw [Nat.pow_succ] at hhigh
    exact Nat.div_eq_of_lt_le (by omega) (by omega)
  have hsplit := Nat.div_add_mod m (2 ^ n)
  rw [hquotient] at hsplit
  rw [toNat_append_one, BitVec.toNat_ofNat]
  omega

theorem bias_eq (spec : Format) :
    ((2 ^ (spec.exponentBits - 1) : Nat) : Int) - 1 = spec.exponentBias := by
  have := Nat.two_pow_pos (spec.exponentBits - 1)
  rw [Format.exponentBias]
  omega

theorem minExponent_eq (spec : Format) :
    1 - ((spec.exponentBias : Int) + spec.mantissaBitsWithoutImplicit) = spec.minExponent := by
  rw [← bias_eq, Format.minExponent, Format.mantissaBits]
  push_cast
  ring

theorem zero_ne_allOnes (spec : Format) :
    BitVec.ofNat spec.exponentBits 0 ≠ -BitVec.ofNat spec.exponentBits 1 := by
  rw [ne_eq, BitVec.zero_eq_neg_one_iff]
  exact Nat.ne_of_gt spec.he

-- Only the lowest exponent leaves places of the mantissa free.
theorem Canonical.eq_minExponent (h : Canonical spec m e)
    (hshort : m.log2 ≠ spec.mantissaBitsWithoutImplicit) : e = spec.minExponent := by
  have hlog := h.log2_lt
  have htarget := h.target
  simp only [Format.targetExponent, totalExponent] at htarget
  rw [Format.mantissaBits] at hlog htarget
  omega

-- The highest exponents stand for no number.
def Fits (spec : Format) (e : Int) : Prop :=
  e + spec.exponentBias + spec.mantissaBitsWithoutImplicit + 1 < 2 ^ spec.exponentBits

theorem unpack_pack_of_full (h : Canonical spec m e) (hfits : Fits spec e)
    (hlog : m.log2 = spec.mantissaBitsWithoutImplicit) (s : Sign) :
    unpack spec (UnpackedFloat.pack spec (.finite s m e h.pos)) = .finite s m e h.pos := by
  have hlow := h.minExponent_le
  rw [← minExponent_eq] at hlow
  obtain ⟨b, hb⟩ := Int.eq_ofNat_of_zero_le
    (show 0 ≤ e + spec.exponentBias + spec.mantissaBitsWithoutImplicit by omega)
  have hbelow : b + 1 < 2 ^ spec.exponentBits := by
    rw [Fits, hb] at hfits
    exact_mod_cast hfits
  have hfull : m.log2 + 1 = spec.mantissaBits := by rw [hlog, Format.mantissaBits, Nat.add_comm]
  have hpack : UnpackedFloat.pack spec (.finite s m e h.pos) =
      packComponents spec s (BitVec.ofNat _ b) (BitVec.ofNat _ m) := by
    simp only [UnpackedFloat.pack, hb, Int.toNat_natCast, hfull, if_true]
    rw [if_neg (by omega)]
  have hexponent : (BitVec.ofNat spec.exponentBits b).toNat = b := by
    rw [BitVec.toNat_ofNat, Nat.mod_eq_of_lt (by omega)]
  have hnonzero : BitVec.ofNat spec.exponentBits b ≠ 0#_ := by
    intro heq
    have := congrArg BitVec.toNat heq
    rw [hexponent, BitVec.toNat_zero] at this
    omega
  have hfinite : BitVec.ofNat spec.exponentBits b ≠ -1#_ := by
    intro heq
    have := congrArg BitVec.toNat heq
    rw [hexponent, BitVec.neg_one_eq_allOnes, BitVec.toNat_allOnes] at this
    omega
  simp only [hpack, unpack, unpackMantissa_packComponents, unpackExponent_packComponents,
    unpackSign_packComponents, Sign.ofBitVec_toBitVec, if_neg hfinite, if_neg hnonzero, hexponent,
    toNat_append_mantissa h.pos hlog]
  congr 1
  omega

theorem unpack_pack_of_short (h : Canonical spec m e) (hfits : Fits spec e)
    (hlog : m.log2 ≠ spec.mantissaBitsWithoutImplicit) (s : Sign) :
    unpack spec (UnpackedFloat.pack spec (.finite s m e h.pos)) = .finite s m e h.pos := by
  have hmin := h.eq_minExponent hlog
  have hlt := h.log2_lt
  have hshort : m.log2 + 1 ≠ spec.mantissaBits := by
    rw [Format.mantissaBits]
    omega
  have hmantissa : (BitVec.ofNat spec.mantissaBitsWithoutImplicit m).toNat = m := by
    rw [Format.mantissaBits] at hlt
    rw [BitVec.toNat_ofNat, Nat.mod_eq_of_lt]
    exact (Nat.log2_lt (Nat.ne_of_gt h.pos)).mp (by omega)
  have hnonzero : BitVec.ofNat spec.mantissaBitsWithoutImplicit m ≠ 0#_ := by
    intro heq
    have := congrArg BitVec.toNat heq
    rw [hmantissa, BitVec.toNat_zero] at this
    exact Nat.ne_of_gt h.pos this
  have hpack : UnpackedFloat.pack spec (.finite s m e h.pos) =
      packComponents spec s 0#_ (BitVec.ofNat _ m) := by
    have hbelow : ¬2 ^ spec.exponentBits ≤
        (e + spec.exponentBias + spec.mantissaBitsWithoutImplicit).toNat + 1 := by
      have hpow : ((2 ^ spec.exponentBits : Nat) : Int) = 2 ^ spec.exponentBits := by norm_cast
      rw [← minExponent_eq] at hmin
      rw [Fits] at hfits
      omega
    simp only [UnpackedFloat.pack, if_neg hbelow, if_neg hshort]
  simp only [hpack, unpack, unpackMantissa_packComponents, unpackExponent_packComponents,
    unpackSign_packComponents, Sign.ofBitVec_toBitVec, if_neg (zero_ne_allOnes spec), if_true,
    dif_neg hnonzero, hmantissa, BitVec.toNat_zero]
  congr 1
  rw [hmin, ← minExponent_eq]
  push_cast
  ring

-- The bits of a number that the format has give it back.
theorem unpack_pack (h : Canonical spec m e) (hfits : Fits spec e) (s : Sign) :
    unpack spec (UnpackedFloat.pack spec (.finite s m e h.pos)) = .finite s m e h.pos := by
  by_cases hlog : m.log2 = spec.mantissaBitsWithoutImplicit
  · exact unpack_pack_of_full h hfits hlog s
  · exact unpack_pack_of_short h hfits hlog s

-- The parts of a number that is finite.
def ofUnpacked? (spec : Format) : UnpackedFloat → Option Binary
  | .finite s m e _ => some ⟨s == .negative, m, e⟩
  | .zero s => some ⟨s == .negative, 0, spec.minExponent⟩
  | _ => none

theorem sign_eq_negative (v : BitVec 1) : (Sign.ofBitVec v == .negative) = decide (v.toNat = 1) := by
  decide +revert

-- The word of a number has the parts that the number is made of.
theorem ofWord?_eq (b : BitVec spec.numBits) :
    ofWord? spec.mantissaBitsWithoutImplicit spec.exponentBits b.toNat =
      ofUnpacked? spec (unpack spec b) := by
  have hmantissa : (unpackMantissa b).toNat = b.toNat % 2 ^ spec.mantissaBitsWithoutImplicit := by
    rw [unpackMantissa_def, BitVec.extractLsb'_toNat, Nat.shiftRight_zero]
  have hexponent : (unpackExponent b).toNat =
      (b.toNat >>> spec.mantissaBitsWithoutImplicit) % 2 ^ spec.exponentBits := by
    rw [unpackExponent_def, BitVec.extractLsb'_toNat]
  have hsign : (unpackSign b).toNat =
      (b.toNat >>> (spec.mantissaBitsWithoutImplicit + spec.exponentBits)) % 2 := by
    rw [unpackSign_def, BitVec.extractLsb'_toNat, pow_one]
  have hall : (unpackExponent b).toNat + 1 = 2 ^ spec.exponentBits ↔ unpackExponent b = -1#_ := by
    have := (unpackExponent b).isLt
    rw [← BitVec.toNat_inj, BitVec.neg_one_eq_allOnes, BitVec.toNat_allOnes]
    omega
  have hnone : (unpackExponent b).toNat = 0 ↔ unpackExponent b = 0#_ := by
    rw [← BitVec.toNat_inj, BitVec.toNat_zero]
  simp only [ofWord?, Nat.one_shiftLeft, ← hmantissa, ← hexponent, ← hsign, ← sign_eq_negative,
    hall, hnone, bias_eq, unpack]
  by_cases hinfinite : unpackExponent b = -1#_
  · rw [if_pos hinfinite, if_pos hinfinite]
    split <;> rfl
  rw [if_neg hinfinite, if_neg hinfinite]
  by_cases hzero : unpackExponent b = 0#_
  · rw [if_pos hzero, if_pos hzero]
    by_cases hm : unpackMantissa b = 0#_
    · rw [dif_pos hm, ofUnpacked?, hm, minExponent_eq]
      rfl
    · rw [dif_neg hm, ofUnpacked?, hzero, BitVec.toNat_zero, Nat.cast_zero, zero_sub, neg_add_eq_sub]
  · rw [if_neg hzero, if_neg hzero, ofUnpacked?, toNat_append_one]

-- A number that comes from its bits is as the format has it.
theorem canonical_of_unpack (hspec : 2 ≤ spec.exponentBits) {b : BitVec spec.numBits} {s : Sign}
    {hm : 0 < m} (h : unpack spec b = .finite s m e hm) : Canonical spec m e ∧ Fits spec e := by
  have hmin := minExponent_eq spec
  have hmantissa := (unpackMantissa b).isLt
  have hpow : ((2 ^ spec.exponentBits : Nat) : Int) = 2 ^ spec.exponentBits := by norm_cast
  simp only [unpack] at h
  by_cases hinfinite : unpackExponent b = -1#_
  · rw [if_pos hinfinite] at h
    split at h <;> cases h
  rw [if_neg hinfinite] at h
  by_cases hzero : unpackExponent b = 0#_
  · rw [if_pos hzero] at h
    split at h
    · cases h
    injection h with _ hm' he
    rw [hzero, BitVec.toNat_zero] at he
    have hlog : m.log2 < spec.mantissaBitsWithoutImplicit := by
      rw [← hm'] at hm ⊢
      exact (Nat.log2_lt (Nat.ne_of_gt hm)).mpr hmantissa
    have hfour : 2 ^ 2 ≤ 2 ^ spec.exponentBits := Nat.pow_le_pow_right (by omega) hspec
    refine ⟨⟨hm, ?_⟩, ?_⟩
    · simp only [Format.targetExponent, totalExponent, Format.mantissaBits]
      push_cast at he ⊢
      omega
    · rw [Fits]
      push_cast at he
      omega
  · rw [if_neg hzero] at h
    injection h with _ hm' he
    rw [toNat_append_one] at hm'
    have hlog : m.log2 = spec.mantissaBitsWithoutImplicit := by
      rw [Nat.log2_eq_iff (Nat.ne_of_gt hm), Nat.pow_succ]
      omega
    have hlow : 0 < (unpackExponent b).toNat := by
      apply Nat.pos_of_ne_zero
      rwa [← BitVec.toNat_zero, ne_eq, BitVec.toNat_inj]
    have hhigh : (unpackExponent b).toNat + 1 < 2 ^ spec.exponentBits := by
      have hlt := (unpackExponent b).isLt
      rw [← BitVec.toNat_inj, BitVec.neg_one_eq_allOnes, BitVec.toNat_allOnes] at hinfinite
      omega
    refine ⟨⟨hm, ?_⟩, ?_⟩
    · simp only [Format.targetExponent, totalExponent, Format.mantissaBits]
      push_cast
      omega
    · rw [Fits]
      omega

-- Halves to tenths.
theorem value_decimal (b : Binary) :
    value b.decimal.1 0 = value b.mantissa b.exponent * value (10 ^ b.decimal.2) 0 := by
  rw [decimal]
  split
  · rename_i hwhole
    rw [Nat.shiftLeft_eq, value_shift, pow_zero, zero_add, Int.toNat_of_nonneg hwhole]
    simp [value]
  · rename_i hbroken
    obtain ⟨k, hk⟩ : ∃ k : Nat, b.exponent = -k := ⟨(-b.exponent).toNat, by omega⟩
    have hten : (10 : ℚ) ^ k = 5 ^ k * 2 ^ k := by rw [← mul_pow]; norm_num
    rw [hk, neg_neg, Int.toNat_natCast, Nat.pow_eq]
    simp only [value, zpow_neg, zpow_natCast, zpow_zero, mul_one]
    push_cast
    rw [hten]
    field_simp

-- A short whole number is converted as it is.
theorem unpack_ofUInt64 {n : Nat} (hn : 0 < n) (hshort : n < 2 ^ 53) :
    ∃ m e, ∃ hm : 0 < m, n.toUInt64.toFloat.toModel.unpack = .finite .positive m e hm ∧
      value m e = value n 0 := by
  have hlog : n.log2 < 53 := (Nat.log2_lt (Nat.ne_of_gt hn)).mpr hshort
  obtain ⟨m, e, hcanonical, hvalue, hle, _⟩ :=
    @exists_canonical .binary64 n 0 hn hlog (by decide)
  have hfits : Fits .binary64 e := by
    rw [Fits]
    change e + 1023 + 52 + 1 < 2048
    omega
  have hnat : n.toUInt64.toNat = n := by
    rw [Nat.toUInt64_eq, UInt64.toNat_ofNat', Nat.mod_eq_of_lt (by omega)]
  refine ⟨m, e, hcanonical.pos, ?_, hvalue⟩
  have hnormalize : ofUInt64 .binary64 n.toUInt64 = .finite .positive m e hcanonical.pos := by
    rw [ofUInt64, UnpackedFloat.ofNat, UnpackedFloat.ofInt, UnpackedFloat.normalize, hnat,
      show compare (n : Int) 0 = .gt from Int.compare_eq_gt.mpr (by omega)]
    exact round_exact hcanonical hvalue.symm .positive
  change unpack .binary64 (UnpackedFloat.pack .binary64 (ofUInt64 .binary64 n.toUInt64)) = _
  rw [hnormalize, unpack_pack hcanonical hfits .positive]

-- The number stands for the power of ten.
def isTenTo (k : Nat) : UnpackedFloat → Bool
  | .finite .positive m e _ => m * 2 ^ e.toNat == 10 ^ k * 2 ^ (-e).toNat
  | _ => false

theorem value_of_isTenTo {k : Nat} {u : UnpackedFloat} (h : isTenTo k u = true) :
    ∃ m e, ∃ hm : 0 < m, u = .finite .positive m e hm ∧ value m e = value (10 ^ k) 0 := by
  cases u with
  | infinity s => cases h
  | notANumber => cases h
  | zero s => cases h
  | finite s m e hm => cases s with
    | negative => cases h
    | positive =>
        refine ⟨m, e, hm, rfl, ?_⟩
        have heq : m * 2 ^ e.toNat = 10 ^ k * 2 ^ (-e).toNat := eq_of_beq h
        have hvalue : value (m * 2 ^ e.toNat) (-(-e).toNat) =
            value (10 ^ k * 2 ^ (-e).toNat) (-(-e).toNat) := by rw [heq]
        rw [value_shift, value_shift] at hvalue
        convert hvalue using 2
        · omega
        · omega

theorem isTenTo_table : ∀ k : Fin 23,
    isTenTo k (Float.exactlyRepresentablePowersOfTen[k.val]).toModel.unpack = true := by
  decide +kernel

-- A short number is divided by a power of ten from the table; any other is divided at once.
theorem float_ofScientific (h : Canonical .binary64 m e) {n k : Nat} (hn : 0 < n)
    (hvalue : value n 0 = value m e * value (10 ^ k) 0) (hk : k ≤ 2 ^ 11) :
    Float.ofScientific n true k = ⟨Float.Model.pack (.finite .positive m e h.pos)⟩ := by
  unfold Float.ofScientific
  split
  · rename_i hfast
    obtain ⟨m₁, e₁, hm₁, hnumber, hvalue₁⟩ := unpack_ofUInt64 hn hfast.1
    obtain ⟨m₂, e₂, hm₂, htable, hvalue₂⟩ :=
      value_of_isTenTo (isTenTo_table ⟨k, Nat.lt_succ_of_le hfast.2⟩)
    have hdiv := div_exact hm₁ hm₂ h (by rw [hvalue₁, hvalue₂, hvalue]) .positive .positive
    rw [← hnumber, ← htable] at hdiv
    exact congrArg (fun u => (⟨Float.Model.pack u⟩ : Float)) hdiv
  · have hexact := ofScientific_exact h hn hvalue hk
    exact congrArg (fun u => (⟨Float.Model.pack u⟩ : Float)) hexact

-- A number as long as that is not looked up in the shorter table of single precision.
theorem float32_ofScientific (h : Canonical .binary32 m e) {n k : Nat} (hn : 2 ^ 23 ≤ n)
    (hvalue : value n 0 = value m e * value (10 ^ k) 0) (hk : k ≤ 2 ^ 8) :
    Float32.ofScientific n true k = ⟨Float32.Model.pack (.finite .positive m e h.pos)⟩ := by
  have hexact := ofScientific_exact h (by omega) hvalue hk
  unfold Float32.ofScientific
  rw [dif_neg (by omega)]
  exact congrArg (fun u => (⟨Float32.Model.pack u⟩ : Float32)) hexact

theorem neg_pack (h : Canonical .binary64 m e) (hfits : Fits .binary64 e) :
    -(⟨Float.Model.pack (.finite .positive m e h.pos)⟩ : Float) =
      ⟨Float.Model.pack (.finite .negative m e h.pos)⟩ :=
  congrArg (fun u : UnpackedFloat => (⟨Float.Model.pack u.neg⟩ : Float))
    (unpack_pack h hfits .positive)

theorem neg_pack32 (h : Canonical .binary32 m e) (hfits : Fits .binary32 e) :
    -(⟨Float32.Model.pack (.finite .positive m e h.pos)⟩ : Float32) =
      ⟨Float32.Model.pack (.finite .negative m e h.pos)⟩ :=
  congrArg (fun u : UnpackedFloat => (⟨Float32.Model.pack u.neg⟩ : Float32))
    (unpack_pack h hfits .positive)

theorem mantissa_le_decimal (b : Binary) : b.mantissa ≤ b.decimal.1 := by
  rw [decimal]
  split
  · dsimp only
    rw [Nat.shiftLeft_eq]
    exact Nat.le_mul_of_pos_right _ (Nat.two_pow_pos _)
  · exact Nat.le_mul_of_pos_right _ (Nat.pow_pos (by omega))

theorem decimal_le {b : Binary} {bound : Nat} (h : -(bound : Int) ≤ b.exponent) :
    b.decimal.2 ≤ bound := by
  rw [decimal]
  split
  · exact Nat.zero_le _
  · dsimp only
    omega

theorem toFloat_eq (h : Canonical .binary64 m e) (hfits : Fits .binary64 e) {b : Binary} {s : Sign}
    (hsign : b.negative = (s == .negative)) (hvalue : value b.mantissa b.exponent = value m e)
    (hexponent : -2048 ≤ b.exponent) :
    b.toFloat = ⟨Float.Model.pack (.finite s m e h.pos)⟩ := by
  have hpos := (pos_of_value_eq h.pos hvalue).trans_le b.mantissa_le_decimal
  have hdecimal := value_decimal b
  rw [hvalue] at hdecimal
  simp only [toFloat, float_ofScientific h hpos hdecimal (decimal_le hexponent), hsign]
  cases s with
  | negative => exact neg_pack h hfits
  | positive => rfl

theorem toFloat32_eq (h : Canonical .binary32 m e) (hfits : Fits .binary32 e) {b : Binary} {s : Sign}
    (hsign : b.negative = (s == .negative)) (hvalue : value b.mantissa b.exponent = value m e)
    (hexponent : -256 ≤ b.exponent) (hlong : 2 ^ 23 ≤ b.mantissa) :
    b.toFloat32 = ⟨Float32.Model.pack (.finite s m e h.pos)⟩ := by
  have hdecimal := value_decimal b
  rw [hvalue] at hdecimal
  simp only [toFloat32, float32_ofScientific h (hlong.trans b.mantissa_le_decimal) hdecimal
    (decimal_le hexponent), hsign]
  cases s with
  | negative => exact neg_pack32 h hfits
  | positive => rfl

-- A number of single precision has a mantissa of full length in double precision.
theorem exists_widened (h : Canonical .binary32 m e) (hfits : Fits .binary32 e) :
    ∃ m' e', Canonical .binary64 m' e' ∧ Fits .binary64 e' ∧ value m' e' = value m e ∧
      2 ^ 52 ≤ m' ∧ -256 ≤ e' := by
  have hlog : m.log2 < 24 := h.log2_lt
  have hlow : -149 ≤ e := h.minExponent_le
  have hhigh : e + 127 + 23 + 1 < 256 := hfits
  obtain ⟨m', e', hcanonical, hvalue, hle, htarget⟩ :=
    @exists_canonical .binary64 m e h.pos (show m.log2 < 53 by omega) (show -1074 ≤ e by omega)
  have htotal := totalExponent_congr hcanonical.pos h.pos hvalue
  change e' = max (m.log2 + 1 + e - 53) (-1074) at htarget
  change (m'.log2 : Int) + 1 + e' = m.log2 + 1 + e at htotal
  refine ⟨m', e', hcanonical, ?_, hvalue, ?_, by omega⟩
  · change e' + 1023 + 52 + 1 < 2048
    omega
  · rw [← Nat.le_log2 (Nat.ne_of_gt hcanonical.pos)]
    omega

end ParticleFx.Binary

namespace ParticleFx

open Binary

-- Nothing is lost on the way to double precision and back.
theorem narrow_widen {x : Float32} (hx : x.isFinite = true) : narrow (widen x) = x := by
  have hx' : (⟨Float32.Model.pack x.toModel.unpack⟩ : Float32) = x := Float32.ofBits_toBits x
  have hparts : ofFloat32? x = ofUnpacked? .binary32 x.toModel.unpack :=
    @ofWord?_eq .binary32 x.toBits.toBitVec
  have hfinite : x.toModel.unpack.isFinite = true := hx
  rw [widen, hparts]
  cases hu : x.toModel.unpack with
  | infinity s =>
      rw [hu] at hfinite
      cases hfinite
  | notANumber =>
      rw [hu] at hfinite
      cases hfinite
  | zero s =>
      rw [← hx', hu]
      cases s <;> decide +kernel
  | finite s m e hm =>
      obtain ⟨hcanonical, hfits⟩ := canonical_of_unpack (by decide) hu
      obtain ⟨m', e', hcanonical', hfits', hvalue, hlong, hexponent⟩ := exists_widened hcanonical hfits
      have hlow : -149 ≤ e := hcanonical.minExponent_le
      have hwide : toFloat ⟨s == .negative, m, e⟩ =
          ⟨Float.Model.pack (.finite s m' e' hcanonical'.pos)⟩ :=
        toFloat_eq hcanonical' hfits' rfl hvalue.symm (by dsimp only; omega)
      have hback : ofFloat? ⟨Float.Model.pack (.finite s m' e' hcanonical'.pos)⟩ =
          some ⟨s == .negative, m', e'⟩ := by
        have hword := @ofWord?_eq .binary64
          (Float.Model.UnpackedFloat.pack .binary64 (.finite s m' e' hcanonical'.pos))
        rw [unpack_pack hcanonical' hfits' s] at hword
        exact hword
      rw [← hx', hu]
      simp only [ofUnpacked?, hwide, narrow, hback]
      exact toFloat32_eq hcanonical hfits rfl hvalue hexponent (by dsimp only; omega)

end ParticleFx
