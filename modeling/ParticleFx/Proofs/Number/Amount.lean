import ParticleFx.Number.Rounding
import ParticleFx.Proofs.Number.Accuracy
import ParticleFx.Proofs.Number.Order

namespace ParticleFx.Number

open Binary
open Float.Model (Format UnpackedFloat totalExponent)
open Float.Model.UnpackedFloat

variable {x y : Float} {m M : Nat} {e E t : Int} {s : Sign}

-- What a finite number stands for, up to its sign.
def amount (x : Float) : ℚ :=
  match x.toModel.unpack with
  | .finite _ m e _ => value m e
  | _ => 0

-- A number that is finite and not negative.
inductive IsAmount (x : Float) : Prop where
  | zero (s : Sign) (h : x.toModel.unpack = .zero s)
  | parts (m : Nat) (e : Int) (h : Parts x m e)

theorem Parts.amount_eq (h : Parts x m e) : amount x = value m e := by
  rw [amount, h.unpacked]

theorem amount_eq_zero (h : x.toModel.unpack = .zero s) : amount x = 0 := by
  rw [amount, h]

theorem amount_nonneg (x : Float) : 0 ≤ amount x := by
  unfold amount
  split
  · exact (value_pos ‹_› _).le
  · exact le_rfl

theorem unpack_pack_zero (s : Sign) : unpack .binary64 (UnpackedFloat.pack .binary64 (.zero s)) = .zero s := by
  cases s <;> rfl

theorem pack_unpack (x : Float) : (⟨Float.Model.pack x.toModel.unpack⟩ : Float) = x :=
  Float.ofBits_toBits x

theorem add_eq (x y : Float) :
    x + y = ⟨Float.Model.pack (UnpackedFloat.add .binary64 x.toModel.unpack y.toModel.unpack)⟩ := rfl

-- Both parts of a sum are counted in steps of the finer one.
theorem value_aligned (m M : Nat) (e E : Int) :
    value (m <<< (e - min e E).toNat + M <<< (E - min e E).toNat) (min e E) = value m e + value M E := by
  rw [Nat.shiftLeft_eq, Nat.shiftLeft_eq, value, Nat.cast_add, add_mul]
  change value _ _ + value _ _ = _
  rw [value_shift, value_shift]
  congr 2 <;> omega

theorem Parts.exists_add (hx : Parts x m e) (hy : Parts y M E) (hlow : -1021 ≤ t) (hhigh : t ≤ 1023)
    (hlt : value m e + value M E < 2 ^ t) :
    ∃ n F, Parts (x + y) n F ∧ value m e ≤ value n F ∧ value M E ≤ value n F ∧
      |value n F - (value m e + value M E)| ≤ 2 ^ (t - 53) ∧
      ∀ g G, Canonical .binary64 g G → value m e + value M E = value g G → value n F = value g G := by
  have hm := hx.canonical.pos
  have hM := hy.canonical.pos
  have hleft := value_pos hm e
  have hright := value_pos hM E
  have hvalue := value_aligned m M e E
  generalize hn : m <<< (e - min e E).toNat + M <<< (E - min e E).toNat = n at hvalue
  have hpos : 0 < n := by
    rw [← hn, Nat.shiftLeft_eq]
    positivity
  have hmin : Format.binary64.minExponent ≤ min e E :=
    le_min hx.canonical.minExponent_le hy.canonical.minExponent_le
  obtain ⟨n', F, h, hround, hnearby⟩ := exists_round hpos hmin .positive
  have hsum : UnpackedFloat.add .binary64 x.toModel.unpack y.toModel.unpack = .finite .positive n' F h.pos := by
    have hcast : ((m <<< (e - min e E).toNat : Nat) : Int) + (M <<< (E - min e E).toNat : Nat) = n := by
      exact_mod_cast hn
    rw [hx.unpacked, hy.unpacked]
    simp only [UnpackedFloat.add, decreaseExponent, Sign.apply, hcast, UnpackedFloat.normalize,
      Int.toNat_natCast]
    rw [show compare (n : Int) 0 = .gt from Int.compare_eq_gt.mpr (by omega)]
    exact hround
  have herror : |value n' F - (value m e + value M E)| ≤ 2 ^ (t - 53) := by
    rw [← hvalue]
    refine hnearby.abs_sub_le.trans (zpow_le_zpow_right₀ one_le_two ?_)
    have htotal := totalExponent_le_of_lt hpos (hvalue.trans_lt hlt)
    change max (totalExponent n (min e E) - 53) (-1074) ≤ t - 53
    omega
  have hreach : value n' F < 2 ^ (1024 : Int) := by
    have habove := (abs_sub_le_iff.mp herror).1
    have hpow : (2 : ℚ) ^ (t - 53) ≤ 2 ^ (1023 : Int) := zpow_le_zpow_right₀ one_le_two (by omega)
    have hpow' : (2 : ℚ) ^ t ≤ 2 ^ (1023 : Int) := zpow_le_zpow_right₀ one_le_two hhigh
    rw [show (1024 : Int) = 1 + 1023 from rfl, zpow_add₀ two_ne_zero, zpow_one]
    linarith
  refine ⟨n', F, ?_, hnearby.ge hpos hx.canonical (by linarith), hnearby.ge hpos hy.canonical (by linarith),
    herror, fun g G hg hexact => ?_⟩
  · rw [add_eq, hsum]
    exact parts_ofParts h hreach
  · rw [round_exact hg (hvalue.trans hexact) .positive] at hround
    injection hround with _ hmantissa hexponent
    rw [hmantissa, hexponent]

theorem Parts.zero_add (hy : Parts y M E) (hx : x.toModel.unpack = .zero s) : x + y = y := by
  rw [add_eq, hx, hy.unpacked]
  change (⟨Float.Model.pack (.finite .positive M E hy.canonical.pos)⟩ : Float) = y
  rw [← hy.unpacked, pack_unpack]

theorem Parts.add_zero (hx : Parts x m e) (hy : y.toModel.unpack = .zero s) : x + y = x := by
  rw [add_eq, hy, hx.unpacked]
  change (⟨Float.Model.pack (.finite .positive m e hx.canonical.pos)⟩ : Float) = x
  rw [← hx.unpacked, pack_unpack]

-- A sum is rounded to the places that it has, and is not less than what is added.
theorem IsAmount.add (hx : IsAmount x) (hy : IsAmount y) (hlow : -1021 ≤ t) (hhigh : t ≤ 1023)
    (hlt : amount x + amount y < 2 ^ t) :
    IsAmount (x + y) ∧ amount x ≤ amount (x + y) ∧ amount y ≤ amount (x + y) ∧
      |amount (x + y) - (amount x + amount y)| ≤ 2 ^ (t - 53) := by
  have herror : (0 : ℚ) ≤ 2 ^ (t - 53) := by positivity
  cases hx with
  | zero s hzero =>
      have hsame : IsAmount (x + y) ∧ amount (x + y) = amount y := by
        cases hy with
        | zero s' hzero' =>
            have hsum : ∃ s'', (x + y).toModel.unpack = .zero s'' := by
              rw [add_eq, hzero, hzero']
              cases s <;> cases s' <;> exact ⟨_, rfl⟩
            obtain ⟨s'', hsum⟩ := hsum
            exact ⟨.zero s'' hsum, by rw [amount_eq_zero hsum, amount_eq_zero hzero']⟩
        | parts M E hy =>
            rw [hy.zero_add hzero]
            exact ⟨.parts M E hy, rfl⟩
      rw [hsame.2, amount_eq_zero hzero, zero_add, sub_self, abs_zero]
      exact ⟨hsame.1, amount_nonneg y, le_rfl, herror⟩
  | parts m e hx =>
      cases hy with
      | zero s hzero =>
          rw [hx.add_zero hzero, amount_eq_zero hzero, add_zero, sub_self, abs_zero]
          exact ⟨.parts m e hx, le_rfl, amount_nonneg x, herror⟩
      | parts M E hy =>
          rw [hx.amount_eq, hy.amount_eq] at hlt ⊢
          obtain ⟨n, F, hsum, hleft, hright, herror, _⟩ := hx.exists_add hy hlow hhigh hlt
          rw [hsum.amount_eq]
          exact ⟨.parts n F hsum, hleft, hright, herror⟩

-- Adding up keeps every part, and each sum on the way is rounded a little.
theorem amount_foldl_add (xs : List Float) {start : Float} (hstart : IsAmount start)
    (hxs : ∀ x ∈ xs, IsAmount x ∧ amount x ≤ 1) (hlow : 0 ≤ t) (hhigh : t ≤ 53)
    (hlt : amount start + 2 * xs.length < 2 ^ t) :
    IsAmount (xs.foldl (· + ·) start) ∧ amount start ≤ amount (xs.foldl (· + ·) start) ∧
      (∀ x ∈ xs, amount x ≤ amount (xs.foldl (· + ·) start)) ∧
      |amount (xs.foldl (· + ·) start) - (amount start + (xs.map amount).sum)| ≤
        xs.length * 2 ^ (t - 53) := by
  induction xs generalizing start with
  | nil => simpa using hstart
  | cons x rest ih =>
      obtain ⟨⟨hx, hone⟩, hrest⟩ := List.forall_mem_cons.mp hxs
      rw [List.length_cons, Nat.cast_add, Nat.cast_one] at hlt
      have hlength : (0 : ℚ) ≤ rest.length := Nat.cast_nonneg _
      obtain ⟨hsum, hleft, hright, herror⟩ := hstart.add hx (t := t) (by omega) (by omega) (by linarith)
      have hunit : (2 : ℚ) ^ (t - 53) ≤ 1 := zpow_le_one_of_nonpos₀ one_le_two (by omega)
      obtain ⟨hfold, hkept, hparts, htotal⟩ := ih hsum hrest (by
        have := (abs_sub_le_iff.mp herror).1
        linarith)
      rw [List.foldl_cons, List.map_cons, List.sum_cons, List.length_cons]
      refine ⟨hfold, hleft.trans hkept, List.forall_mem_cons.mpr ⟨hright.trans hkept, hparts⟩, ?_⟩
      rw [abs_sub_le_iff] at herror htotal ⊢
      push_cast
      constructor <;> linarith

-- A share is rounded to the places that numbers up to one have.
theorem IsAmount.div (hx : IsAmount x) (hy : IsAmount y) (hpos : 0 < amount y) (hle : amount x ≤ amount y) :
    IsAmount (x / y) ∧ amount (x / y) ≤ amount x / amount y + 2 ^ (-52 : Int) := by
  have hquotient : x / y =
      ⟨Float.Model.pack (UnpackedFloat.div .binary64 x.toModel.unpack y.toModel.unpack)⟩ := rfl
  have hzero_case (s : Sign) (h : (x / y).toModel.unpack = .zero s) :
      IsAmount (x / y) ∧ amount (x / y) ≤ amount x / amount y + 2 ^ (-52 : Int) := by
    refine ⟨.zero s h, ?_⟩
    rw [amount_eq_zero h]
    have := div_nonneg (amount_nonneg x) hpos.le
    positivity
  cases hy with
  | zero s hzero =>
      rw [amount_eq_zero hzero] at hpos
      exact absurd hpos (lt_irrefl 0)
  | parts M E hy =>
      cases hx with
      | zero s hzero =>
          apply hzero_case (s / .positive)
          rw [hquotient, hzero, hy.unpacked]
          exact unpack_pack_zero _
      | parts m e hx =>
          rw [hx.amount_eq, hy.amount_eq] at hle
          have hle' : value m e ≤ 2 ^ (0 : Int) * value M E := by rwa [zpow_zero, one_mul]
          rcases div_cases hx.canonical.pos hy.canonical.pos .positive .positive with
            hzero | ⟨n, F, h, hdiv, hshare⟩
          · apply hzero_case (.positive / .positive)
            rw [hquotient, hx.unpacked, hy.unpacked, hzero]
            exact unpack_pack_zero _
          · have hshare : value n F ≤ value m e / value M E + 2 ^ (-52 : Int) :=
              hshare 0 (by norm_num) hle'
            have hone := (div_le_one (value_pos hy.canonical.pos E)).mpr hle
            have hreach : value n F < 2 ^ (1024 : Int) := by
              calc value n F ≤ 1 + 2 ^ (-52 : Int) := hshare.trans (by gcongr)
                _ ≤ 2 ^ (1 : Int) := by norm_num
                _ < 2 ^ (1024 : Int) := zpow_lt_zpow_right₀ one_lt_two (by norm_num)
            have hparts : Parts (x / y) n F := by
              rw [hquotient, hx.unpacked, hy.unpacked, hdiv]
              exact parts_ofParts h hreach
            rw [hparts.amount_eq, hx.amount_eq, hy.amount_eq]
            exact ⟨.parts n F hparts, hshare⟩

theorem parts_65536 : Parts 65536 (2 ^ 52) (-36) :=
  ⟨⟨by norm_num, by decide +kernel⟩, show (-36 : Int) + 1023 + 52 + 1 < 2048 by norm_num, by rfl⟩

-- Moving the point is exact.
theorem IsAmount.scale (hx : IsAmount x) (hle : amount x ≤ 2) :
    IsAmount (x * 65536) ∧ amount (x * 65536) = 65536 * amount x := by
  have hproduct : x * 65536 = ⟨Float.Model.pack
      (UnpackedFloat.mul .binary64 x.toModel.unpack (65536 : Float).toModel.unpack)⟩ := rfl
  rw [parts_65536.unpacked] at hproduct
  cases hx with
  | zero s hzero =>
      have h : (x * 65536).toModel.unpack = .zero (s * .positive) := by
        rw [hproduct, hzero]
        exact unpack_pack_zero _
      rw [amount_eq_zero h, amount_eq_zero hzero, mul_zero]
      exact ⟨.zero _ h, rfl⟩
  | parts m e hx =>
      have hmin : -1074 ≤ e := hx.canonical.minExponent_le
      have hlog : m.log2 < 53 := hx.canonical.log2_lt
      obtain ⟨n, F, h, hvalue, _, htarget⟩ :=
        @exists_canonical .binary64 m (e + 16) hx.canonical.pos hlog (by change -1074 ≤ _; omega)
      have hshift : value (m * 2 ^ 52) (e + -36) = value n F := by
        rw [hvalue, value_shift]
        congr 1
        omega
      have hscaled : value n F = 65536 * value m e := by
        rw [hvalue, value, value, zpow_add₀ two_ne_zero]
        norm_num
        ring
      have hparts : Parts (x * 65536) n F := by
        have hplace : e + -36 ≤ F := by
          change F = max ((m.log2 : Int) + 1 + (e + 16) - 53) (-1074) at htarget
          omega
        rw [hproduct, hx.unpacked]
        simp only [UnpackedFloat.mul, roundWithAccuracy_exact h hshift hplace]
        apply parts_ofParts h
        rw [hx.amount_eq] at hle
        rw [hscaled]
        calc 65536 * value m e ≤ 65536 * 2 := by gcongr
          _ = 2 ^ (17 : Int) := by norm_num
          _ < 2 ^ (1024 : Int) := zpow_lt_zpow_right₀ one_lt_two (by norm_num)
      rw [hparts.amount_eq, hx.amount_eq]
      exact ⟨.parts n F hparts, hscaled⟩

theorem ofFloat?_eq (x : Float) : ofFloat? x = ofUnpacked? .binary64 x.toModel.unpack :=
  @ofWord?_eq .binary64 x.toBits.toBitVec

theorem IsAmount.ofFloat? (hx : IsAmount x) :
    ∃ b, Binary.ofFloat? x = some b ∧ amount x = value b.mantissa b.exponent := by
  rw [ofFloat?_eq]
  cases hx with
  | zero s h =>
      rw [amount_eq_zero h, h]
      exact ⟨_, rfl, by simp [value]⟩
  | parts m e h =>
      rw [h.amount_eq, h.unpacked]
      exact ⟨_, rfl, rfl⟩

theorem nearest_le (b : Binary) : (b.nearest : ℚ) ≤ value b.mantissa b.exponent + 1 / 2 := by
  rw [Binary.nearest]
  split
  · rename_i hwhole
    rw [Nat.shiftLeft_eq]
    obtain ⟨k, hk⟩ := Int.eq_ofNat_of_zero_le hwhole
    rw [hk, Int.toNat_natCast, value, zpow_natCast]
    push_cast
    linarith
  · rename_i hbroken
    obtain ⟨k, hk⟩ : ∃ k : Nat, b.exponent = -(k + 1 : Nat) := ⟨(-b.exponent).toNat - 1, by omega⟩
    rw [hk, neg_neg, Int.toNat_natCast, Nat.add_sub_cancel, Nat.shiftRight_eq_div_pow, Nat.one_shiftLeft,
      value, zpow_neg, zpow_natCast]
    calc (((b.mantissa + 2 ^ k) / 2 ^ (k + 1) : Nat) : ℚ)
        ≤ (b.mantissa + 2 ^ k : Nat) / (2 ^ (k + 1) : Nat) := Nat.cast_div_le
      _ = b.mantissa * (2 ^ (k + 1))⁻¹ + 1 / 2 := by
          push_cast
          field_simp
          ring

-- A whole number is rounded up by a half at most.
theorem IsAmount.roundWithin_le (hx : IsAmount x) (limit : Nat) :
    (roundWithin limit x : ℚ) ≤ amount x + 1 / 2 := by
  obtain ⟨b, hb, hvalue⟩ := hx.ofFloat?
  rw [roundWithin, hb, hvalue]
  dsimp only
  split
  · rw [Nat.cast_zero, ← hvalue]
    have := amount_nonneg x
    positivity
  · exact (Nat.cast_le.mpr (Nat.min_le_left _ _)).trans (nearest_le b)

theorem roundWithin_le_limit (limit : Nat) (x : Float) : roundWithin limit x ≤ limit := by
  rw [roundWithin]
  split
  · split
    · exact Nat.zero_le limit
    · exact Nat.min_le_right _ _
  · split
    · exact Nat.le_refl limit
    · exact Nat.zero_le limit

-- From one on, a number has all its places.
theorem IsAmount.isNormal (hx : IsAmount x) (hone : 1 ≤ amount x) : isNormal x = true := by
  cases hx with
  | zero s h =>
      rw [amount_eq_zero h] at hone
      exact absurd hone (by norm_num)
  | parts m e h =>
      have htotal : 0 < totalExponent m e := by
        apply lt_totalExponent h.canonical.pos
        rw [zpow_zero, ← h.amount_eq]
        exact hone
      have htarget : max (totalExponent m e - 53) (-1074) = e := h.canonical.target
      have hlog : 52 ≤ m.log2 := by
        rw [totalExponent] at htarget htotal
        omega
      rw [ParticleFx.isNormal, ofFloat?_eq, h.unpacked]
      exact decide_eq_true ((Nat.le_log2 (Nat.ne_of_gt h.canonical.pos)).mp hlog)

theorem IsAmount.of_le_one (h0 : 0 ≤ x) (h1 : x ≤ 1) : IsAmount x ∧ amount x ≤ 1 := by
  have hlow := le_iff_compare.mp h0
  change ((UnpackedFloat.zero .positive).compare x.toModel.unpack).any Ordering.isLE = true at hlow
  have hhigh := le_iff_compare.mp h1
  rw [Parts.one.unpacked] at hhigh
  cases hx : x.toModel.unpack with
  | notANumber =>
      rw [hx] at hlow
      cases hlow
  | infinity s =>
      rw [hx] at hlow hhigh
      cases s with
      | negative => cases hlow
      | positive => cases hhigh
  | zero s =>
      rw [amount_eq_zero hx]
      exact ⟨.zero s hx, zero_le_one⟩
  | finite s m e hm =>
      cases s with
      | negative =>
          rw [hx] at hlow
          cases hlow
      | positive =>
          obtain ⟨hcanonical, hfits⟩ := canonical_of_unpack (by decide) hx
          have hparts : Parts x m e := ⟨hcanonical, hfits, hx⟩
          rw [hparts.amount_eq]
          refine ⟨.parts m e hparts, ((hparts.le_iff Parts.one).mp h1).trans_eq ?_⟩
          norm_num [value]

theorem IsAmount.le_one (hx : IsAmount x) (hle : amount x ≤ 1) : 0 ≤ x ∧ x ≤ 1 := by
  rw [le_iff_compare]
  change ((UnpackedFloat.zero .positive).compare x.toModel.unpack).any Ordering.isLE = true ∧ _
  cases hx with
  | zero s h =>
      rw [le_iff_compare, h, Parts.one.unpacked]
      exact ⟨rfl, rfl⟩
  | parts m e h =>
      rw [h.amount_eq] at hle
      rw [h.le_iff Parts.one, h.unpacked]
      exact ⟨rfl, hle.trans_eq (by norm_num [value])⟩

-- A product of two numbers with all their places has all its places too.
theorem Parts.exists_mul (hx : Parts x m e) (hy : Parts y M E) (hm : 2 ^ 52 ≤ m) (hM : 2 ^ 52 ≤ M)
    (hlow : -1074 ≤ e + E) (hhigh : value m e * value M E < 2 ^ (1022 : Int)) :
    ∃ n F, Parts (x * y) n F ∧ 2 ^ 52 ≤ n ∧ e + E ≤ F ∧ value n F ≤ 2 * (value m e * value M E) := by
  have hpos : 0 < m * M := Nat.mul_pos hx.canonical.pos hy.canonical.pos
  have hlog : 104 ≤ (m * M).log2 := by
    rw [Nat.le_log2 (Nat.ne_of_gt hpos), show 104 = 52 + 52 from rfl, Nat.pow_add]
    exact Nat.mul_le_mul hm hM
  have hmin : Format.binary64.minExponent < totalExponent (m * M) (e + E) := by
    change -1074 < _
    rw [totalExponent]
    omega
  have hplace : e + E ≤ Format.binary64.targetExponent (totalExponent (m * M) (e + E)) := by
    change _ ≤ max (totalExponent (m * M) (e + E) - 53) (-1074)
    rw [totalExponent]
    omega
  obtain ⟨n, F, h, hround, hnearby⟩ :=
    exists_rounded hpos hplace hmin (.positive * .positive) .exact
  have hlower := hnearby.pow_le hpos hmin
  have hdouble : value n F ≤ 2 * (value m e * value M E) := by
    rw [value_mul]
    exact hnearby.le_two_mul hpos hmin
  have htotal : totalExponent (m * M) (e + E) - 1 < totalExponent n F := lt_totalExponent h.pos hlower
  have htarget : max (totalExponent n F - 53) (-1074) = F := h.target
  refine ⟨n, F, ?_, ?_, ?_, hdouble⟩
  · have hproduct : x * y =
        ⟨Float.Model.pack (UnpackedFloat.mul .binary64 x.toModel.unpack y.toModel.unpack)⟩ := rfl
    rw [hproduct, hx.unpacked, hy.unpacked]
    simp only [UnpackedFloat.mul, hround]
    apply parts_ofParts h
    calc value n F ≤ 2 * (value m e * value M E) := hdouble
      _ < 2 * 2 ^ (1022 : Int) := by gcongr
      _ = 2 ^ (1 + 1022 : Int) := (zpow_one_add₀ two_ne_zero 1022).symm
      _ < 2 ^ (1024 : Int) := zpow_lt_zpow_right₀ one_lt_two (by norm_num)
  · rw [← Nat.le_log2 (Nat.ne_of_gt h.pos)]
    simp only [totalExponent] at htarget htotal
    omega
  · simp only [totalExponent] at htarget htotal
    omega

theorem isAmount_ofUInt64 (n : UInt64) : IsAmount n.toFloat := by
  have hunpack : n.toFloat.toModel.unpack =
      unpack .binary64 (UnpackedFloat.pack .binary64 (UnpackedFloat.ofUInt64 .binary64 n)) := rfl
  rw [UnpackedFloat.ofUInt64, UnpackedFloat.ofNat, UnpackedFloat.ofInt, UnpackedFloat.normalize] at hunpack
  rcases Nat.eq_zero_or_pos n.toNat with hzero | hpos
  · rw [hzero] at hunpack
    exact .zero .positive hunpack
  · rw [show compare (n.toNat : Int) 0 = .gt from Int.compare_eq_gt.mpr (by omega)] at hunpack
    obtain ⟨m, e, h, hround, hnearby⟩ :=
      exists_round hpos (show Format.binary64.minExponent ≤ 0 by decide) .positive
    simp only [Int.toNat_natCast, hround] at hunpack
    have hmin : Format.binary64.minExponent < totalExponent n.toNat 0 := by
      change -1074 < _
      rw [totalExponent]
      omega
    have hreach : value m e < 2 ^ (1024 : Int) := by
      have hshort : value n.toNat 0 ≤ 2 ^ (64 : Int) := by
        rw [value, zpow_zero, mul_one]
        exact_mod_cast n.toNat_lt.le
      calc value m e ≤ 2 * value n.toNat 0 := hnearby.le_two_mul hpos hmin
        _ ≤ 2 * 2 ^ (64 : Int) := by gcongr
        _ = 2 ^ (1 + 64 : Int) := (zpow_one_add₀ two_ne_zero 64).symm
        _ < 2 ^ (1024 : Int) := zpow_lt_zpow_right₀ one_lt_two (by norm_num)
    exact .parts m e ⟨h, (fits_iff h).mpr hreach, hunpack.trans (unpack_pack h ((fits_iff h).mpr hreach) _)⟩

-- A number is told by what it stands for.
theorem Parts.eq_of_value_eq (hx : Parts x m e) (hy : Parts y M E) (h : value m e = value M E) : x = y := by
  have htotal := totalExponent_congr hx.canonical.pos hy.canonical.pos h
  obtain rfl : e = E := by rw [← hx.canonical.target, ← hy.canonical.target, htotal]
  obtain rfl := Binary.eq_of_value_eq e h
  rw [← pack_unpack x, ← pack_unpack y, hx.unpacked, hy.unpacked]

theorem parts_ofUInt64 {n : Nat} (hpos : 0 < n) (hshort : n < 2 ^ 53) :
    ∃ m e, Parts n.toUInt64.toFloat m e ∧ value m e = n := by
  obtain ⟨m, e, hm, hunpack, hvalue⟩ := unpack_ofUInt64 hpos hshort
  obtain ⟨hcanonical, hfits⟩ := canonical_of_unpack (by decide) hunpack
  exact ⟨m, e, ⟨hcanonical, hfits, hunpack⟩, by simpa [value] using hvalue⟩

theorem amount_ofUInt64 {n : Nat} (hshort : n < 2 ^ 53) : amount n.toUInt64.toFloat = n := by
  rcases Nat.eq_zero_or_pos n with rfl | hpos
  · rfl
  · obtain ⟨m, e, hparts, hvalue⟩ := parts_ofUInt64 hpos hshort
    rw [hparts.amount_eq, hvalue]

-- Counting is exact as long as all bits of a number have their places.
theorem ofUInt64_add_one {n : Nat} (hshort : n + 1 < 2 ^ 53) :
    n.toUInt64.toFloat + 1 = (n + 1).toUInt64.toFloat := by
  rcases Nat.eq_zero_or_pos n with rfl | hpos
  · decide +kernel
  · obtain ⟨m, e, hn, hvalue⟩ := parts_ofUInt64 hpos (by omega)
    obtain ⟨M, E, hnext, hvalue'⟩ := parts_ofUInt64 n.succ_pos hshort
    have hsum : value m e + value (2 ^ 52) (-52) = value M E := by
      rw [hvalue, hvalue']
      norm_num [value]
    have hlt : value m e + value (2 ^ 52) (-52) < 2 ^ (53 : Int) := by
      rw [hsum, hvalue']
      exact_mod_cast hshort
    obtain ⟨k, F, hparts, _, _, _, hexact⟩ := hn.exists_add Parts.one (by norm_num) (by norm_num) hlt
    exact hparts.eq_of_value_eq hnext (hexact M E hnext.canonical hsum)

theorem nonpos_of_negative (h : Canonical .binary64 m e) :
    (⟨Float.Model.pack (.finite .negative m e h.pos)⟩ : Float) ≤ 0 := by
  have hunpack : (⟨Float.Model.pack (.finite .negative m e h.pos)⟩ : Float).toModel.unpack =
      unpack .binary64 (UnpackedFloat.pack .binary64 (.finite .negative m e h.pos)) := rfl
  rw [le_iff_compare, hunpack]
  by_cases hfits : Fits .binary64 e
  · rw [unpack_pack h hfits]
    rfl
  · rw [unpack_pack_of_not_fits h hfits]
    rfl

theorem IsAmount.neg_unpack (hx : IsAmount x) : (-x).toModel.unpack = x.toModel.unpack.neg := by
  change unpack .binary64 (UnpackedFloat.pack .binary64 x.toModel.unpack.neg) = _
  cases hx with
  | zero s h =>
      rw [h]
      exact unpack_pack_zero _
  | parts m e h =>
      rw [h.unpacked]
      exact unpack_pack h.canonical h.fits .negative

theorem neg_div_eq (hx : IsAmount x) (hy : Parts y M E) :
    -x / y = ⟨Float.Model.pack
      (UnpackedFloat.div .binary64 x.toModel.unpack.neg (.finite .positive M E hy.canonical.pos))⟩ := by
  rw [← hx.neg_unpack, ← hy.unpacked]
  rfl

-- A negative number stays one when it is divided by a positive one.
theorem IsAmount.neg_div_nonpos (hx : IsAmount x) (hy : Parts y M E) : -x / y ≤ 0 := by
  have hzero (s : Sign) : (⟨Float.Model.pack (.zero s)⟩ : Float) ≤ 0 := by
    cases s <;> decide +kernel
  rw [neg_div_eq hx hy]
  cases hx with
  | zero s h =>
      rw [h]
      exact hzero _
  | parts m e h =>
      rw [h.unpacked, UnpackedFloat.neg]
      rcases div_cases h.canonical.pos hy.canonical.pos (-.positive) .positive with
        hdiv | ⟨n, F, hn, hdiv, _⟩
      · rw [hdiv]
        exact hzero _
      · rw [hdiv]
        exact nonpos_of_negative hn

theorem IsAmount.neg_div_small (hx : IsAmount x) (hy : Parts y M E) {k : Int} (hlow : -1021 ≤ k)
    (hhigh : k ≤ 0) (hle : amount x ≤ 2 ^ k * value M E) :
    ∃ b, Binary.ofFloat? (-x / y) = some b ∧ value b.mantissa b.exponent ≤ 2 ^ (k + 1) := by
  have hzero (s : Sign) : ∃ b, Binary.ofFloat? ⟨Float.Model.pack (.zero s)⟩ = some b ∧
      value b.mantissa b.exponent ≤ 2 ^ (k + 1) := by
    rw [ofFloat?_eq]
    change ∃ b, ofUnpacked? .binary64 (unpack .binary64 (UnpackedFloat.pack .binary64 (.zero s))) = some b ∧ _
    rw [unpack_pack_zero]
    refine ⟨_, rfl, ?_⟩
    simp only [value, Nat.cast_zero, zero_mul]
    positivity
  rw [neg_div_eq hx hy]
  cases hx with
  | zero s h =>
      rw [h]
      exact hzero _
  | parts m e h =>
      rw [h.amount_eq] at hle
      rw [h.unpacked, UnpackedFloat.neg]
      rcases div_cases h.canonical.pos hy.canonical.pos (-.positive) .positive with
        hdiv | ⟨n, F, hn, hdiv, hshare⟩
      · rw [hdiv]
        exact hzero _
      · have hquotient : value m e / value M E ≤ 2 ^ k := (div_le_iff₀ (value_pos hy.canonical.pos E)).mpr hle
        have hgrid : (2 : ℚ) ^ (k - 52) ≤ 2 ^ k := zpow_le_zpow_right₀ one_le_two (by omega)
        have hsmall : value n F ≤ 2 ^ (k + 1) := by
          rw [zpow_add_one₀ two_ne_zero]
          linarith [hshare k hlow hle]
        have hreach : value n F < 2 ^ (1024 : Int) :=
          hsmall.trans_lt (zpow_lt_zpow_right₀ one_lt_two (by omega))
        rw [hdiv, ofFloat?_eq]
        change ∃ b, ofUnpacked? .binary64 (unpack .binary64 (UnpackedFloat.pack .binary64 _)) = some b ∧ _
        rw [unpack_pack hn ((fits_iff hn).mpr hreach)]
        exact ⟨_, rfl, hsmall⟩

theorem neg_zero_div (hy : Parts y M E) : -0 / y = -0 := by
  have hquotient : -0 / y =
      ⟨Float.Model.pack (UnpackedFloat.div .binary64 (-0 : Float).toModel.unpack y.toModel.unpack)⟩ := rfl
  rw [hquotient, hy.unpacked]
  rfl

theorem ofScientific_zero (k : Nat) : (Float.ofScientific 0 true k).toModel.unpack = .zero .positive := by
  unfold Float.ofScientific
  split
  · rename_i hfast
    obtain ⟨m, e, hm, htable, _⟩ := value_of_isTenTo (isTenTo_table ⟨k, Nat.lt_succ_of_le hfast.2⟩)
    have hquotient : UnpackedFloat.div .binary64 (.zero .positive) (.finite .positive m e hm) =
        .zero .positive := rfl
    rw [← htable] at hquotient
    exact (congrArg (fun u => (⟨Float.Model.pack u⟩ : Float).toModel.unpack) hquotient).trans rfl
  · have hzero : UnpackedFloat.ofScientific .binary64 0 (Int.negOfNat k) = .zero .positive := by
      rw [UnpackedFloat.ofScientific, dif_pos rfl]
    exact (congrArg (fun u => (⟨Float.Model.pack u⟩ : Float).toModel.unpack) hzero).trans rfl

-- A short mantissa is kept as it is.
theorem isAmount_toFloat {m : Nat} {e : Int} (hm : m ≤ 2 ^ 53) (he : -1074 ≤ e) (hle : value m e ≤ 1) :
    IsAmount (toFloat ⟨false, m, e⟩) ∧ amount (toFloat ⟨false, m, e⟩) = value m e := by
  rcases Nat.eq_zero_or_pos m with rfl | hpos
  · have hdecimal : (decimal ⟨false, 0, e⟩).1 = 0 := by
      rw [decimal]
      split <;> simp
    have hzero : (toFloat ⟨false, 0, e⟩).toModel.unpack = .zero .positive := by
      rw [toFloat, hdecimal]
      exact ofScientific_zero _
    exact ⟨.zero _ hzero, by rw [amount_eq_zero hzero]; simp [value]⟩
  · obtain ⟨n, F, hcanonical, hvalue⟩ : ∃ n F, Canonical .binary64 n F ∧ value n F = value m e := by
      rcases hm.lt_or_eq with hlt | rfl
      · obtain ⟨n, F, h, hvalue, _⟩ := @exists_canonical .binary64 m e hpos
          (show m.log2 < 53 from (Nat.log2_lt (Nat.ne_of_gt hpos)).mpr hlt) he
        exact ⟨n, F, h, hvalue⟩
      · obtain ⟨n, F, h, hvalue, _⟩ := @exists_canonical .binary64 1 (e + 53) Nat.one_pos (by decide)
          (by change -1074 ≤ _; omega)
        refine ⟨n, F, h, ?_⟩
        rw [hvalue, ← one_mul (2 ^ 53), value_shift]
        rfl
    have hreach : value n F < 2 ^ (1024 : Int) := by
      rw [hvalue]
      exact hle.trans_lt (one_lt_zpow₀ one_lt_two (by norm_num))
    have hparts : Parts (toFloat ⟨false, m, e⟩) n F := by
      rw [toFloat_eq (s := .positive) hcanonical ((fits_iff hcanonical).mpr hreach) rfl hvalue.symm
        (by dsimp only; omega)]
      exact parts_ofParts hcanonical hreach
    exact ⟨.parts n F hparts, by rw [hparts.amount_eq, hvalue]⟩

-- Every positive number of single precision has all its places in double precision.
theorem exists_parts_widen {x : Float32} (hfinite : x.isFinite = true) (hpos : ¬x ≤ 0) :
    ∃ m e, Parts (widen x) m e ∧ 2 ^ 52 ≤ m ∧ -256 ≤ e ∧ value m e < 2 ^ (128 : Int) := by
  have hparts : ofFloat32? x = ofUnpacked? .binary32 x.toModel.unpack :=
    @ofWord?_eq .binary32 x.toBits.toBitVec
  have hfinite : x.toModel.unpack.isFinite = true := hfinite
  have hle : ¬(x.toModel.unpack.compare (.zero .positive)).any Ordering.isLE = true :=
    fun hle => hpos (decide_eq_true hle)
  rw [widen, hparts]
  cases hx : x.toModel.unpack with
  | notANumber | infinity _ =>
      rw [hx] at hfinite
      cases hfinite
  | zero _ =>
      rw [hx] at hle
      exact absurd rfl hle
  | finite s m e hm =>
      cases s with
      | negative =>
          rw [hx] at hle
          exact absurd rfl hle
      | positive =>
          obtain ⟨hcanonical, hfits⟩ := canonical_of_unpack (by decide) hx
          obtain ⟨m', e', hcanonical', hfits', hvalue, hlong, hexponent⟩ :=
            exists_widened hcanonical hfits
          have hlow : -149 ≤ e := hcanonical.minExponent_le
          have hlog : m.log2 < 24 := hcanonical.log2_lt
          have hhigh : e + 127 + 23 + 1 < 256 := hfits
          have hwide : toFloat ⟨false, m, e⟩ = ofParts hcanonical' :=
            toFloat_eq (s := .positive) hcanonical' hfits' rfl hvalue.symm (by dsimp only; omega)
          have hvalue_lt : value m' e' < 2 ^ (128 : Int) := by
            rw [hvalue]
            refine (value_bounds hm e).2.trans_le (zpow_le_zpow_right₀ one_le_two ?_)
            rw [totalExponent]
            omega
          refine ⟨m', e', ?_, hlong, hexponent, hvalue_lt⟩
          change Parts (toFloat ⟨false, m, e⟩) m' e'
          rw [hwide]
          exact parts_ofParts hcanonical' (hvalue_lt.trans (zpow_lt_zpow_right₀ one_lt_two (by norm_num)))

end ParticleFx.Number
