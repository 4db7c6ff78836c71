import Mathlib.Algebra.BigOperators.Fin
import Mathlib.Tactic.Ring
import ParticleFx.Proofs.Effect.Convolution
import ParticleFx.Proofs.Frame.Bytes

namespace ParticleFx

namespace Kernel

open Number

variable {exp : Float → Float} {radius t : Nat} {sigma : Float32} {ts : Array Nat}

theorem sumOf_eq_sum (ns : Array Nat) : sumOf ns = ∑ t ∈ Finset.range ns.size, ns.getD t 0 := by
  rw [sumOf, ← Array.foldl_toList, ← List.sum_eq_foldl, ← Fin.sum_univ_getElem, Finset.sum_range]
  apply Finset.sum_congr rfl
  intro t _
  rw [Array.getD_eq_getD_getElem?, Array.getElem?_eq_getElem t.isLt]
  rfl

theorem sumOf_taps_eq_sum (htaps : taps exp radius sigma = .ok ts) :
    sumOf ts = ∑ t ∈ Finset.range (2 * radius + 1), ts.getD t 0 := by
  rw [sumOf_eq_sum, size_of_taps htaps]

theorem size_shares (exp : Float → Float) (radius : Nat) (sigma : Float32) :
    (shares (heights exp radius sigma)).size = 2 * radius + 1 := by
  simp [shares, heights]

theorem getD_shares (exp : Float → Float) (sigma : Float32) (ht : t ≤ 2 * radius) :
    (shares (heights exp radius sigma)).getD t 0 =
      share (total (heights exp radius sigma)) (bell exp sigma (offset radius t)) := by
  have hheight : (heights exp radius sigma)[t]? = some (bell exp sigma (offset radius t)) := by
    rw [heights, Array.getElem?_ofFn, dif_pos (by omega)]
  simp only [shares, Array.getD_eq_getD_getElem?, Array.getElem?_map, hheight, Option.map_some,
    Option.getD_some]

theorem getD_taps (htaps : taps exp radius sigma = .ok ts) (ht : t ≠ radius) :
    ts.getD t 0 = (shares (heights exp radius sigma)).getD t 0 := by
  obtain ⟨_, _, rfl⟩ := taps_eq_ok_iff.mp htaps
  simp only [balanced, Array.getD_eq_getD_getElem?, Array.getElem?_setIfInBounds, if_neg ht.symm]

theorem getD_taps_middle (htaps : taps exp radius sigma = .ok ts) :
    ts.getD radius 0 = middle ((shares (heights exp radius sigma)).getD radius 0)
      (sumOf (shares (heights exp radius sigma))) := by
  have hsize : radius < (shares (heights exp radius sigma)).size := by
    rw [size_shares]
    omega
  obtain ⟨_, _, rfl⟩ := taps_eq_ok_iff.mp htaps
  rw [balanced]
  generalize middle _ _ = tap
  rw [Array.getD_eq_getD_getElem?, Array.getElem?_setIfInBounds_self_of_lt hsize, Option.getD_some]

-- The taps beside the middle one.
def others (radius : Nat) : Finset Nat := (Finset.range (2 * radius + 1)).erase radius

theorem sum_eq_others_add {M : Type} [AddCommMonoid M] (radius : Nat) (f : Nat → M) :
    ∑ t ∈ Finset.range (2 * radius + 1), f t = ∑ t ∈ others radius, f t + f radius := by
  have hmiddle : radius ∈ Finset.range (2 * radius + 1) := by
    rw [Finset.mem_range]
    omega
  exact (Finset.sum_erase_add _ _ hmiddle).symm

theorem mem_others : t ∈ others radius ↔ t ≠ radius ∧ t ≤ 2 * radius := by
  rw [others, Finset.mem_erase, Finset.mem_range, Nat.lt_succ_iff]

theorem card_others (radius : Nat) : (others radius).card = 2 * radius := by
  rw [others, Finset.card_erase_of_mem (Finset.mem_range.mpr (by omega)), Finset.card_range, Nat.add_sub_cancel]

-- The weights on both sides of the middle one, summed up.
def sides (radius : Nat) (ts : Array Nat) : Nat :=
  ∑ t ∈ others radius, ts.getD t 0

theorem sides_eq (htaps : taps exp radius sigma = .ok ts) :
    sides radius ts = ∑ t ∈ others radius,
      share (total (heights exp radius sigma)) (bell exp sigma (offset radius t)) := by
  apply Finset.sum_congr rfl
  intro t ht
  obtain ⟨hne, ht⟩ := mem_others.mp ht
  rw [getD_taps htaps hne, getD_shares exp sigma ht]

-- Whatever the sides are short of, the middle makes up for; what they have too much stays.
theorem sumOf_taps (htaps : taps exp radius sigma = .ok ts) : sumOf ts = max one (sides radius ts) := by
  have hassigned : sumOf (shares (heights exp radius sigma)) =
      sides radius ts + (shares (heights exp radius sigma)).getD radius 0 := by
    rw [sumOf_eq_sum, size_shares, sum_eq_others_add, sides]
    congr 1
    apply Finset.sum_congr rfl
    intro t ht
    rw [getD_taps htaps (mem_others.mp ht).1]
  rw [sumOf_taps_eq_sum htaps, sum_eq_others_add, getD_taps_middle htaps, hassigned, middle, ← sides]
  omega

-- A share of the total is rounded when it is taken, and by half a unit when it is counted.
theorem share_le {total height : Float} (htotal : IsAmount total) (hheight : IsAmount height)
    (hpos : 0 < amount total) (hle : amount height ≤ amount total) :
    (share total height : ℚ) ≤ 65536 * (amount height / amount total + 2 ^ (-52 : Int)) + 1 / 2 := by
  obtain ⟨hquotient, hshare⟩ := hheight.div htotal hpos hle
  have hone : amount height / amount total ≤ 1 := (div_le_one hpos).mpr hle
  have hunit : (2 : ℚ) ^ (-52 : Int) ≤ 1 := zpow_le_one_of_nonpos₀ one_le_two (by norm_num)
  obtain ⟨hscaled, hamount⟩ := hquotient.scale (by linarith)
  have hrounded := hscaled.roundWithin_le one
  rw [hamount] at hrounded
  rw [share]
  linarith

theorem sum_bell_le (hexp : Decays exp) (hsigma : IsWidth sigma) (radius : Nat) :
    ∑ t ∈ others radius, amount (bell exp sigma (offset radius t)) ≤ 2 * radius := by
  have hsum := Finset.sum_le_sum fun t (_ : t ∈ others radius) =>
    (isAmount_bell hexp hsigma (offset radius t)).2
  rw [Finset.sum_const, card_others, nsmul_eq_mul, mul_one] at hsum
  exact_mod_cast hsum

theorem sides_le_shares {places : Int} (hexp : Decays exp) (htaps : taps exp radius sigma = .ok ts)
    (htotals : Totals exp radius sigma places) :
    (sides radius ts : ℚ) ≤
      65536 * ((∑ t ∈ others radius, amount (bell exp sigma (offset radius t))) /
        amount (total (heights exp radius sigma)) + 2 * radius * 2 ^ (-52 : Int)) + 2 * radius * (1 / 2) := by
  have hsigma := (taps_eq_ok_iff.mp htaps).1
  have hone := htotals.one_le hexp hsigma
  have hshares : (sides radius ts : ℚ) ≤ ∑ t ∈ others radius,
      (65536 * (amount (bell exp sigma (offset radius t)) / amount (total (heights exp radius sigma)) +
        2 ^ (-52 : Int)) + 1 / 2) := by
    rw [sides_eq htaps, Nat.cast_sum]
    refine Finset.sum_le_sum fun t ht => ?_
    exact share_le htotals.isAmount (isAmount_bell hexp hsigma _).1 (by linarith)
      (htotals.ge t (mem_others.mp ht).2)
  rwa [Finset.sum_add_distrib, ← Finset.mul_sum, Finset.sum_add_distrib, ← Finset.sum_div, Finset.sum_const,
    Finset.sum_const, card_others, nsmul_eq_mul, nsmul_eq_mul, Nat.cast_mul, Nat.cast_two] at hshares

-- No tap is larger than the middle one. While there are few of them, it is large enough to give back all
-- that the others were rounded up by.
theorem sides_le (hexp : Decays exp) (hradius : radius ≤ 181) (htaps : taps exp radius sigma = .ok ts) :
    sides radius ts ≤ one := by
  have hsigma := (taps_eq_ok_iff.mp htaps).1
  have hfew : (radius : ℚ) ≤ 181 := by exact_mod_cast hradius
  have hroom : 2 * (2 * radius + 1 : ℚ) < 2 ^ (10 : Int) := by
    norm_num
    linarith
  have htotals := totals hexp hsigma (by norm_num) (by norm_num) hroom
  have hone := htotals.one_le hexp hsigma
  have hshares := sides_le_shares hexp htaps htotals
  have hheights := sum_bell_le hexp hsigma radius
  have herror := htotals.error
  rw [sum_eq_others_add, offset_self, bell_zero hexp hsigma, amount_one] at herror
  have hslack : (2 * radius + 1 : ℚ) * 2 ^ (10 - 53 : Int) ≤ 2 ^ (-34 : Int) := by
    norm_num
    linarith
  obtain ⟨hbelow, habove⟩ := abs_sub_le_iff.mp herror
  replace hbelow := hbelow.trans hslack
  replace habove := habove.trans hslack
  generalize amount (total (heights exp radius sigma)) = whole at *
  generalize ∑ t ∈ others radius, amount (bell exp sigma (offset radius t)) = rest at *
  -- The middle is at least one part in 364 of the whole.
  have hrest : rest / whole ≤ 1 - (1 - 2 ^ (-34 : Int)) / 364 := by
    rw [div_le_iff₀ (by linarith)]
    norm_num at hbelow habove ⊢
    linarith
  have hlt : (sides radius ts : ℚ) < 0x10001 := by
    refine hshares.trans_lt ?_
    norm_num at hrest ⊢
    linarith
  exact Nat.le_of_lt_succ (by exact_mod_cast hlt)

theorem sumOf_taps_of_le (hexp : Decays exp) (hradius : radius ≤ 181) (htaps : taps exp radius sigma = .ok ts) :
    sumOf ts = one := by
  rw [sumOf_taps htaps, Nat.max_eq_left (sides_le hexp hradius htaps)]

-- The weights are the same on both sides.
theorem getD_taps_symm (htaps : taps exp radius sigma = .ok ts) (ht : t ≤ 2 * radius) :
    ts.getD t 0 = ts.getD (2 * radius - t) 0 := by
  by_cases hmiddle : t = radius
  · rw [show 2 * radius - t = t by omega]
  · have hoffset : offset radius (2 * radius - t) = offset radius t := by
      unfold offset
      split <;> split <;> omega
    rw [getD_taps htaps hmiddle, getD_taps htaps (by omega), getD_shares exp sigma ht,
      getD_shares exp sigma (by omega), hoffset]

-- A bell so wide that nothing of its slope is left within a few thousand taps.
def wideBell : Float32 := 1152921504606846976

theorem isWidth_wideBell : IsWidth wideBell := by decide +kernel

theorem bell_wideBell {i : Nat} (hi : i ≤ 4096) : bell exponential wideBell i = 1 := by
  have hsquare : i * i ≤ 4096 * 4096 := Nat.mul_le_mul hi hi
  have hdoubled : Parts (2 * (widen wideBell * widen wideBell)) (2 ^ 52) 69 :=
    ⟨⟨by norm_num, by decide +kernel⟩, show (69 : Int) + 1023 + 52 + 1 < 2048 by norm_num, by rfl⟩
  have hsmall : amount (i * i).toUInt64.toFloat ≤ 2 ^ (-60 : Int) * Binary.value (2 ^ 52) 69 := by
    rw [amount_ofUInt64 (by omega)]
    have hle : ((i * i : Nat) : ℚ) ≤ (4096 * 4096 : Nat) := by exact_mod_cast hsquare
    refine hle.trans ?_
    norm_num [Binary.value]
  obtain ⟨b, hb, hvalue⟩ := (isAmount_ofUInt64 (i * i).toUInt64).neg_div_small hdoubled
    (by norm_num) (by norm_num) hsmall
  exact Exponential.exponential_of_small hb (hvalue.trans_lt (zpow_lt_zpow_right₀ one_lt_two (by norm_num)))

theorem heights_wideBell {radius : Nat} (hradius : radius ≤ 4096) :
    heights exponential radius wideBell = Array.replicate (2 * radius + 1) 1 := by
  have hflat (t : Fin (2 * radius + 1)) : bell exponential wideBell (offset radius t) = 1 :=
    bell_wideBell ((offset_le (Nat.le_of_lt_succ t.isLt)).trans hradius)
  rw [heights, funext hflat]
  exact Array.ext (by simp) (by simp)

theorem foldl_add_ones {n : Nat} (hshort : n < 2 ^ 53) :
    (List.replicate n (1 : Float)).foldl (· + ·) 0 = n.toUInt64.toFloat := by
  induction n with
  | zero => rfl
  | succ n ih => rw [List.replicate_succ', List.foldl_concat, ih (by omega), ofUInt64_add_one hshort]

theorem total_wideBell : total (heights exponential 276 wideBell) = 553 := by
  rw [heights_wideBell (by decide), total, ← Array.foldl_toList, Array.toList_replicate,
    foldl_add_ones (by decide)]
  rfl

-- Each of the 553 equal weights is 118.5 units, and is rounded up.
theorem share_wideBell {t : Nat} (ht : t ∈ others 276) :
    share 553 (bell exponential wideBell (offset 276 t)) = 119 := by
  rw [bell_wideBell ((offset_le (mem_others.mp ht).2).trans (by decide))]
  decide +kernel

theorem sides_wideBell {ts : Array Nat} (htaps : taps exponential 276 wideBell = .ok ts) :
    sides 276 ts = one + 152 := by
  rw [sides_eq htaps, total_wideBell, Finset.sum_congr rfl fun t ht => share_wideBell ht, Finset.sum_const,
    card_others]
  rfl

end Kernel

namespace Blur

theorem oddSize_eq (size : Nat) : oddSize size = 2 * (size / 2) + 1 := by
  unfold oddSize
  split <;> omega

theorem oddSize_div_two (size : Nat) : oddSize size / 2 = size / 2 := by
  rw [oddSize_eq]
  omega

-- Every bell that an effect can ask for has a width.
theorem isWidth_sigmaFor : ∀ radius ≤ EffectRequest.maxGlowRadius / 2,
    Kernel.IsWidth (sigmaFor (2 * radius + 1)) := by
  decide +kernel

theorem exists_taps_sigmaFor {exp : Float → Float} (hexp : Decays exp) {size : Nat}
    (hsize : size / 2 ≤ EffectRequest.maxGlowRadius / 2) :
    ∃ ts, Kernel.taps exp (oddSize size / 2) (sigmaFor (oddSize size)) = .ok ts := by
  rw [oddSize_eq, show (2 * (size / 2) + 1) / 2 = size / 2 by omega]
  apply Kernel.exists_taps hexp (isWidth_sigmaFor _ hsize)
  unfold EffectRequest.maxGlowRadius at hsize
  omega

end Blur

namespace Kernel

open Number

-- The weights sum to one unless the sides alone are more than that, whatever computes the exponential. A
-- kernel of 363 taps or fewer never comes so far, whatever its bell, and no effect asks for a larger one.
theorem weights_sum_to_one_iff_sides_fit (exp : Float → Float) :
    (∀ radius sigma ts, taps exp radius sigma = .ok ts →
      sumOf ts = max one (sides radius ts) ∧ (sumOf ts = one ↔ sides radius ts ≤ one)) ∧
    (Decays exp →
      (∀ radius ≤ 181, ∀ sigma ts, taps exp radius sigma = .ok ts → sumOf ts = one) ∧
      ∀ size ≤ EffectRequest.maxGlowRadius,
        ∃ ts, taps exp (Blur.oddSize size / 2) (Blur.sigmaFor (Blur.oddSize size)) = .ok ts ∧
          sumOf ts = one) := by
  refine ⟨fun radius sigma ts htaps => ⟨sumOf_taps htaps, ?_⟩, fun hexp => ⟨?_, fun size hsize => ?_⟩⟩
  · rw [sumOf_taps htaps]
    omega
  · exact fun radius hradius sigma ts htaps => sumOf_taps_of_le hexp hradius htaps
  · obtain ⟨ts, htaps⟩ := Blur.exists_taps_sigmaFor hexp (Nat.div_le_div_right hsize)
    refine ⟨ts, htaps, sumOf_taps_of_le hexp ?_ htaps⟩
    rw [Blur.oddSize_div_two]
    unfold EffectRequest.maxGlowRadius at hsize
    omega

-- Of two kernels under the same wide bell, the larger one is too much for its middle.
theorem weights_sum_to_one_iff_sides_fit_wide :
    (∃ ts, taps exponential 181 wideBell = .ok ts ∧ sumOf ts = one) ∧
    ∃ ts, taps exponential 276 wideBell = .ok ts ∧ ¬sides 276 ts ≤ one ∧ sumOf ts ≠ one := by
  obtain ⟨hsum, hfew⟩ := weights_sum_to_one_iff_sides_fit exponential
  obtain ⟨narrow, hnarrow⟩ := exists_taps Exponential.decays isWidth_wideBell (show 181 < 2 ^ 50 by decide)
  obtain ⟨wide, hwide⟩ := exists_taps Exponential.decays isWidth_wideBell (show 276 < 2 ^ 50 by decide)
  have hmore : ¬sides 276 wide ≤ one := by
    rw [sides_wideBell hwide]
    decide
  refine ⟨⟨narrow, hnarrow, (hfew Exponential.decays).1 181 (by decide) _ _ hnarrow⟩, wide, hwide, hmore, ?_⟩
  exact fun hone => hmore ((hsum 276 _ _ hwide).2.mp hone)

end Kernel

namespace Blur

-- All taps read the one pixel that there is.
theorem blurred_onePixel (weights : Nat → Nat) (radius : Nat) (image : Nat → Nat → Nat → Nat) (channel : Nat) :
    blurred weights radius 1 1 image 0 0 channel =
      rounded ((∑ t ∈ Finset.range (2 * radius + 1), weights t) *
        rounded ((∑ t ∈ Finset.range (2 * radius + 1), weights t) * image 0 0 channel)) := by
  have hnearest (i : Int) : nearest 1 i = 0 := by
    unfold nearest
    omega
  simp only [blurred, overColumns, overRows, hnearest, ← Finset.sum_mul]

-- What is left for the middle weight to take is far less than what the others have too much, so that a plain
-- pixel becomes brighter.
theorem wide_kernel_overweighs :
    1 ≤ 276 ∧ 276 ≤ maxRadius ∧ Kernel.IsWidth Kernel.wideBell ∧
    ∃ ts, Kernel.taps exponential 276 Kernel.wideBell = .ok ts ∧ Kernel.sumOf ts = Kernel.one + 152 ∧
      bytes exponential (Array.replicate 4 254) 1 1 276 Kernel.wideBell = .ok (Array.replicate 4 255) := by
  have hradius : 1 ≤ 276 ∧ 276 ≤ maxRadius := by decide
  obtain ⟨ts, htaps⟩ := Kernel.exists_taps Exponential.decays Kernel.isWidth_wideBell (show 276 < 2 ^ 50 by decide)
  have hsum : Kernel.sumOf ts = Kernel.one + 152 := by
    rw [Kernel.sumOf_taps htaps, Kernel.sides_wideBell htaps]
    rfl
  refine ⟨hradius.1, hradius.2, Kernel.isWidth_wideBell, ts, htaps, hsum, ?_⟩
  have hsrc : (Array.replicate 4 254 : Array UInt8).size = 1 * 1 * 4 := rfl
  have hbrighter : (Array.replicate 4 255 : Array UInt8).size = 1 * 1 * 4 := rfl
  obtain ⟨out, hout, hsize, hbytes⟩ := exists_blurred hsrc (by decide) hradius.1 hradius.2 htaps
  rw [hout, Frame.eq_of_bytes (hsize.trans hsrc) hbrighter]
  intro x hx y hy channel hchannel
  obtain rfl : x = 0 := by omega
  obtain rfl : y = 0 := by omega
  have hpixel : byteAt (Array.replicate 4 254) 1 0 0 channel = 254 := by
    revert channel
    decide
  have hpixel' : byteAt (Array.replicate 4 255) 1 0 0 channel = 255 := by
    revert channel
    decide
  have hbyte := hbytes 0 hx 0 hy channel hchannel
  rw [blurred_onePixel, ← Kernel.sumOf_taps_eq_sum htaps, hsum, hpixel] at hbyte
  exact UInt8.toNat_inj.mp (hbyte.trans hpixel'.symm)

end Blur

end ParticleFx
