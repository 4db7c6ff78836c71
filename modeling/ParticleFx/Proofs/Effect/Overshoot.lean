import Mathlib.Data.Finset.Prod
import Mathlib.Data.Finset.Max
import ParticleFx.Proofs.Effect.Weights

namespace ParticleFx.Blur

variable {weights : Nat → Nat} {radius width height x y channel t v : Nat}
  {image image' : Nat → Nat → Nat → Nat}

theorem rounded_mono {m n : Nat} (h : m ≤ n) : rounded m ≤ rounded n := by
  have hquotient : (m + 2 ^ 15) / 2 ^ 16 ≤ (n + 2 ^ 15) / 2 ^ 16 := Nat.div_le_div_right (by omega)
  unfold rounded
  omega

theorem rounded_mul (hv : v ≤ 255) : rounded (2 ^ 16 * v) = v := by
  unfold rounded
  omega

-- The pixels of the frame whose column and whose row are at most the radius away.
def window (width height radius x y : Nat) : Finset (Nat × Nat) :=
  {p ∈ Finset.range width ×ˢ Finset.range height |
    (p.1 ≤ x + radius ∧ x ≤ p.1 + radius) ∧ p.2 ≤ y + radius ∧ y ≤ p.2 + radius}

theorem mem_window {p : Nat × Nat} :
    p ∈ window width height radius x y ↔
      (p.1 < width ∧ p.1 ≤ x + radius ∧ x ≤ p.1 + radius) ∧
        p.2 < height ∧ p.2 ≤ y + radius ∧ y ≤ p.2 + radius := by
  rw [window, Finset.mem_filter, Finset.mem_product, Finset.mem_range, Finset.mem_range]
  tauto

-- A tap reads from a place that is on the line, and no farther away than the taps reach.
theorem nearest_mem (hx : x < width) (ht : t < 2 * radius + 1) :
    nearest width (x + t - radius) < width ∧ nearest width (x + t - radius) ≤ x + radius ∧
      x ≤ nearest width (x + t - radius) + radius := by
  unfold nearest
  omega

-- A blur depends on the pixels of the window alone, and the brighter they are the brighter is the result.
theorem blurred_mono (hx : x < width) (hy : y < height)
    (h : ∀ p ∈ window width height radius x y, image p.1 p.2 channel ≤ image' p.1 p.2 channel) :
    blurred weights radius width height image x y channel ≤
      blurred weights radius width height image' x y channel := by
  apply rounded_mono
  apply Finset.sum_le_sum
  intro s hs
  apply Nat.mul_le_mul_left
  apply rounded_mono
  apply Finset.sum_le_sum
  intro t ht
  apply Nat.mul_le_mul_left
  rw [Finset.mem_range] at hs ht
  exact h (_, _) (mem_window.mpr ⟨nearest_mem hx ht, nearest_mem hy hs⟩)

theorem blurred_congr (hx : x < width) (hy : y < height)
    (h : ∀ p ∈ window width height radius x y, image p.1 p.2 channel = image' p.1 p.2 channel) :
    blurred weights radius width height image x y channel =
      blurred weights radius width height image' x y channel :=
  Nat.le_antisymm (blurred_mono hx hy fun p hp => (h p hp).le)
    (blurred_mono hx hy fun p hp => (h p hp).ge)

theorem blurred_const (hsum : ∑ t ∈ Finset.range (2 * radius + 1), weights t = 2 ^ 16) (hv : v ≤ 255) :
    blurred weights radius width height (fun _ _ _ => v) x y channel = v := by
  simp only [blurred, overColumns, overRows, ← Finset.sum_mul, hsum, rounded_mul hv]

-- Where the window is plain, nothing changes.
theorem blurred_of_plain (hsum : ∑ t ∈ Finset.range (2 * radius + 1), weights t = 2 ^ 16) (hv : v ≤ 255)
    (hx : x < width) (hy : y < height)
    (h : ∀ p ∈ window width height radius x y, image p.1 p.2 channel = v) :
    blurred weights radius width height image x y channel = v :=
  calc blurred weights radius width height image x y channel
      = blurred weights radius width height (fun _ _ _ => v) x y channel := blurred_congr hx hy h
    _ = v := blurred_const hsum hv

-- What a channel has in the pixels of the window.
def valuesAround (image : Nat → Nat → Nat → Nat) (width height radius x y channel : Nat) : Set Nat :=
  (fun p => image p.1 p.2 channel) '' (window width height radius x y : Set (Nat × Nat))

theorem exists_hull (hsum : ∑ t ∈ Finset.range (2 * radius + 1), weights t = 2 ^ 16)
    (hbyte : ∀ x y, image x y channel ≤ 255) (hx : x < width) (hy : y < height) :
    ∃ low high, IsLeast (valuesAround image width height radius x y channel) low ∧
      IsGreatest (valuesAround image width height radius x y channel) high ∧
      low ≤ blurred weights radius width height image x y channel ∧
      blurred weights radius width height image x y channel ≤ high := by
  have hself : (x, y) ∈ window width height radius x y := mem_window.mpr (by simp [hx, hy])
  obtain ⟨p, hp, hleast⟩ := Finset.exists_min_image (window width height radius x y)
    (fun p => image p.1 p.2 channel) ⟨_, hself⟩
  obtain ⟨q, hq, hgreatest⟩ := Finset.exists_max_image (window width height radius x y)
    (fun p => image p.1 p.2 channel) ⟨_, hself⟩
  refine ⟨image p.1 p.2 channel, image q.1 q.2 channel, ⟨⟨p, hp, rfl⟩, ?_⟩, ⟨⟨q, hq, rfl⟩, ?_⟩, ?_, ?_⟩
  · rintro _ ⟨r, hr, rfl⟩
    exact hleast r hr
  · rintro _ ⟨r, hr, rfl⟩
    exact hgreatest r hr
  · calc image p.1 p.2 channel
        = blurred weights radius width height (fun _ _ _ => image p.1 p.2 channel) x y channel :=
          (blurred_const hsum (hbyte _ _)).symm
      _ ≤ blurred weights radius width height image x y channel := blurred_mono hx hy hleast
  · calc blurred weights radius width height image x y channel
        ≤ blurred weights radius width height (fun _ _ _ => image q.1 q.2 channel) x y channel :=
          blurred_mono hx hy hgreatest
      _ = image q.1 q.2 channel := blurred_const hsum (hbyte _ _)

-- A blur that comes about, with weights that sum to one.
structure Balanced (exp : Float → Float) (src : Array UInt8) (width height radius : Nat) (sigma : Float32)
    (ts : Array Nat) : Prop where
  size : src.size = width * height * 4
  count : width * height * 4 < UInt64.size
  reach : radius ≤ maxRadius
  taps : Kernel.taps exp radius sigma = .ok ts
  sum : Kernel.sumOf ts = 2 ^ 16

section

variable {exp : Float → Float} {src : Array UInt8} {sigma : Float32} {ts : Array Nat}

theorem byteAt_le (data : Array UInt8) (width x y channel : Nat) : byteAt data width x y channel ≤ 255 :=
  Nat.le_of_lt_succ (UInt8.toNat_lt _)

theorem Balanced.sum_weights (h : Balanced exp src width height radius sigma ts) :
    ∑ t ∈ Finset.range (2 * radius + 1), ts.getD t 0 = 2 ^ 16 := by
  rw [← Kernel.sumOf_taps_eq_sum h.taps, h.sum]

-- A blur of radius zero returns the bytes before any tap is made, which is what its one tap would do too.
theorem Balanced.exists_blurred (h : Balanced exp src width height radius sigma ts) :
    ∃ out, bytes exp src width height radius sigma = .ok out ∧ out.size = width * height * 4 ∧
      ∀ x < width, ∀ y < height, ∀ channel < 4, byteAt out width x y channel =
        blurred (ts.getD · 0) radius width height (byteAt src width) x y channel := by
  by_cases hpos : 1 ≤ radius
  · obtain ⟨out, hout, hsize, hbytes⟩ := Blur.exists_blurred h.size h.count hpos h.reach h.taps
    exact ⟨out, hout, hsize.trans h.size, hbytes⟩
  · obtain rfl : radius = 0 := by omega
    have hexpected : Frame.byteCount? width height = some (width * height * 4) := if_pos h.count
    refine ⟨src, ?_, h.size, ?_⟩
    · simp [bytes, hexpected, h.size, maxRadius]
    · intro x hx y hy channel _
      refine (blurred_of_plain h.sum_weights (byteAt_le _ _ _ _ _) hx hy fun p hp => ?_).symm
      obtain ⟨hcolumn, hrow⟩ := mem_window.mp hp
      rw [show p.1 = x by omega, show p.2 = y by omega]

theorem byteAt_filled (c : Color) (hx : x < width) (hy : y < height) (hchannel : channel < 4) :
    byteAt (Frame.filled width height c).data width x y channel = (c.channel channel).toNat := by
  have hbyte := Frame.byte_lt hx hy hchannel
  exact congrArg UInt8.toNat (Frame.getD_ofFn_byte (fun _ _ channel => c.channel channel) hx hchannel hbyte)

theorem Balanced.bytes_filled (h : Balanced exp src width height radius sigma ts) (c : Color) :
    bytes exp (Frame.filled width height c).data width height radius sigma =
      .ok (Frame.filled width height c).data := by
  have hsize := Frame.size_filled width height c
  have hplain : Balanced exp (Frame.filled width height c).data width height radius sigma ts :=
    { h with size := hsize }
  obtain ⟨out, hout, hlength, hbytes⟩ := hplain.exists_blurred
  rw [hout, Frame.eq_of_bytes hlength hsize]
  intro x hx y hy channel hchannel
  apply UInt8.toNat_inj.mp
  refine (hbytes x hx y hy channel hchannel).trans ?_
  change _ = byteAt (Frame.filled width height c).data width x y channel
  rw [byteAt_filled c hx hy hchannel]
  apply blurred_of_plain h.sum_weights (Nat.le_of_lt_succ (UInt8.toNat_lt _)) hx hy
  intro p hp
  obtain ⟨hcolumn, hrow⟩ := mem_window.mp hp
  exact byteAt_filled c hcolumn.1 hrow.1 hchannel

theorem Balanced.weighted_le (h : Balanced exp src width height radius sigma ts) (sample : Nat → UInt8) :
    weighted ts sample ≤ 2 ^ 16 * 255 := by
  rw [weighted_eq_sum, Kernel.size_of_taps h.taps, ← h.sum_weights, Finset.sum_mul]
  apply Finset.sum_le_sum
  intro t _
  exact Nat.mul_le_mul_left _ (Nat.le_of_lt_succ (UInt8.toNat_lt _))

-- An image that is nowhere brighter than another one of its size.
structure Below (data data' : Array UInt8) : Prop where
  size : data.size = data'.size
  byte (k : Nat) : data.getD k 0 ≤ data'.getD k 0

theorem Below.of_bytes {data data' : Array UInt8} (hsize : data.size = width * height * 4)
    (hsize' : data'.size = width * height * 4)
    (h : ∀ x < width, ∀ y < height, ∀ channel < 4,
      byteAt data width x y channel ≤ byteAt data' width x y channel) : Below data data' := by
  refine ⟨hsize.trans hsize'.symm, fun k => ?_⟩
  by_cases hk : k < width * height * 4
  · obtain ⟨x, hx, y, hy, channel, hchannel, rfl⟩ := Frame.exists_coordinates hk
    exact UInt8.le_iff_toNat_le.mpr (h x hx y hy channel hchannel)
  · rw [Array.getD_eq_getD_getElem?, Array.getElem?_eq_none (by omega)]
    exact UInt8.zero_le

theorem Below.convolve {src' : Array UInt8} {taps : Array Nat} (h : Below src src')
    (hsize : src.size = width * height * 4) (htaps : taps.size = 2 * radius + 1) :
    Below (convolve taps width height src) (convolve taps width height src') := by
  have hsize' : src'.size = width * height * 4 := h.size.symm.trans hsize
  apply Below.of_bytes ((size_convolve _ _ _ _).trans hsize) ((size_convolve _ _ _ _).trans hsize')
  intro x hx y hy channel hchannel
  rw [byteAt_convolve hsize htaps hx hy hchannel, byteAt_convolve hsize' htaps hx hy hchannel]
  apply blurred_mono hx hy
  intro p _
  exact UInt8.le_iff_toNat_le.mp (h.byte _)

-- What becomes of a blur does not hang on the bytes, but on how many there are: it is refused, or has nothing
-- to do, or is run.
theorem bytes_cases (exp : Float → Float) (size width height radius : Nat) (sigma : Float32) :
    (∃ fault, ∀ src : Array UInt8, src.size = size →
      bytes exp src width height radius sigma = .error fault) ∨
    size = width * height * 4 ∧
      ((∀ src : Array UInt8, src.size = size → bytes exp src width height radius sigma = .ok src) ∨
        ∃ ts, Kernel.taps exp radius sigma = .ok ts ∧ ∀ src : Array UInt8, src.size = size →
          bytes exp src width height radius sigma = .ok (convolve ts width height src)) := by
  by_cases hcount : width * height * 4 < UInt64.size
  · have hexpected : Frame.byteCount? width height = some (width * height * 4) := if_pos hcount
    by_cases hsize : size = width * height * 4
    · by_cases hreach : maxRadius < radius
      · refine .inl ⟨.blurRadius radius maxRadius, fun src h => ?_⟩
        simp [bytes, hexpected, h, hsize, hreach]
      · by_cases hidle : radius = 0 ∨ width * height * 4 = 0
        · refine .inr ⟨hsize, .inl fun src h => ?_⟩
          simp only [bytes, hexpected, h, hsize, hreach, hidle, ne_eq, not_true, if_false, if_true]
        · cases htaps : Kernel.taps exp radius sigma with
          | error fault =>
              refine .inl ⟨fault, fun src h => ?_⟩
              simp only [bytes, hexpected, h, hsize, hreach, hidle, htaps, ne_eq, not_true, if_false]
              rfl
          | ok ts =>
              refine .inr ⟨hsize, .inr ⟨ts, rfl, fun src h => ?_⟩⟩
              simp only [bytes, hexpected, h, hsize, hreach, hidle, htaps, ne_eq, not_true, if_false]
              rfl
    · refine .inl ⟨.blurBytes size width height (width * height * 4), fun src h => ?_⟩
      simp [bytes, hexpected, h, hsize]
  · have hexpected : Frame.byteCount? width height = none := if_neg hcount
    refine .inl ⟨.blurTooLarge, fun src _ => ?_⟩
    simp only [bytes, hexpected]

-- Of two images the darker one comes out darker, or both are refused.
theorem Below.bytes {src' : Array UInt8} (h : Below src src') (exp : Float → Float)
    (width height radius : Nat) (sigma : Float32) :
    (∃ fault, bytes exp src width height radius sigma = .error fault ∧
      bytes exp src' width height radius sigma = .error fault) ∨
    ∃ out out', bytes exp src width height radius sigma = .ok out ∧
      bytes exp src' width height radius sigma = .ok out' ∧ Below out out' := by
  rcases bytes_cases exp src.size width height radius sigma with
    ⟨fault, hall⟩ | ⟨hsize, hall | ⟨ts, htaps, hall⟩⟩
  · exact .inl ⟨fault, hall src rfl, hall src' h.size.symm⟩
  · exact .inr ⟨src, src', hall src rfl, hall src' h.size.symm, h⟩
  · exact .inr ⟨_, _, hall src rfl, hall src' h.size.symm, h.convolve hsize (Kernel.size_of_taps htaps)⟩

end

-- No byte leaves the range of those around it, whatever computes the exponential.
theorem blur_never_overshoots (exp : Float → Float) (src : Array UInt8) (width height radius : Nat)
    (sigma : Float32) :
    (∀ ts, Balanced exp src width height radius sigma ts →
      (∃ out, bytes exp src width height radius sigma = .ok out ∧ out.size = src.size ∧
        ∀ x < width, ∀ y < height, ∀ channel < 4, ∃ low high,
          IsLeast (valuesAround (byteAt src width) width height radius x y channel) low ∧
          IsGreatest (valuesAround (byteAt src width) width height radius x y channel) high ∧
          low ≤ byteAt out width x y channel ∧ byteAt out width x y channel ≤ high) ∧
      (∀ c, bytes exp (Frame.filled width height c).data width height radius sigma =
        .ok (Frame.filled width height c).data) ∧
      ∀ sample, (weighted ts sample + 0x8000) / 0x10000 ≤ 255) ∧
    ∀ src', Below src src' →
      (∃ fault, bytes exp src width height radius sigma = .error fault ∧
        bytes exp src' width height radius sigma = .error fault) ∨
      ∃ out out', bytes exp src width height radius sigma = .ok out ∧
        bytes exp src' width height radius sigma = .ok out' ∧ Below out out' := by
  refine ⟨fun ts h => ⟨?_, h.bytes_filled, fun sample => ?_⟩,
    fun src' h => h.bytes exp width height radius sigma⟩
  · obtain ⟨out, hout, hsize, hbytes⟩ := h.exists_blurred
    refine ⟨out, hout, hsize.trans h.size.symm, fun x hx y hy channel hchannel => ?_⟩
    rw [hbytes x hx y hy channel hchannel]
    exact exists_hull h.sum_weights (fun x y => byteAt_le _ _ _ _ _) hx hy
  · have hsum := h.weighted_le sample
    omega

-- Around the last corner of three columns and two rows the reds are 16, 64, 0 and 144.
theorem blur_never_overshoots_squares :
    (∃ ts, Balanced exponential squares 3 2 1 16 ts) ∧ Below squares (Array.replicate 24 255) ∧
    ∃ out out', bytes exponential squares 3 2 1 16 = .ok out ∧ byteAt out 3 2 1 0 ≤ 144 ∧
      bytes exponential (Array.replicate 24 255) 3 2 1 16 = .ok out' ∧ Below out out' := by
  have hsigma : Kernel.IsWidth 16 := by decide +kernel
  obtain ⟨ts, htaps⟩ := Kernel.exists_taps Exponential.decays hsigma (show 1 < 2 ^ 50 by decide)
  have hbalanced : Balanced exponential squares 3 2 1 16 ts :=
    ⟨rfl, by decide, by decide, htaps, Kernel.sumOf_taps_of_le Exponential.decays (by decide) htaps⟩
  have hbelow : Below squares (Array.replicate 24 255) :=
    .of_bytes rfl (rfl : _ = 3 * 2 * 4) (by decide +kernel)
  obtain ⟨hproper, hmono⟩ := blur_never_overshoots exponential squares 3 2 1 16
  obtain ⟨⟨out, hout, _, hhull⟩, _⟩ := hproper _ hbalanced
  obtain ⟨low, high, _, hgreatest, _, hle⟩ := hhull 2 (by decide) 1 (by decide) 0 (by decide)
  have hreds : ∀ p ∈ window 3 2 1 2 1, byteAt squares 3 p.1 p.2 0 ≤ 144 := by decide +kernel
  have hhigh : high ≤ 144 := by
    obtain ⟨p, hp, rfl⟩ := hgreatest.1
    exact hreds p hp
  rcases hmono _ hbelow with ⟨fault, herror, _⟩ | ⟨out₁, out', hout₁, hout', hdarker⟩
  · rw [hout] at herror
    cases herror
  · obtain rfl : out₁ = out := Except.ok.inj (hout₁.symm.trans hout)
    exact ⟨⟨ts, hbalanced⟩, hbelow, out₁, out', hout₁, hle.trans hhigh, hout', hdarker⟩

end ParticleFx.Blur
