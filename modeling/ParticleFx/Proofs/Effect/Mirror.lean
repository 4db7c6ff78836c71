import ParticleFx.Proofs.Effect.Overshoot

namespace ParticleFx.Blur

variable {weights : Nat → Nat} {radius width height length x y channel : Nat}
  {image : Nat → Nat → Nat → Nat} {turn column row : Nat → Nat}

-- A way to exchange the places of a line that smoothing along the line goes along with.
structure Unnoticed (weights : Nat → Nat) (radius length : Nat) (turn : Nat → Nat) : Prop where
  inside {i : Nat} : i < length → turn i < length
  sum (line : Nat → Nat) {i : Nat} : i < length →
    ∑ t ∈ Finset.range (2 * radius + 1), weights t * line (turn (nearest length (i + t - radius))) =
      ∑ t ∈ Finset.range (2 * radius + 1), weights t * line (nearest length (turn i + t - radius))

theorem unnoticed_id : Unnoticed weights radius length id := ⟨id, fun _ _ _ => rfl⟩

-- From the other end, the taps read in the opposite order, and the ends are repeated alike.
theorem unnoticed_reverse (hweights : ∀ t ≤ 2 * radius, weights t = weights (2 * radius - t)) :
    Unnoticed weights radius length (length - 1 - ·) := by
  refine ⟨fun hi => by omega, fun line {i} hi => ?_⟩
  rw [← Finset.sum_range_reflect]
  apply Finset.sum_congr rfl
  intro t ht
  rw [Finset.mem_range] at ht
  have htap : 2 * radius + 1 - 1 - t = 2 * radius - t := by omega
  have hplace : length - 1 - nearest length (i + (2 * radius - t : Nat) - radius) =
      nearest length ((length - 1 - i : Nat) + t - radius) := by
    unfold nearest
    omega
  rw [htap, hplace, ← hweights t (by omega)]

theorem blurred_exchanged (hcolumn : Unnoticed weights radius width column)
    (hrow : Unnoticed weights radius height row) (hx : x < width) (hy : y < height) :
    blurred weights radius width height (fun x y channel => image (column x) (row y) channel) x y channel =
      blurred weights radius width height image (column x) (row y) channel := by
  have hrows (y : Nat) :
      overRows weights radius width (fun x y channel => image (column x) (row y) channel) x y channel =
        overRows weights radius width image (column x) (row y) channel :=
    congrArg rounded (hcolumn.sum (image · (row y) channel) hx)
  simp only [blurred, overColumns, hrows]
  exact congrArg rounded (hrow.sum (overRows weights radius width image (column x) · channel) hy)

-- Every pixel taken from the column and the row that its own are exchanged for.
def exchanged (width : Nat) (column row : Nat → Nat) (data : Array UInt8) : Array UInt8 :=
  Array.ofFn fun k : Fin data.size =>
    data.getD (4 * (row (k / 4 / width) * width + column (k / 4 % width)) + k % 4) 0

theorem size_exchanged (width : Nat) (column row : Nat → Nat) (data : Array UInt8) :
    (exchanged width column row data).size = data.size := by
  simp [exchanged]

theorem byteAt_exchanged {data : Array UInt8} (hsize : data.size = width * height * 4)
    (column row : Nat → Nat) (hx : x < width) (hy : y < height) (hchannel : channel < 4) :
    byteAt (exchanged width column row data) width x y channel =
      byteAt data width (column x) (row y) channel := by
  have hbyte : 4 * (y * width + x) + channel < data.size := hsize ▸ Frame.byte_lt hx hy hchannel
  exact congrArg UInt8.toNat (Frame.getD_ofFn_byte
    (fun x y channel => data.getD (4 * (row y * width + column x) + channel) 0) hx hchannel hbyte)

section

variable {src : Array UInt8} {taps : Array Nat}

theorem convolve_exchanged (hsize : src.size = width * height * 4) (htaps : taps.size = 2 * radius + 1)
    (hcolumn : Unnoticed (taps.getD · 0) radius width column)
    (hrow : Unnoticed (taps.getD · 0) radius height row) :
    convolve taps width height (exchanged width column row src) =
      exchanged width column row (convolve taps width height src) := by
  have hexchanged : (exchanged width column row src).size = width * height * 4 :=
    (size_exchanged _ _ _ _).trans hsize
  have hconvolve : (convolve taps width height src).size = width * height * 4 :=
    (size_convolve _ _ _ _).trans hsize
  apply Frame.eq_of_bytes ((size_convolve _ _ _ _).trans hexchanged)
    ((size_exchanged _ _ _ _).trans hconvolve)
  intro x hx y hy channel hchannel
  apply UInt8.toNat_inj.mp
  change byteAt _ width x y channel = byteAt _ width x y channel
  rw [byteAt_convolve hexchanged htaps hx hy hchannel, byteAt_exchanged hconvolve _ _ hx hy hchannel,
    byteAt_convolve hsize htaps (hcolumn.inside hx) (hrow.inside hy) hchannel,
    ← blurred_exchanged hcolumn hrow hx hy]
  apply blurred_congr hx hy
  intro p hp
  obtain ⟨hp₁, hp₂⟩ := mem_window.mp hp
  exact byteAt_exchanged hsize _ _ hp₁.1 hp₂.1 hchannel

theorem bytes_exchanged {exp : Float → Float} {sigma : Float32} (hsize : src.size = width * height * 4)
    (hcolumn : ∀ ts, Kernel.taps exp radius sigma = .ok ts → Unnoticed (ts.getD · 0) radius width column)
    (hrow : ∀ ts, Kernel.taps exp radius sigma = .ok ts → Unnoticed (ts.getD · 0) radius height row) :
    bytes exp (exchanged width column row src) width height radius sigma =
      (bytes exp src width height radius sigma).map (exchanged width column row) := by
  have hexchanged := size_exchanged width column row src
  rcases bytes_cases exp src.size width height radius sigma with
    ⟨fault, hall⟩ | ⟨_, hall | ⟨ts, htaps, hall⟩⟩
  · rw [hall src rfl, hall _ hexchanged]
    rfl
  · rw [hall src rfl, hall _ hexchanged]
    rfl
  · rw [hall src rfl, hall _ hexchanged,
      convolve_exchanged hsize (Kernel.size_of_taps htaps) (hcolumn ts htaps) (hrow ts htaps)]
    rfl

end

-- Left and right exchanged.
def mirrored (width : Nat) (data : Array UInt8) : Array UInt8 :=
  exchanged width (width - 1 - ·) id data

-- Top and bottom exchanged.
def upended (width height : Nat) (data : Array UInt8) : Array UInt8 :=
  exchanged width id (height - 1 - ·) data

-- The blurred mirror image is the mirror image of the blurred one, because the weights read the same from
-- both ends, whatever computes the exponential.
theorem blur_is_mirror_symmetric {src : Array UInt8} (hsize : src.size = width * height * 4)
    (exp : Float → Float) (radius : Nat) (sigma : Float32) :
    bytes exp (mirrored width src) width height radius sigma =
      (bytes exp src width height radius sigma).map (mirrored width) ∧
    bytes exp (upended width height src) width height radius sigma =
      (bytes exp src width height radius sigma).map (upended width height) ∧
    ∀ ts, Kernel.taps exp radius sigma = .ok ts →
      ts.size = 2 * radius + 1 ∧ ∀ t ≤ 2 * radius, ts.getD t 0 = ts.getD (2 * radius - t) 0 := by
  have hweights {ts : Array Nat} (htaps : Kernel.taps exp radius sigma = .ok ts) (t : Nat)
      (ht : t ≤ 2 * radius) : ts.getD t 0 = ts.getD (2 * radius - t) 0 :=
    Kernel.getD_taps_symm htaps ht
  refine ⟨?_, ?_, fun ts htaps => ⟨Kernel.size_of_taps htaps, hweights htaps⟩⟩
  · exact bytes_exchanged hsize (fun ts htaps => unnoticed_reverse (hweights htaps)) fun _ _ => unnoticed_id
  · exact bytes_exchanged hsize (fun _ _ => unnoticed_id) fun ts htaps => unnoticed_reverse (hweights htaps)

-- The squares grow from left to right, so that their mirror image is another one.
theorem blur_is_mirror_symmetric_squares :
    squares.size = 3 * 2 * 4 ∧ mirrored 3 squares ≠ squares ∧ upended 3 2 squares ≠ squares ∧
    ∃ out, bytes exponential squares 3 2 2 16 = .ok out ∧
      bytes exponential (mirrored 3 squares) 3 2 2 16 = .ok (mirrored 3 out) ∧
      bytes exponential (upended 3 2 squares) 3 2 2 16 = .ok (upended 3 2 out) := by
  have hsize : squares.size = 3 * 2 * 4 := rfl
  have hsigma : Kernel.IsWidth 16 := by decide +kernel
  obtain ⟨ts, htaps⟩ := Kernel.exists_taps Exponential.decays hsigma (show 2 < 2 ^ 50 by decide)
  obtain ⟨out, hout, _⟩ := exists_blurred hsize (by decide) (by decide : 1 ≤ 2) (by decide) htaps
  obtain ⟨hmirrored, hupended, _⟩ := blur_is_mirror_symmetric hsize exponential 2 16
  rw [hout] at hmirrored hupended
  exact ⟨hsize, by decide +kernel, by decide +kernel, out, hout, hmirrored, hupended⟩

end ParticleFx.Blur
