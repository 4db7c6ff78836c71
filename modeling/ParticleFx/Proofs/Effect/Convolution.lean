import Mathlib.Algebra.BigOperators.Intervals
import Mathlib.Algebra.Group.Action.Defs
import Mathlib.Algebra.Order.BigOperators.Group.Finset
import ParticleFx.Proofs.Effect.Bell
import ParticleFx.Proofs.Effect.Shape
import ParticleFx.Proofs.Frame.Bytes
import ParticleFx.Proofs.Frame.Layers

namespace ParticleFx

namespace Frame

section

variable {α : Type} {place : α → Nat} {color : α → Color} {cells : List α} {data : Array UInt8}

-- Writes a pixel for each of the cells.
def paint (place : α → Nat) (color : α → Color) (cells : List α) (data : Array UInt8) : Array UInt8 :=
  cells.foldl (fun data cell => putColor data (place cell) (color cell)) data

theorem size_paint : (paint place color cells data).size = data.size := by
  unfold paint
  induction cells generalizing data with
  | nil => rfl
  | cons cell rest ih => rw [List.foldl_cons, ih, size_putColor]

-- The pixels keep what they are given, if no two cells have the same one.
theorem colorAt_paint (hinside : ∀ cell ∈ cells, 4 * place cell + 3 < data.size)
    (hdistinct : ∀ cell ∈ cells, ∀ other ∈ cells, place cell = place other → cell = other) {cell : α}
    (hcell : cell ∈ cells) :
    colorAt (paint place color cells data) (place cell) = color cell := by
  induction cells using List.reverseRecOn with
  | nil => cases hcell
  | append_singleton before last ih =>
      have hlast := hinside last (List.mem_append_right before List.mem_cons_self)
      have hconcat : paint place color (before ++ [last]) data =
          putColor (paint place color before data) (place last) (color last) := by
        rw [paint, List.foldl_concat, paint]
      rw [hconcat, colorAt_putColor _ _ _ _ (by rwa [size_paint])]
      by_cases hplace : place last = place cell
      · rw [if_pos hplace, hdistinct last (by simp) cell hcell hplace]
      · rw [if_neg hplace]
        have hbefore : cell ∈ before := by
          rcases List.mem_append.mp hcell with hmem | hmem
          · exact hmem
          · exact absurd (congrArg place (List.mem_singleton.mp hmem).symm) hplace
        apply ih
        · exact fun cell hmem => hinside cell (List.mem_append_left _ hmem)
        · exact fun cell hmem other hother =>
            hdistinct cell (List.mem_append_left _ hmem) other (List.mem_append_left _ hother)
        · exact hbefore

end

end Frame

namespace Kernel

variable {exp : Float → Float} {radius : Nat} {sigma : Float32} {ts : Array Nat}

theorem size_of_taps (h : taps exp radius sigma = .ok ts) : ts.size = 2 * radius + 1 := by
  obtain ⟨_, _, rfl⟩ := taps_eq_ok_iff.mp h
  simp [balanced, shares, heights]

theorem le_of_mem_shares {hs : Array Float} {n : Nat} (h : n ∈ shares hs) : n ≤ one := by
  obtain ⟨height, _, rfl⟩ := Array.mem_map.mp h
  exact Number.roundWithin_le_limit _ _

theorem middle_le (tap assigned : Nat) : middle tap assigned ≤ one := Nat.min_le_right _ _

theorem le_of_mem_taps (h : taps exp radius sigma = .ok ts) {n : Nat} (hn : n ∈ ts) : n ≤ one := by
  obtain ⟨_, _, rfl⟩ := taps_eq_ok_iff.mp h
  rcases Array.mem_or_eq_of_mem_setIfInBounds hn with hmem | hmiddle
  · exact le_of_mem_shares hmem
  · rw [hmiddle]
    exact middle_le _ _

-- No weight is more than one.
theorem tap_le (h : taps exp radius sigma = .ok ts) (t : Nat) : ts.getD t 0 ≤ one := by
  rw [Array.getD_eq_getD_getElem?]
  cases htap : ts[t]? with
  | none => exact Nat.zero_le one
  | some tap =>
      rw [Option.getD_some]
      exact le_of_mem_taps h (Array.mem_of_getElem? htap)

end Kernel

namespace Blur

theorem weighted_eq_sum (taps : Array Nat) (sample : Nat → UInt8) :
    weighted taps sample = ∑ t ∈ Finset.range taps.size, taps.getD t 0 * (sample t).toNat := by
  have hfold (n : Nat) (hn : n ≤ taps.size) :
      n.fold (fun t ht sum => sum + taps[t] * (sample t).toNat) 0 =
        ∑ t ∈ Finset.range n, taps.getD t 0 * (sample t).toNat := by
    induction n with
    | zero => rfl
    | succ n ih =>
        rw [Nat.fold_succ, ih (by omega), Finset.sum_range_succ, Array.getD_eq_getD_getElem?,
          Array.getElem?_eq_getElem (by omega)]
        rfl
  exact hfold taps.size (Nat.le_refl _)

namespace Lines

-- The pixels of the lines are pixels of the frame, and no two of them are the same.
structure Tiles (l : Lines) (pixels : Nat) : Prop where
  inside {line i : Nat} : line < l.count → i < l.length → l.place line i < pixels
  distinct {line i line' i' : Nat} : line < l.count → i < l.length → line' < l.count → i' < l.length →
    l.place line i = l.place line' i' → line = line' ∧ i = i'

theorem length_rows (width height : Nat) : (rows width height).length = width := rfl

theorem length_columns (width height : Nat) : (columns width height).length = height := rfl

theorem place_rows (width height line i : Nat) :
    (rows width height).place line i = line * width + i := by
  simp [place, rows]

theorem place_columns (width height line i : Nat) :
    (columns width height).place line i = i * width + line := by
  simp [place, columns, Nat.add_comm]

theorem tiles_rows (width height : Nat) : (rows width height).Tiles (width * height) := by
  refine ⟨fun {line i} hline hi => ?_, fun {line i line' i'} _ hi _ hi' h => ?_⟩
  · rw [place_rows]
    exact Frame.place_lt hi hline
  · rw [place_rows, place_rows] at h
    exact (Frame.place_inj hi hi' h).symm

theorem tiles_columns (width height : Nat) : (columns width height).Tiles (width * height) := by
  refine ⟨fun {line i} hline hi => ?_, fun {line i line' i'} hline _ hline' _ h => ?_⟩
  · rw [place_columns]
    exact Frame.place_lt hline hi
  · rw [place_columns, place_columns] at h
    exact Frame.place_inj hline hline' h

-- The pixels of all lines, line after line.
def cells (l : Lines) : List (Nat × Nat) :=
  (List.range l.count).flatMap fun line => (List.range l.length).map (line, ·)

theorem mem_cells {l : Lines} {cell : Nat × Nat} :
    cell ∈ l.cells ↔ cell.1 < l.count ∧ cell.2 < l.length := by
  obtain ⟨line, i⟩ := cell
  simp [cells]

end Lines

variable {l : Lines} {taps : Array Nat} {src : Array UInt8} {line i channel pixels : Nat}

-- The pixel that is written at place `i` of a line.
def smoothedColor (taps : Array Nat) (l : Lines) (src : Array UInt8) (cell : Nat × Nat) : Color :=
  let channel := smoothed taps l src cell.1 cell.2
  ⟨channel 0, channel 1, channel 2, channel 3⟩

theorem channel_smoothedColor (cell : Nat × Nat) (h : channel < 4) :
    (smoothedColor taps l src cell).channel channel = smoothed taps l src cell.1 cell.2 channel := by
  match channel, h with
  | 0, _ | 1, _ | 2, _ | 3, _ => rfl

theorem alongLines_eq (taps : Array Nat) (l : Lines) (src : Array UInt8) :
    alongLines taps l src =
      Frame.paint (fun cell => l.place cell.1 cell.2) (smoothedColor taps l src) l.cells
        (Array.replicate src.size 0) := by
  rw [alongLines, Frame.paint, Lines.cells, List.foldl_flatMap, fold_eq_foldl_range]
  simp only [List.foldl_map, fold_eq_foldl_range]
  rfl

-- A pass over lines that tile the frame leaves every pixel smoothed along its line.
theorem getD_alongLines (htiles : l.Tiles pixels) (hsize : src.size = pixels * 4)
    (hline : line < l.count) (hi : i < l.length) (hchannel : channel < 4) :
    (alongLines taps l src).getD (4 * l.place line i + channel) 0 =
      smoothed taps l src line i channel := by
  have hcell : (line, i) ∈ l.cells := Lines.mem_cells.mpr ⟨hline, hi⟩
  have hcolor : Frame.colorAt (alongLines taps l src) (l.place line i) =
      smoothedColor taps l src (line, i) := by
    rw [alongLines_eq]
    refine Frame.colorAt_paint ?_ ?_ hcell
    · intro cell hcell
      have hcell := Lines.mem_cells.mp hcell
      have hinside := htiles.inside hcell.1 hcell.2
      rw [Array.size_replicate]
      omega
    · intro cell hcell other hother hplace
      have hcell := Lines.mem_cells.mp hcell
      have hother := Lines.mem_cells.mp hother
      exact Prod.ext_iff.mpr (htiles.distinct hcell.1 hcell.2 hother.1 hother.2 hplace)
  rw [← Frame.channel_colorAt _ _ hchannel, hcolor, channel_smoothedColor _ hchannel]

-- The byte of one channel of the pixel in a column and a row.
def byteAt (data : Array UInt8) (width x y channel : Nat) : Nat :=
  (data.getD (4 * (y * width + x) + channel) 0).toNat

-- A weighted sum of bytes, rounded and held to a byte.
def rounded (sum : Nat) : Nat :=
  min 255 ((sum + 2 ^ 15) / 2 ^ 16)

-- The place of a line that is nearest to `i`.
def nearest (length : Nat) (i : Int) : Nat :=
  (max 0 (min i (length - 1))).toNat

-- An image smoothed along its rows.
def overRows (weights : Nat → Nat) (radius width : Nat) (image : Nat → Nat → Nat → Nat)
    (x y channel : Nat) : Nat :=
  rounded (∑ t ∈ Finset.range (2 * radius + 1),
    weights t * image (nearest width (x + t - radius)) y channel)

-- An image smoothed along its columns.
def overColumns (weights : Nat → Nat) (radius height : Nat) (image : Nat → Nat → Nat → Nat)
    (x y channel : Nat) : Nat :=
  rounded (∑ t ∈ Finset.range (2 * radius + 1),
    weights t * image x (nearest height (y + t - radius)) channel)

-- An image smoothed along its rows, and then along its columns.
def blurred (weights : Nat → Nat) (radius width height : Nat) (image : Nat → Nat → Nat → Nat) :
    Nat → Nat → Nat → Nat :=
  overColumns weights radius height (overRows weights radius width image)

theorem toNat_quantize (sum : Nat) : (quantize sum).toNat = rounded sum := by
  rw [quantize, rounded, Nat.toUInt8, UInt8.toNat_ofNat_of_lt' (by change _ < 256; omega), Nat.min_comm]
  norm_num

theorem clampedAt_eq {length radius t : Nat} (hi : i < length) :
    clampedAt i t radius (length - 1) = nearest length (i + t - radius) := by
  unfold clampedAt nearest
  omega

theorem clampedAt_lt {length : Nat} (hi : i < length) (t reach : Nat) :
    clampedAt i t reach (length - 1) < length := by
  unfold clampedAt
  omega

section

variable {width height radius x y : Nat}

theorem toNat_smoothed (htaps : taps.size = 2 * radius + 1) (hi : i < l.length) :
    (smoothed taps l src line i channel).toNat =
      rounded (∑ t ∈ Finset.range (2 * radius + 1), taps.getD t 0 *
        (src.getD (4 * l.place line (nearest l.length (i + t - radius)) + channel) 0).toNat) := by
  have hreach : (2 * radius + 1) / 2 = radius := by omega
  simp only [smoothed, toNat_quantize, weighted_eq_sum, htaps, hreach, clampedAt_eq hi]

theorem byteAt_alongRows (hsize : src.size = width * height * 4) (htaps : taps.size = 2 * radius + 1)
    (hx : x < width) (hy : y < height) (hchannel : channel < 4) :
    byteAt (alongLines taps (.rows width height) src) width x y channel =
      overRows (taps.getD · 0) radius width (byteAt src width) x y channel := by
  have hpixel : (alongLines taps (.rows width height) src).getD _ 0 = _ :=
    getD_alongLines (Lines.tiles_rows width height) hsize hy hx hchannel
  rw [Lines.place_rows] at hpixel
  rw [byteAt, hpixel, toNat_smoothed htaps hx]
  simp only [Lines.place_rows, Lines.length_rows, overRows, byteAt]

theorem byteAt_alongColumns (hsize : src.size = width * height * 4) (htaps : taps.size = 2 * radius + 1)
    (hx : x < width) (hy : y < height) (hchannel : channel < 4) :
    byteAt (alongLines taps (.columns width height) src) width x y channel =
      overColumns (taps.getD · 0) radius height (byteAt src width) x y channel := by
  have hpixel : (alongLines taps (.columns width height) src).getD _ 0 = _ :=
    getD_alongLines (Lines.tiles_columns width height) hsize hx hy hchannel
  rw [Lines.place_columns] at hpixel
  rw [byteAt, hpixel, toNat_smoothed htaps hy]
  simp only [Lines.place_columns, Lines.length_columns, overColumns, byteAt]

-- The second pass reads only what the first one has written.
theorem byteAt_convolve (hsize : src.size = width * height * 4) (htaps : taps.size = 2 * radius + 1)
    (hx : x < width) (hy : y < height) (hchannel : channel < 4) :
    byteAt (convolve taps width height src) width x y channel =
      blurred (taps.getD · 0) radius width height (byteAt src width) x y channel := by
  have hnearest (t : Nat) : nearest height (y + t - radius) < height := by
    rw [← clampedAt_eq hy]
    exact clampedAt_lt hy t radius
  rw [convolve, byteAt_alongColumns (by rw [size_alongLines, hsize]) htaps hx hy hchannel]
  simp only [blurred, overColumns, byteAt_alongRows hsize htaps hx (hnearest _) hchannel]

variable {exp : Float → Float} {sigma : Float32} {ts : Array Nat}

theorem exists_blurred (hsize : src.size = width * height * 4)
    (hcount : width * height * 4 < UInt64.size) (hpos : 1 ≤ radius) (hradius : radius ≤ maxRadius)
    (htaps : Kernel.taps exp radius sigma = .ok ts) :
    ∃ out, bytes exp src width height radius sigma = .ok out ∧ out.size = src.size ∧
      ∀ x < width, ∀ y < height, ∀ channel < 4, byteAt out width x y channel =
        blurred (ts.getD · 0) radius width height (byteAt src width) x y channel := by
  have hexpected : Frame.byteCount? width height = some (width * height * 4) := if_pos hcount
  have hreach : ¬maxRadius < radius := by omega
  have hzero : ¬radius = 0 := by omega
  simp only [bytes, hexpected, hsize, ne_eq, not_true, if_false, hreach, hzero, false_or, htaps]
  by_cases hempty : width * height * 4 = 0
  · rw [if_pos hempty]
    refine ⟨src, rfl, hsize, fun x hx y hy => ?_⟩
    have hplace := Frame.place_lt hx hy
    omega
  · rw [if_neg hempty]
    have hlength := Kernel.size_of_taps htaps
    exact ⟨_, rfl, (size_convolve _ _ _ _).trans hsize,
      fun x hx y hy channel hchannel => byteAt_convolve hsize hlength hx hy hchannel⟩

-- A sum of weighted bytes stays far below what 64 bits hold.
theorem sum_lt (htaps : Kernel.taps exp radius sigma = .ok ts) (hradius : radius ≤ maxRadius) {n : Nat}
    (hn : n ≤ 2 * radius + 1) (sample : Nat → UInt8) :
    ∑ t ∈ Finset.range n, ts.getD t 0 * (sample t).toNat + 2 ^ 15 < 2 ^ 64 := by
  have hterm (t : Nat) : ts.getD t 0 * (sample t).toNat ≤ 2 ^ 16 * 255 :=
    Nat.mul_le_mul (Kernel.tap_le htaps t) (Nat.le_of_lt_succ (sample t).toNat_lt)
  have hsum := Finset.sum_le_sum fun t (_ : t ∈ Finset.range n) => hterm t
  rw [Finset.sum_const, Finset.card_range, smul_eq_mul] at hsum
  unfold maxRadius at hradius
  omega

-- A pass stays within the bytes, where it writes and where it reads.
theorem Lines.Tiles.byte_lt (htiles : l.Tiles pixels) (hsize : src.size = pixels * 4)
    (hline : line < l.count) (hi : i < l.length) (t reach : Nat) :
    4 * l.place line i + 3 < src.size ∧
      4 * l.place line (clampedAt i t reach (l.length - 1)) + 3 < src.size := by
  have hwrite := htiles.inside hline hi
  have hread := htiles.inside hline (clampedAt_lt hi t reach)
  omega

-- What the two passes leave in every byte is what the definition of the blur asks for, whatever computes the
-- exponential. No sum on the way overflows, and no byte outside is touched.
theorem blur_is_convolution (hexp : Decays exp) (hsize : src.size = width * height * 4)
    (hcount : width * height * 4 < UInt64.size) (hpos : 1 ≤ radius) (hradius : radius ≤ maxRadius)
    (hsigma : Kernel.IsWidth sigma) :
    ∃ ts, Kernel.taps exp radius sigma = .ok ts ∧
      (∃ out, bytes exp src width height radius sigma = .ok out ∧ out.size = src.size ∧
        ∀ x < width, ∀ y < height, ∀ channel < 4, byteAt out width x y channel =
          blurred (ts.getD · 0) radius width height (byteAt src width) x y channel) ∧
      ts.size = 2 * radius + 1 ∧
      (∀ n ≤ 2 * radius + 1, ∀ sample : Nat → UInt8,
        ∑ t ∈ Finset.range n, ts.getD t 0 * (sample t).toNat + 2 ^ 15 < 2 ^ 64) ∧
      ∀ l ∈ [Lines.rows width height, Lines.columns width height],
        ∀ line < l.count, ∀ i < l.length, ∀ t < 2 * radius + 1,
          4 * l.place line i + 3 < src.size ∧
            4 * l.place line (clampedAt i t radius (l.length - 1)) + 3 < src.size := by
  have hroom : radius < 2 ^ 50 := by
    unfold maxRadius at hradius
    omega
  obtain ⟨ts, htaps⟩ := Kernel.exists_taps hexp hsigma hroom
  refine ⟨ts, htaps, exists_blurred hsize hcount hpos hradius htaps, Kernel.size_of_taps htaps,
    fun n hn => sum_lt htaps hradius hn, ?_⟩
  intro l hl line hline i hi t _
  have htiles : l.Tiles (width * height) := by
    rcases List.mem_cons.mp hl with rfl | hl
    · exact Lines.tiles_rows width height
    · obtain rfl := List.mem_singleton.mp hl
      exact Lines.tiles_columns width height
  exact htiles.byte_lt hsize hline hi t radius

end

-- Squares, cut to a byte.
def squares : Array UInt8 :=
  Array.ofFn fun k : Fin 24 => (k * k : Nat).toUInt8

-- In the last corner of three columns and two rows, most of what the taps ask for lies outside.
theorem blur_is_convolution_squares :
    Decays exponential ∧ squares.size = 3 * 2 * 4 ∧ Kernel.IsWidth 16 ∧
    Kernel.taps exponential 2 16 = .ok #[13056, 13133, 13158, 13133, 13056] ∧
    ∃ out, bytes exponential squares 3 2 2 16 = .ok out ∧ out.size = 24 ∧
      ∀ channel < 4, byteAt out 3 2 1 channel = [86, 112, 141, 79].getD channel 0 := by
  have hsize : squares.size = 3 * 2 * 4 := rfl
  have hsigma : Kernel.IsWidth 16 := by decide +kernel
  have htaps : Kernel.taps exponential 2 16 = .ok #[13056, 13133, 13158, 13133, 13056] := by
    decide +kernel
  have hradius : 1 ≤ 2 ∧ 2 ≤ maxRadius := by decide
  obtain ⟨ts, hts, ⟨out, hout, hlength, hbytes⟩, _⟩ :=
    blur_is_convolution Exponential.decays hsize (by decide) hradius.1 hradius.2 hsigma
  obtain rfl := Except.ok.inj (hts.symm.trans htaps)
  refine ⟨Exponential.decays, hsize, hsigma, htaps, out, hout, hlength.trans hsize,
    fun channel hchannel => ?_⟩
  rw [hbytes 2 (by decide) 1 (by decide) channel hchannel]
  revert channel
  decide +kernel

end Blur

end ParticleFx
