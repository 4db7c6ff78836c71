import Mathlib.Algebra.Order.Ring.Abs
import ParticleFx.Proofs.Effect.Shape
import ParticleFx.Proofs.Engine.Faults
import ParticleFx.Proofs.Frame.Bytes
import ParticleFx.Proofs.Random.Range

namespace ParticleFx

theorem Color.channel_transparent (channel : Nat) : transparent.channel channel = 0 := by
  match channel with
  | 0 | 1 | 2 | _ + 3 => rfl

namespace Frame

-- The pixel at signed coordinates, if these are inside.
def pixelAt? (f : Frame) (x y : Int) : Option Color :=
  if 0 ≤ x ∧ 0 ≤ y then f.pixel? x.toNat y.toNat else none

theorem pixelAt?_natCast (f : Frame) (x y : Nat) : f.pixelAt? x y = f.pixel? x y := by
  rw [pixelAt?, if_pos (by omega), Int.toNat_natCast, Int.toNat_natCast]

theorem pixelAt?_eq (f : Frame) (x y : Int) :
    f.pixelAt? x y =
      if f.contains x y then some (colorAt f.data (y.toNat * f.width + x.toNat)) else none := by
  by_cases hinside : 0 ≤ x ∧ 0 ≤ y ∧ x < f.width ∧ y < f.height
  · rw [pixelAt?, if_pos (by omega), pixel?, if_pos (by omega), contains, if_pos (by simpa using hinside)]
  · rw [contains, if_neg (by simpa using hinside), pixelAt?]
    split
    · rw [pixel?, if_neg (by omega)]
    · rfl

-- A run of pixels in a row lies within the bytes.
theorem run_le {width height row column count : Nat} (hrow : row < height) (hrun : column + count ≤ width) :
    4 * (row * width + column) + 4 * count ≤ width * height * 4 := by
  have hrows : (row + 1) * width ≤ height * width := Nat.mul_le_mul_right width hrow
  rw [Nat.succ_mul, Nat.mul_comm height] at hrows
  omega

end Frame

namespace Effect

variable {f g : Frame} {dx dy : Int} {x y channel : Nat}

-- A copied run reads as its source, and every byte beside it is kept. The induction is on how many bytes
-- have been copied.
theorem Span.getD_copy (span : Span) (data : Array UInt8) {out : Array UInt8}
    (h : span.target + span.length ≤ out.size) (k : Nat) :
    (span.copy data out).getD k 0 =
      if span.target ≤ k ∧ k < span.target + span.length then data.getD (span.source + (k - span.target)) 0
      else out.getD k 0 := by
  obtain ⟨source, target, length⟩ := span
  dsimp only [copy] at h ⊢
  induction length with
  | zero =>
      rw [if_neg (by omega)]
      rfl
  | succ length ih =>
      have hsize : (length.fold (fun i _ out => out.setIfInBounds (target + i) (data.getD (source + i) 0))
          out).size = out.size := size_copy ⟨source, target, length⟩ data out
      rw [Nat.fold_succ, Array.getD_eq_getD_getElem?, Array.getElem?_setIfInBounds, hsize]
      by_cases hlast : target + length = k
      · rw [if_pos hlast, if_pos (by omega), if_pos (by omega), Option.getD_some, ← hlast,
          Nat.add_sub_cancel_left]
      · rw [if_neg hlast, ← Array.getD_eq_getD_getElem?, ih (by omega)]
        by_cases hcopied : target ≤ k ∧ k < target + length
        · rw [if_pos hcopied, if_pos (by omega)]
        · rw [if_neg hcopied, if_neg (by omega)]

-- A run of whole pixels reads as its source, and every other pixel is kept.
theorem Span.getD_copy_pixels (data : Array UInt8) {out : Array UInt8} {width height row start count : Nat}
    (hout : out.size = width * height * 4) (hrow : row < height) (hrun : start + count ≤ width) (source : Nat)
    (hx : x < width) (hchannel : channel < 4) :
    (copy ⟨4 * source, 4 * (row * width + start), 4 * count⟩ data out).getD (4 * (y * width + x) + channel) 0 =
      if y = row ∧ start ≤ x ∧ x < start + count then data.getD (4 * (source + (x - start)) + channel) 0
      else out.getD (4 * (y * width + x) + channel) 0 := by
  rw [getD_copy _ _ (hout ▸ Frame.run_le hrow hrun)]
  dsimp only
  by_cases hsame : y = row
  · subst hsame
    by_cases hcopied : start ≤ x ∧ x < start + count
    · rw [if_pos (by omega), if_pos ⟨rfl, hcopied⟩]
      congr 1
      omega
    · rw [if_neg (by omega), if_neg fun h => hcopied h.2]
  · -- Two rows are a whole row apart, and the run stays in its own.
    have hapart : y * width + width ≤ row * width ∨ row * width + width ≤ y * width := by
      rcases Nat.lt_or_gt_of_ne hsame with hlt | hlt
      · exact .inl (Nat.succ_mul y _ ▸ Nat.mul_le_mul_right width hlt)
      · exact .inr (Nat.succ_mul row _ ▸ Nat.mul_le_mul_right width hlt)
    rw [if_neg (by omega), if_neg fun h => hsame h.1]

-- What is copied into a row: nothing, if no pixel of it is covered, or a run of whole pixels that covers
-- just those columns that the frame reaches.
theorem coveredSpan?_cases (f : Frame) (dx dy : Int) (y : Nat) :
    (coveredSpan? f dx dy y = none ∧ ∀ x < f.width, ¬f.contains (x - dx) (y - dy) = true) ∨
    ∃ row column start count : Nat,
      coveredSpan? f dx dy y = some
        ⟨4 * (row * f.width + column), 4 * (y * f.width + start), 4 * count⟩ ∧
      row = y - dy ∧ column = start - dx ∧ row < f.height ∧
      column + count ≤ f.width ∧ start + count ≤ f.width ∧
      ∀ x < f.width, f.contains (x - dx) (y - dy) = true ↔ start ≤ x ∧ x < start + count := by
  unfold coveredSpan?
  simp only [Frame.contains, decide_eq_true_eq]
  split
  · rename_i hnone
    refine .inl ⟨rfl, fun x hx => ?_⟩
    omega
  · rename_i hsome
    refine .inr ⟨_, _, _, _, rfl, ?_, ?_, ?_, ?_, ?_, fun x hx => ?_⟩
    all_goals omega

-- No copy into a row of the frame goes past the bytes, where it reads and where it writes.
theorem bounds_of_mem_coveredSpan? (hsize : f.data.size = f.width * f.height * 4) (hy : y < f.height)
    {span : Span} (hspan : span ∈ coveredSpan? f dx dy y) :
    span.source + span.length ≤ f.data.size ∧ span.target + span.length ≤ f.data.size := by
  obtain ⟨hnone, _⟩ | ⟨row, column, start, count, hsome, _, _, hrow, hsource, htarget, _⟩ :=
    coveredSpan?_cases f dx dy y
  · rw [hnone] at hspan
    cases hspan
  · rw [hsome] at hspan
    obtain rfl := Option.some.inj hspan
    rw [hsize]
    exact ⟨Frame.run_le hrow hsource, Frame.run_le hy htarget⟩

-- The pixel that moves to a place, and transparent black if none does.
def movedPixel (f : Frame) (dx dy : Int) (x y : Nat) : Color :=
  (f.pixelAt? (x - dx) (y - dy)).getD .transparent

theorem movedPixel_of_inside (hinside : f.contains (x - dx) (y - dy) = true) :
    movedPixel f dx dy x y = Frame.colorAt f.data ((y - dy).toNat * f.width + (x - dx).toNat) := by
  rw [movedPixel, Frame.pixelAt?_eq, if_pos hinside, Option.getD_some]

theorem movedPixel_of_outside (houtside : ¬f.contains (x - dx) (y - dy) = true) :
    movedPixel f dx dy x y = .transparent := by
  rw [movedPixel, Frame.pixelAt?_eq, if_neg houtside, Option.getD_none]

-- One row is covered as far as the frame reaches, and no other row is touched.
theorem getD_coverRow {out : Array UInt8} (hout : out.size = f.width * f.height * 4) {row : Nat}
    (hrow : row < f.height) (hx : x < f.width) (hchannel : channel < 4) :
    (coverRow f dx dy row out).getD (4 * (y * f.width + x) + channel) 0 =
      if y = row ∧ f.contains (x - dx) (y - dy) = true then (movedPixel f dx dy x y).channel channel
      else out.getD (4 * (y * f.width + x) + channel) 0 := by
  rw [coverRow]
  obtain ⟨hnone, huncovered⟩ |
      ⟨above, column, start, count, hsome, habove, hcolumn, _, _, htarget, hcovered⟩ :=
    coveredSpan?_cases f dx dy row
  · rw [hnone, if_neg]
    rintro ⟨rfl, hinside⟩
    exact huncovered x hx hinside
  · rw [hsome]
    dsimp only
    rw [Span.getD_copy_pixels f.data hout hrow htarget _ hx hchannel]
    by_cases hsame : y = row
    · subst hsame
      simp only [true_and, ← hcovered x hx]
      split
      · rename_i hinside
        have hstart := (hcovered x hx).mp hinside
        have hfrom : (x - dx).toNat = column + (x - start) := by omega
        have hline : (y - dy).toNat = above := by omega
        rw [movedPixel_of_inside hinside, Frame.channel_colorAt _ _ hchannel, hfrom, hline, Nat.add_assoc]
      · rfl
    · rw [if_neg fun h => hsame h.1, if_neg fun h => hsame h.1]

-- After some of the rows, these are covered and the others are still clear.
theorem getD_coverRows {count : Nat} (hcount : count ≤ f.height) (hx : x < f.width) (hy : y < f.height)
    (hchannel : channel < 4) :
    (count.fold (fun row _ out => coverRow f dx dy row out) (Frame.blank f.width f.height).data).getD
        (4 * (y * f.width + x) + channel) 0 =
      if y < count then (movedPixel f dx dy x y).channel channel else 0 := by
  induction count with
  | zero =>
      have hclear := Frame.getD_ofFn_byte (fun _ _ channel => Color.transparent.channel channel) hx hchannel
        (Frame.byte_lt hx hy hchannel)
      rw [if_neg (Nat.not_lt_zero y)]
      exact hclear.trans (Color.channel_transparent channel)
  | succ count ih =>
      have hsize : (count.fold (fun row _ out => coverRow f dx dy row out)
          (Frame.blank f.width f.height).data).size = f.width * f.height * 4 := by
        refine size_fold ?_ (Frame.size_filled _ _ _)
        intro row _ out hout
        rw [size_coverRow, hout]
      rw [Nat.fold_succ, getD_coverRow hsize (by omega) hx hchannel, ih (by omega)]
      by_cases hlast : y = count
      · rw [if_neg (by omega : ¬y < count), if_pos (by omega : y < count + 1)]
        by_cases hinside : f.contains (x - dx) (y - dy) = true
        · rw [if_pos ⟨hlast, hinside⟩]
        · rw [if_neg fun h => hinside h.2, movedPixel_of_outside hinside, Color.channel_transparent]
      · rw [if_neg fun h => hlast h.1]
        by_cases hbefore : y < count
        · rw [if_pos hbefore, if_pos (by omega)]
        · rw [if_neg hbefore, if_neg (by omega)]

theorem exists_shakeBy (hf : f.validate = .ok ()) (dx dy : Int) :
    ∃ g, shakeBy f dx dy = .ok g ∧ g.SameShape f ∧
      ∀ x < f.width, ∀ y < f.height, g.pixel? x y = some (movedPixel f dx dy x y) := by
  have hshaken : shakeBy f dx dy = .ok { f with
      data := f.height.fold (fun y _ out => coverRow f dx dy y out) (Frame.blank f.width f.height).data } := by
    rw [shakeBy, hf]
    rfl
  refine ⟨_, hshaken, shakeBy_sameShape hshaken, fun x hx y hy => ?_⟩
  rw [Frame.pixel?, if_pos ⟨hx, hy⟩]
  refine congrArg some (Frame.colorAt_eq_of_bytes fun channel hchannel => ?_)
  rw [getD_coverRows (Nat.le_refl _) hx hy hchannel, if_pos hy]

-- There and back again: what is still inside after the move is where it was.
theorem movedPixel_back (hshape : g.SameShape f)
    (hmoved : ∀ x < f.width, ∀ y < f.height, g.pixel? x y = some (movedPixel f dx dy x y))
    (hx : x < f.width) (hy : y < f.height) :
    some (movedPixel g (-dx) (-dy) x y) =
      if f.contains (x + dx) (y + dy) then f.pixel? x y else some .transparent := by
  have hcontains : g.contains (x - -dx) (y - -dy) = f.contains (x + dx) (y + dy) := by
    rw [Frame.contains, hshape.width, hshape.height, Int.sub_neg, Int.sub_neg, Frame.contains]
  by_cases hinside : f.contains (x + dx) (y + dy) = true
  · have hpixel : f.pixel? x y = some (Frame.colorAt f.data (y * f.width + x)) := if_pos ⟨hx, hy⟩
    rw [if_pos hinside, hpixel, movedPixel]
    simp only [Frame.contains, decide_eq_true_eq] at hinside
    obtain ⟨column, hcolumn⟩ := Int.eq_ofNat_of_zero_le hinside.1
    obtain ⟨row, hrow⟩ := Int.eq_ofNat_of_zero_le hinside.2.1
    have hx' : (column : Int) - dx = x := by omega
    have hy' : (row : Int) - dy = y := by omega
    rw [Int.sub_neg, Int.sub_neg, hcolumn, hrow, Frame.pixelAt?_natCast,
      hmoved column (by omega) row (by omega), Option.getD_some, movedPixel, hx', hy',
      Frame.pixelAt?_natCast, hpixel, Option.getD_some]
  · rw [if_neg hinside, movedPixel_of_outside (by rwa [hcontains])]

theorem shakeBy_zero (hf : f.validate = .ok ()) : shakeBy f 0 0 = .ok f := by
  obtain ⟨g, hshaken, hshape, hmoved⟩ := exists_shakeBy hf 0 0
  have hsize := (f.validate_eq_ok_iff.mp hf).1
  have hdata : g.data = f.data := by
    apply Frame.eq_of_bytes (hshape.bytes.trans hsize) hsize
    intro x hx y hy channel hchannel
    have hpixel := hmoved x hx y hy
    rw [movedPixel, Int.sub_zero, Int.sub_zero, Frame.pixelAt?_natCast, Frame.pixel?, Frame.pixel?, hshape.width,
      hshape.height, if_pos ⟨hx, hy⟩, if_pos ⟨hx, hy⟩, Option.getD_some] at hpixel
    rw [← Frame.channel_colorAt _ _ hchannel, ← Frame.channel_colorAt _ _ hchannel, Option.some.inj hpixel]
  obtain ⟨width, height, data⟩ := g
  obtain rfl : width = f.width := hshape.width
  obtain rfl : height = f.height := hshape.height
  obtain rfl : data = f.data := hdata
  exact hshaken

-- A shake is a move by an offset that is drawn; the frame is not looked at before.
theorem exists_offset_of_shake (f : Frame) {intensity : Nat} (hintensity : intensity ≤ 2 ^ 31 - 1)
    (source : Source) :
    ∃ dx dy after, |dx| ≤ (intensity : Int) ∧ |dy| ≤ (intensity : Int) ∧
      shake f intensity source = (shakeBy f dx dy, after) := by
  have hrange (source : Source) : ∃ (d : Int) (after : Source), |d| ≤ (intensity : Int) ∧
      Source.integer (-intensity) intensity source = (.ok d, after) := by
    obtain ⟨d, after, hd⟩ := (Source.failsOnly_integer (-intensity) intensity).exists_ok source
    have hbounds := Source.gives_integer (by omega) (by omega) (by omega) source d after hd
    exact ⟨d, after, abs_le.mpr hbounds, hd⟩
  obtain ⟨dx, between, hdx, hfirst⟩ := hrange source
  obtain ⟨dy, after, hdy, hsecond⟩ := hrange between
  refine ⟨dx, dy, after, hdx, hdy, ?_⟩
  rw [shake, if_neg (by omega), Act.run_bind_ok _ hfirst, Act.run_bind_ok _ hsecond, Act.run_check]

theorem shake_zero (hf : f.validate = .ok ()) (source : Source) : shake f 0 source = (.ok f, source) := by
  rw [← shakeBy_zero hf]
  rfl

-- Moving a frame puts every pixel where its offset leads and nothing anywhere else; a shake is such a move.
theorem shake_is_translation (hf : f.validate = .ok ()) :
    (∀ dx dy, ∃ g, shakeBy f dx dy = .ok g ∧ g.SameShape f ∧
      (∀ x < f.width, ∀ y < f.height,
        g.pixel? x y = some ((f.pixelAt? (x - dx) (y - dy)).getD .transparent)) ∧
      (∀ y < f.height, ∀ span ∈ coveredSpan? f dx dy y,
        span.source + span.length ≤ f.data.size ∧ span.target + span.length ≤ g.data.size) ∧
      ∃ back, shakeBy g (-dx) (-dy) = .ok back ∧ back.SameShape f ∧ ∀ x < f.width, ∀ y < f.height,
        back.pixel? x y = if f.contains (x + dx) (y + dy) then f.pixel? x y else some .transparent) ∧
    (∀ intensity : Nat, intensity ≤ 2 ^ 31 - 1 → ∀ source, ∃ dx dy after,
      |dx| ≤ (intensity : Int) ∧ |dy| ≤ (intensity : Int) ∧
      shake f intensity source = (shakeBy f dx dy, after)) ∧
    ∀ source, shake f 0 source = (.ok f, source) := by
  refine ⟨fun dx dy => ?_, fun intensity hintensity => exists_offset_of_shake f hintensity, shake_zero hf⟩
  have hsize := (f.validate_eq_ok_iff.mp hf).1
  obtain ⟨g, hshaken, hshape, hmoved⟩ := exists_shakeBy hf dx dy
  obtain ⟨back, hback, hbackShape, hreturned⟩ := exists_shakeBy (hshape.validate_eq.trans hf) (-dx) (-dy)
  refine ⟨g, hshaken, hshape, hmoved, ?_, back, hback, hbackShape.trans hshape, ?_⟩
  · intro y hy span hspan
    rw [hshape.bytes]
    exact bounds_of_mem_coveredSpan? hsize hy hspan
  · intro x hx y hy
    rw [hreturned x (hshape.width ▸ hx) y (hshape.height ▸ hy)]
    exact movedPixel_back hshape hmoved hx hy

-- Four pixels in a square.
def tile : Frame := ⟨2, 2, Array.ofFn fun k : Fin 16 => (k + 1 : Nat).toUInt8⟩

-- Moved to the right and up, one pixel of four stays inside, and it alone comes back.
theorem shake_is_translation_tile :
    tile.validate = .ok () ∧
    ∃ g, shakeBy tile 1 (-1) = .ok g ∧ g.pixel? 1 0 = some ⟨9, 10, 11, 12⟩ ∧
      g.pixel? 0 0 = some .transparent ∧
      ∃ back, shakeBy g (-1) 1 = .ok back ∧ back.pixel? 0 1 = some ⟨9, 10, 11, 12⟩ ∧
        back.pixel? 1 1 = some .transparent := by
  have hvalid : tile.validate = .ok () := by decide +kernel
  obtain ⟨g, hshaken, _, hpixel, _, back, hback, _, hreturned⟩ := (shake_is_translation hvalid).1 1 (-1)
  refine ⟨hvalid, g, hshaken, ?_, ?_, back, hback, ?_, ?_⟩
  · rw [hpixel 1 (by decide) 0 (by decide)]
    decide +kernel
  · rw [hpixel 0 (by decide) 0 (by decide)]
    decide +kernel
  · rw [hreturned 0 (by decide) 1 (by decide)]
    decide +kernel
  · rw [hreturned 1 (by decide) 1 (by decide)]
    decide +kernel

end Effect

end ParticleFx
