import Mathlib.Algebra.Order.Ring.Abs
import Mathlib.Data.List.Nodup
import Mathlib.Tactic.Linarith
import ParticleFx.Proofs.Color.Overlay
import ParticleFx.Proofs.Frame.Strokes

namespace ParticleFx

namespace Stroke

-- What the strokes make of one pixel: those that fall on it, one over the other.
theorem colorAt_foldl_lay {strokes : List Stroke} {data : Array UInt8}
    (h : ∀ stroke ∈ strokes, 4 * stroke.place + 3 < data.size) (i : Nat) :
    Frame.colorAt (strokes.foldl lay data) i =
      ((strokes.filter (·.place = i)).map color).foldl Color.overlay (Frame.colorAt data i) := by
  induction strokes generalizing data with
  | nil => rfl
  | cons stroke rest ih =>
      obtain ⟨hfirst, hothers⟩ := List.forall_mem_cons.mp h
      rw [List.foldl_cons, ih (by rwa [size_lay]), lay, Frame.colorAt_putColor _ _ _ _ hfirst]
      by_cases hplace : stroke.place = i
      · rw [if_pos hplace, List.filter_cons_of_pos (by simpa using hplace), hplace]
        rfl
      · rw [if_neg hplace, List.filter_cons_of_neg (by simpa using hplace)]

end Stroke

namespace Frame

variable {width height radius x y x' y' : Nat} {cx cy : Int}

-- Two pixels of a frame do not share their place.
theorem place_inj (hx : x < width) (hx' : x' < width) (h : y * width + x = y' * width + x') :
    x = x' ∧ y = y' := by
  have hwidth : 0 < width := Nat.zero_lt_of_lt hx
  have hdiv := congrArg (· / width) h
  have hmod := congrArg (· % width) h
  simp only [Nat.mul_comm _ width, Nat.mul_add_div hwidth, Nat.div_eq_of_lt hx,
    Nat.div_eq_of_lt hx', Nat.mul_add_mod, Nat.mod_eq_of_lt hx, Nat.mod_eq_of_lt hx'] at hdiv hmod
  omega

-- The circle lies in its box.
theorem box_of_inCircle (h : inCircle cx cy radius x y = true) :
    cx - radius ≤ x ∧ x ≤ cx + radius ∧ cy - radius ≤ y ∧ y ≤ cy + radius := by
  have h : (x - cx) * (x - cx) + (y - cy) * (y - cy) ≤ (radius * radius : Int) := of_decide_eq_true h
  have hradius : (0 : Int) ≤ radius := by omega
  refine ⟨?_, ?_, ?_, ?_⟩ <;> nlinarith

theorem mem_circlePlaces_iff (hx : x < width) (hy : y < height) :
    y * width + x ∈ circlePlaces width height cx cy radius ↔ inCircle cx cy radius x y = true := by
  constructor
  · intro h
    obtain ⟨⟨x', y'⟩, hcell, hplace⟩ := List.mem_map.mp h
    obtain ⟨hbox, hin⟩ := List.mem_filter.mp hcell
    obtain ⟨rfl, rfl⟩ := place_inj (mem_box.mp hbox).1.2.2 hx hplace
    exact hin
  · intro hin
    obtain ⟨hleft, hright, htop, hbottom⟩ := box_of_inCircle hin
    exact List.mem_map.mpr ⟨(x, y),
      List.mem_filter.mpr ⟨mem_box.mpr ⟨⟨hleft, hright, hx⟩, htop, hbottom, hy⟩, hin⟩, rfl⟩

theorem nodup_box : (box width height cx cy radius).Nodup := by
  rw [box, List.nodup_flatMap]
  refine ⟨fun y _ => (List.nodup_range' 1).map fun x x' h => (Prod.mk.inj h).1,
    (List.nodup_range' 1).imp fun hne => ?_⟩
  intro cell hcell hcell'
  obtain ⟨x, _, rfl⟩ := List.mem_map.mp hcell
  obtain ⟨x', _, hsame⟩ := List.mem_map.mp hcell'
  exact hne (Prod.mk.inj hsame).2.symm

-- No place is visited twice.
theorem nodup_circlePlaces : (circlePlaces width height cx cy radius).Nodup := by
  refine List.Nodup.map_on ?_ (nodup_box.filter _)
  rintro ⟨x, y⟩ hcell ⟨x', y'⟩ hcell' hplace
  obtain ⟨rfl, rfl⟩ := place_inj (mem_box.mp (List.mem_filter.mp hcell).1).1.2.2
    (mem_box.mp (List.mem_filter.mp hcell').1).1.2.2 hplace
  rfl

-- A circle is laid once over each of its pixels, and over no other.
theorem filter_circlePlaces (hx : x < width) (hy : y < height) :
    (circlePlaces width height cx cy radius).filter (· = y * width + x) =
      if inCircle cx cy radius x y = true then [y * width + x] else [] := by
  rw [List.filter_eq, nodup_circlePlaces.count]
  simp only [mem_circlePlaces_iff hx hy]
  split <;> rfl

-- A color without alpha leaves the pixel as it is, so it makes no difference that it is not laid.
theorem foldl_circleStrokes (hx : x < width) (hy : y < height) (c base : Color) :
    (((circleStrokes width height cx cy radius c).filter (·.place = y * width + x)).map
      Stroke.color).foldl Color.overlay base =
      if inCircle cx cy radius x y = true then base.overlay c else base := by
  by_cases hc : c.a = 0
  · simp [circleStrokes, hc, Color.overlay]
  · have hfilter : (circleStrokes width height cx cy radius c).filter (·.place = y * width + x) =
        ((circlePlaces width height cx cy radius).filter (· = y * width + x)).map (Stroke.mk · c) := by
      rw [circleStrokes, if_neg hc, List.filter_map]
      rfl
    rw [hfilter, filter_circlePlaces hx hy]
    split <;> rfl

-- Every whole number on the way to a circle is one of 64 bits with a sign: the square of the radius,
-- the sides of the box, and the square of the distance of every pixel in the box.
structure CircleFits (cx cy : Int) (radius : Nat) : Prop where
  square : (radius * radius : Int) < 2 ^ 63
  left : -2 ^ 63 ≤ cx - radius
  right : cx + radius < 2 ^ 63
  top : -2 ^ 63 ≤ cy - radius
  bottom : cy + radius < 2 ^ 63
  distance (x y : Int) : |x - cx| ≤ radius → |y - cy| ≤ radius →
    (x - cx) * (x - cx) + (y - cy) * (y - cy) < 2 ^ 63

-- Two squares of 62 bits still leave room for the sign of their sum.
theorem circleFits {cx cy : Int} {radius : Nat} (hradius : radius ≤ 2 ^ 31 - 1) (hcx : |cx| ≤ 2 ^ 62)
    (hcy : |cy| ≤ 2 ^ 62) : CircleFits cx cy radius := by
  have hreach : (radius : Int) ≤ 2 ^ 31 - 1 := by omega
  have hsquare (d : Int) (hd : |d| ≤ radius) : d * d ≤ (2 ^ 31 - 1) * (2 ^ 31 - 1) := by
    rw [← abs_mul_abs_self]
    exact mul_le_mul (hd.trans hreach) (hd.trans hreach) (abs_nonneg d) (by norm_num)
  have hradius_square := hsquare radius (by rw [Nat.abs_cast])
  rw [abs_le] at hcx hcy
  refine ⟨by omega, by omega, by omega, by omega, by omega, fun x y hx hy => ?_⟩
  have hdx := hsquare _ hx
  have hdy := hsquare _ hy
  omega

section

variable {f g : Frame} {x y : Nat} {c : Color} {data : Array UInt8}

theorem exists_layAt (hcount : width * height * 4 < 2 ^ 64) (hdata : data.size = width * height * 4)
    (hx : x < width) (hy : y < height) : ∃ data', layAt width c x y data = .ok data' := by
  have hplace := place_lt hx hy
  rw [layAt, Word.bind_unsigned (by omega), Word.bind_unsigned (by omega), Word.bind_unsigned (by omega),
    Word.bind_unsigned (by omega), if_pos (by omega)]
  exact ⟨_, rfl⟩

-- In the box an offset is no longer than the radius, so that what bounds the radius bounds the offset.
theorem exists_visit (hfits : CircleFits cx cy radius) (hcount : width * height * 4 < 2 ^ 64)
    (hdata : data.size = width * height * 4) (hx : x < width) (hy : y < height)
    (hdx : |x - cx| ≤ radius) (hdy : |y - cy| ≤ radius) :
    ∃ data', visit width cx (radius * radius) c (y - cy) x y data = .ok data' := by
  have hdistance := hfits.distance x y hdx hdy
  have hacross : 0 ≤ (x - cx) * (x - cx) := mul_self_nonneg _
  have hdown : 0 ≤ (y - cy) * (y - cy) := mul_self_nonneg _
  have hleft := hfits.left
  have hright := hfits.right
  rw [abs_le] at hdx
  rw [visit, Word.bind_signed ⟨by omega, by omega⟩, Word.bind_signed ⟨by omega, by omega⟩,
    Word.bind_signed ⟨by omega, by omega⟩, Word.bind_signed ⟨by omega, hdistance⟩]
  split
  · exact ⟨data, rfl⟩
  · exact exists_layAt hcount hdata hx hy

theorem exists_paintRow (hfits : CircleFits cx cy radius) (hcount : width * height * 4 < 2 ^ 64)
    (hdata : data.size = width * height * 4) (hy : y < height) (hdy : |y - cy| ≤ radius) :
    ∃ data', paintRow width cx cy (radius * radius) c (cx - radius).toNat
      (min (cx + radius + 1) width).toNat y data = .ok data' ∧ data'.size = width * height * 4 := by
  have htop := hfits.top
  have hbottom := hfits.bottom
  have hrow := abs_le.mp hdy
  rw [paintRow, Word.bind_signed ⟨by omega, by omega⟩]
  refine exists_foldlM_ok (fun data : Array UInt8 => data.size = width * height * 4) ?_ hdata
  intro x hx painted hpainted
  rw [List.mem_range'_1] at hx
  obtain ⟨painted', hvisit⟩ := exists_visit (c := c) hfits hcount hpainted (x := x) (by omega) hy
    (abs_le.mpr ⟨by omega, by omega⟩) hdy
  exact ⟨painted', hvisit, (laid_visit hvisit).size.trans hpainted⟩

-- Nothing goes out of range where the circle fits.
theorem exists_fillCircle (hfits : CircleFits cx cy radius) (hf : f.validate = .ok ()) (c : Color) :
    ∃ g, f.fillCircle cx cy radius c = .ok g := by
  obtain ⟨hsize, hcount⟩ := f.validate_eq_ok_iff.mp hf
  have hpositive : (0 : Int) ≤ radius * radius := mul_self_nonneg _
  unfold fillCircle
  split
  · exact ⟨f, rfl⟩
  · rw [Word.bind_signed ⟨by omega, hfits.square⟩, Word.bind_signed ⟨hfits.top, by have := hfits.bottom; omega⟩,
      Word.bind_signed ⟨by have := hfits.top; omega, hfits.bottom⟩,
      Word.bind_signed ⟨hfits.left, by have := hfits.right; omega⟩,
      Word.bind_signed ⟨by have := hfits.left; omega, hfits.right⟩]
    have hrows : ∀ y ∈ List.range' (cy - radius).toNat
        ((min (cy + radius + 1) f.height).toNat - (cy - radius).toNat),
        ∀ painted : Array UInt8, painted.size = f.width * f.height * 4 →
          ∃ data, paintRow f.width cx cy (radius * radius) c (cx - radius).toNat
            (min (cx + radius + 1) f.width).toNat y painted = .ok data ∧
            data.size = f.width * f.height * 4 := by
      intro y hy painted hpainted
      rw [List.mem_range'_1] at hy
      exact exists_paintRow hfits hcount hpainted (by omega) (abs_le.mpr ⟨by omega, by omega⟩)
    obtain ⟨data, hdata, _⟩ :=
      exists_foldlM_ok (fun data : Array UInt8 => data.size = f.width * f.height * 4) hrows hsize
    exact ⟨{ f with data }, bind_eq_ok_iff.mpr ⟨data, hdata, rfl⟩⟩

theorem inCircle_iff :
    inCircle cx cy radius x y = true ↔ (x - cx) ^ 2 + (y - cy) ^ 2 ≤ (radius : Int) ^ 2 := by
  simp only [inCircle, decide_eq_true_eq, sq]

theorem mem_circlePlaces :
    place ∈ circlePlaces width height cx cy radius ↔
      ∃ x < width, ∃ y < height, (x - cx) ^ 2 + (y - cy) ^ 2 ≤ (radius : Int) ^ 2 ∧ place = y * width + x := by
  constructor
  · intro hplace
    have hlt := lt_of_mem_circlePlaces hplace
    have hx : place % width < width := Nat.mod_lt _ (Nat.pos_of_mul_pos_right (Nat.zero_lt_of_lt hlt))
    have hy : place / width < height := Nat.div_lt_of_lt_mul hlt
    refine ⟨place % width, hx, place / width, hy, ?_, (Nat.div_add_mod' place width).symm⟩
    rw [← inCircle_iff, ← mem_circlePlaces_iff hx hy, Nat.div_add_mod']
    exact hplace
  · rintro ⟨x, hx, y, hy, hin, rfl⟩
    exact (mem_circlePlaces_iff hx hy).mpr (inCircle_iff.mpr hin)

theorem setIfInBounds_getD (data : Array UInt8) (k : Nat) :
    data.setIfInBounds k (data.getD k 0) = data := by
  apply Array.ext Array.size_setIfInBounds
  intro i hi hi'
  rw [Array.getElem_setIfInBounds hi']
  split
  · subst_vars
    simp [Array.getD, hi']
  · rfl

theorem lay_of_clear (hc : c.a = 0) (data : Array UInt8) (place : Nat) :
    Stroke.lay data ⟨place, c⟩ = data := by
  rw [Stroke.lay, Color.overlay_of_clear hc]
  simp only [putColor, colorAt, setIfInBounds_getD]

-- A clear color may be laid over the same places as any other, since it leaves them as they are.
theorem foldl_lay_circleStrokes (c : Color) (data : Array UInt8) :
    (circleStrokes width height cx cy radius c).foldl Stroke.lay data =
      (circlePlaces width height cx cy radius).foldl (fun data place => Stroke.lay data ⟨place, c⟩) data := by
  by_cases hc : c.a = 0
  · rw [circleStrokes, if_pos hc, List.foldl_fixed' fun place => lay_of_clear hc data place]
    rfl
  · rw [circleStrokes, if_neg hc, List.foldl_map]

theorem pixel?_of_fillCircle (h : f.fillCircle cx cy radius c = .ok g) (x y : Nat) :
    g.pixel? x y = (f.pixel? x y).map fun old =>
      if (x - cx) ^ 2 + (y - cy) ^ 2 ≤ (radius : Int) ^ 2 then old.overlay c else old := by
  have hlaid := (laid_fillCircle h).1
  have hshape := fillCircle_sameShape h
  rw [pixel?, hshape.width, hshape.height, pixel?]
  split
  · rename_i hxy
    rw [hlaid.eq, Stroke.colorAt_foldl_lay hlaid.inside, foldl_circleStrokes hxy.1 hxy.2]
    simp only [inCircle_iff, Option.map_some]
  · rfl

-- A filled circle is its color laid once over every pixel of the frame that is no farther from the center
-- than the radius, wherever the center is. No number on the way leaves its word and every byte is there.
theorem circle_covers_disc_once (c : Color) (hf : f.validate = .ok ()) (hradius : radius ≤ 2 ^ 31 - 1)
    (hcx : |cx| ≤ 2 ^ 62) (hcy : |cy| ≤ 2 ^ 62) :
    ∃ g, f.fillCircle cx cy radius c = .ok g ∧ g.SameShape f ∧
      (∀ x y, g.pixel? x y = (f.pixel? x y).map fun old =>
        if (x - cx) ^ 2 + (y - cy) ^ 2 ≤ (radius : Int) ^ 2 then old.overlay c else old) ∧
      ∃ places : List Nat, places.Nodup ∧
        (∀ place, place ∈ places ↔ ∃ x < f.width, ∃ y < f.height,
          (x - cx) ^ 2 + (y - cy) ^ 2 ≤ (radius : Int) ^ 2 ∧ place = y * f.width + x) ∧
        (∀ place ∈ places, 4 * place + 3 < f.data.size) ∧
        g.data = places.foldl (fun data place => Stroke.lay data ⟨place, c⟩) f.data := by
  have hsize := (f.validate_eq_ok_iff.mp hf).1
  obtain ⟨g, hg⟩ := exists_fillCircle (circleFits hradius hcx hcy) hf c
  refine ⟨g, hg, fillCircle_sameShape hg, pixel?_of_fillCircle hg,
    circlePlaces f.width f.height cx cy radius, nodup_circlePlaces, fun _ => mem_circlePlaces, ?_, ?_⟩
  · intro place hplace
    have hlt := lt_of_mem_circlePlaces hplace
    omega
  · rw [(laid_fillCircle hg).1.eq, foldl_lay_circleStrokes]

-- The center is off the frame, and all that is seen of the disc is a cap on the left side.
theorem circle_covers_disc_once_cap :
    (filled 4 3 .black).validate = .ok () ∧ 2 ≤ 2 ^ 31 - 1 ∧ |(-1 : Int)| ≤ 2 ^ 62 ∧ |(1 : Int)| ≤ 2 ^ 62 ∧
    ∃ g, (filled 4 3 .black).fillCircle (-1) 1 2 ⟨255, 255, 255, 128⟩ = .ok g ∧
      g.pixel? 0 2 = some (.solid 128 128 128) ∧ g.pixel? 1 1 = some (.solid 128 128 128) ∧
      g.pixel? 1 2 = some .black := by
  have hf : (filled 4 3 .black).validate = .ok () := by decide +kernel
  have hradius : 2 ≤ 2 ^ 31 - 1 := by decide
  have hcx : |(-1 : Int)| ≤ 2 ^ 62 := by decide
  have hcy : |(1 : Int)| ≤ 2 ^ 62 := by decide
  obtain ⟨g, hg, _, hpixel, _⟩ := circle_covers_disc_once ⟨255, 255, 255, 128⟩ hf hradius hcx hcy
  refine ⟨hf, hradius, hcx, hcy, g, hg, ?_, ?_, ?_⟩
  · rw [hpixel]
    decide +kernel
  · rw [hpixel]
    decide +kernel
  · rw [hpixel]
    decide +kernel

end

end Frame

end ParticleFx
