import ParticleFx.Proofs.Action
import ParticleFx.Proofs.Frame.Shape

namespace ParticleFx

theorem fold_eq_foldl_range {α : Type} (count : Nat) (step : Nat → α → α) (a : α) :
    count.fold (fun i _ a => step i a) a = (List.range count).foldl (fun a i => step i a) a := by
  induction count with
  | zero => rfl
  | succ count ih =>
      rw [Nat.fold_succ, ih, List.range_succ, List.foldl_append]
      rfl

-- A color that is laid over one pixel.
structure Stroke where
  place : Nat
  color : Color
deriving DecidableEq

namespace Stroke

def lay (data : Array UInt8) (stroke : Stroke) : Array UInt8 :=
  Frame.putColor data stroke.place ((Frame.colorAt data stroke.place).overlay stroke.color)

@[simp] theorem size_lay (data : Array UInt8) (stroke : Stroke) :
    (stroke.lay data).size = data.size := Frame.size_putColor _ _ _

theorem size_foldl_lay (strokes : List Stroke) (data : Array UInt8) :
    (strokes.foldl lay data).size = data.size := by
  induction strokes generalizing data with
  | nil => rfl
  | cons stroke rest ih => rw [List.foldl_cons, ih, size_lay]

-- The strokes are laid one after the other. Each reads and writes the four bytes of its pixel, which are
-- there.
structure Laid (strokes : List Stroke) (data data' : Array UInt8) : Prop where
  inside : ∀ stroke ∈ strokes, 4 * stroke.place + 3 < data.size
  eq : data' = strokes.foldl lay data

namespace Laid

variable {strokes rest : List Stroke} {data mid data' : Array UInt8}

theorem size (h : Laid strokes data data') : data'.size = data.size := by
  rw [h.eq, size_foldl_lay]

theorem nil (data : Array UInt8) : Laid [] data data := ⟨nofun, rfl⟩

theorem append (hfirst : Laid strokes data mid) (hrest : Laid rest mid data') :
    Laid (strokes ++ rest) data data' := by
  refine ⟨fun stroke hstroke => ?_, ?_⟩
  · rcases List.mem_append.mp hstroke with h | h
    · exact hfirst.inside stroke h
    · exact hfirst.size ▸ hrest.inside stroke h
  · rw [List.foldl_append, ← hfirst.eq]
    exact hrest.eq

-- A run whose steps each lay their strokes lays them all.
theorem foldlM {α : Type} {step : Array UInt8 → α → Except Fault (Array UInt8)} {strokes : α → List Stroke}
    {l : List α} (hstep : ∀ a ∈ l, ∀ data data', step data a = .ok data' → Laid (strokes a) data data')
    (h : l.foldlM step data = .ok data') : Laid (l.flatMap strokes) data data' := by
  induction l generalizing data with
  | nil =>
      obtain rfl := Except.ok.inj h
      exact .nil data
  | cons a rest ih =>
      rw [List.foldlM_cons] at h
      obtain ⟨mid, hmid, h⟩ := bind_eq_ok_iff.mp h
      obtain ⟨hfirst, hothers⟩ := List.forall_mem_cons.mp hstep
      exact (hfirst data mid hmid).append (ih hothers h)

end Laid

end Stroke

namespace Frame

-- A pixel belongs to the circle when its whole offset from the center is at most the radius long.
def inCircle (cx cy : Int) (radius x y : Nat) : Bool :=
  decide ((x - cx) * (x - cx) + (y - cy) * (y - cy) ≤ (radius * radius : Int))

-- The pixels of a frame that are in the box around the circle, row after row.
def box (width height : Nat) (cx cy : Int) (radius : Nat) : List (Nat × Nat) :=
  let x0 := (cx - radius).toNat
  let x1 := (min (cx + radius + 1) width).toNat
  let y0 := (cy - radius).toNat
  let y1 := (min (cy + radius + 1) height).toNat
  (List.range' y0 (y1 - y0)).flatMap fun y => (List.range' x0 (x1 - x0)).map fun x => (x, y)

-- The places of all of the circle that is inside the frame, row after row.
def circlePlaces (width height : Nat) (cx cy : Int) (radius : Nat) : List Nat :=
  ((box width height cx cy radius).filter fun (x, y) => inCircle cx cy radius x y).map
    fun (x, y) => y * width + x

variable {width height radius place : Nat} {cx cy : Int}

theorem place_lt {x y : Nat} (hx : x < width) (hy : y < height) : y * width + x < width * height := by
  calc y * width + x
      < y * width + width := Nat.add_lt_add_left hx _
    _ = (y + 1) * width := (Nat.succ_mul _ _).symm
    _ ≤ height * width := Nat.mul_le_mul_right width hy
    _ = width * height := Nat.mul_comm _ _

theorem mem_box {x y : Nat} :
    (x, y) ∈ box width height cx cy radius ↔
      (cx - radius ≤ x ∧ x ≤ cx + radius ∧ x < width) ∧ cy - radius ≤ y ∧ y ≤ cy + radius ∧ y < height := by
  simp only [box, List.mem_flatMap, List.mem_map, List.mem_range'_1, Prod.mk.injEq]
  constructor
  · rintro ⟨_, hy, _, hx, rfl, rfl⟩
    omega
  · rintro ⟨hx, hy⟩
    exact ⟨y, by omega, x, by omega, rfl, rfl⟩

theorem lt_of_mem_circlePlaces (h : place ∈ circlePlaces width height cx cy radius) :
    place < width * height := by
  obtain ⟨⟨x, y⟩, hcell, rfl⟩ := List.mem_map.mp h
  obtain ⟨⟨_, _, hx⟩, _, _, hy⟩ := mem_box.mp (List.mem_filter.mp hcell).1
  exact place_lt hx hy

def circleStrokes (width height : Nat) (cx cy : Int) (radius : Nat) (c : Color) : List Stroke :=
  if c.a = 0 then [] else (circlePlaces width height cx cy radius).map (Stroke.mk · c)

theorem lt_of_mem_circleStrokes {c : Color} {stroke : Stroke}
    (h : stroke ∈ circleStrokes width height cx cy radius c) : stroke.place < width * height := by
  rw [circleStrokes] at h
  split at h
  · cases h
  · obtain ⟨place, hplace, rfl⟩ := List.mem_map.mp h
    exact lt_of_mem_circlePlaces hplace

theorem circleStrokes_of_empty {c : Color} (h : c.a = 0 ∨ width = 0 ∨ height = 0) :
    circleStrokes width height cx cy radius c = [] := by
  rcases h with hclear | hempty
  · exact if_pos hclear
  · apply List.eq_nil_iff_forall_not_mem.mpr
    intro stroke hstroke
    have hlt := lt_of_mem_circleStrokes hstroke
    rcases hempty with hempty | hempty <;> simp [hempty] at hlt

-- What is laid on one pixel of the box.
def cellStrokes (width : Nat) (cx cy : Int) (radius : Nat) (c : Color) (x y : Nat) : List Stroke :=
  if inCircle cx cy radius x y then [⟨y * width + x, c⟩] else []

theorem flatMap_cellStrokes (c : Color) (cells : List (Nat × Nat)) :
    (cells.flatMap fun (x, y) => cellStrokes width cx cy radius c x y) =
      ((cells.filter fun (x, y) => inCircle cx cy radius x y).map fun (x, y) => y * width + x).map
        (Stroke.mk · c) := by
  induction cells with
  | nil => rfl
  | cons cell rest ih =>
      obtain ⟨x, y⟩ := cell
      rw [List.flatMap_cons, ih]
      dsimp only
      rw [cellStrokes, List.filter_cons]
      dsimp only
      split <;> rfl

section

variable {f g : Frame} {c : Color} {x y : Nat} {data data' : Array UInt8}

theorem laid_layAt (h : layAt width c x y data = .ok data') : Stroke.Laid [⟨y * width + x, c⟩] data data' := by
  obtain ⟨_, h⟩ := Word.bind_unsigned_eq_ok_iff.mp h
  obtain ⟨_, h⟩ := Word.bind_unsigned_eq_ok_iff.mp h
  obtain ⟨_, h⟩ := Word.bind_unsigned_eq_ok_iff.mp h
  obtain ⟨_, h⟩ := Word.bind_unsigned_eq_ok_iff.mp h
  split at h
  · obtain rfl := Except.ok.inj h
    refine ⟨fun stroke hstroke => ?_, rfl⟩
    obtain rfl := List.mem_singleton.mp hstroke
    dsimp only
    omega
  · cases h

theorem laid_visit (h : visit width cx (radius * radius) c (y - cy) x y data = .ok data') :
    Stroke.Laid (cellStrokes width cx cy radius c x y) data data' := by
  obtain ⟨_, h⟩ := Word.bind_signed_eq_ok_iff.mp h
  obtain ⟨_, h⟩ := Word.bind_signed_eq_ok_iff.mp h
  obtain ⟨_, h⟩ := Word.bind_signed_eq_ok_iff.mp h
  obtain ⟨_, h⟩ := Word.bind_signed_eq_ok_iff.mp h
  unfold cellStrokes inCircle
  split at h
  · rename_i hfar
    obtain rfl := Except.ok.inj h
    rw [if_neg (by simpa using hfar)]
    exact .nil data
  · rename_i hnear
    rw [if_pos (by simpa using hnear)]
    exact laid_layAt h

theorem laid_paintRow {x0 x1 : Nat}
    (h : paintRow width cx cy (radius * radius) c x0 x1 y data = .ok data') :
    Stroke.Laid (((List.range' x0 (x1 - x0)).map fun x => (x, y)).flatMap
      fun (x, y) => cellStrokes width cx cy radius c x y) data data' := by
  obtain ⟨_, h⟩ := Word.bind_signed_eq_ok_iff.mp h
  rw [List.flatMap_map]
  exact .foldlM (fun x _ _ _ => laid_visit) h

-- A circle that is drawn is nothing but its strokes.
theorem laid_fillCircle (h : f.fillCircle cx cy radius c = .ok g) :
    Stroke.Laid (circleStrokes f.width f.height cx cy radius c) f.data g.data ∧
      g = { f with data := g.data } := by
  unfold fillCircle at h
  split at h
  · rename_i hnone
    obtain rfl := Except.ok.inj h
    rw [circleStrokes_of_empty hnone]
    exact ⟨.nil f.data, rfl⟩
  · rename_i hsome
    obtain ⟨_, h⟩ := Word.bind_signed_eq_ok_iff.mp h
    obtain ⟨_, h⟩ := Word.bind_signed_eq_ok_iff.mp h
    obtain ⟨_, h⟩ := Word.bind_signed_eq_ok_iff.mp h
    obtain ⟨_, h⟩ := Word.bind_signed_eq_ok_iff.mp h
    obtain ⟨_, h⟩ := Word.bind_signed_eq_ok_iff.mp h
    obtain ⟨data, hdata, h⟩ := bind_eq_ok_iff.mp h
    obtain rfl := Except.ok.inj h
    refine ⟨?_, rfl⟩
    rw [circleStrokes, if_neg fun hc => hsome (.inl hc), circlePlaces, ← flatMap_cellStrokes, box,
      List.flatMap_assoc]
    exact .foldlM (fun y _ _ _ => laid_paintRow) hdata

theorem SameShape.of_laid {strokes : List Stroke} (h : Stroke.Laid strokes f.data g.data)
    (hg : g = { f with data := g.data }) : g.SameShape f := by
  rw [hg]
  exact .withData h.size

theorem fillCircle_sameShape (h : f.fillCircle cx cy radius c = .ok g) : g.SameShape f :=
  .of_laid (laid_fillCircle h).1 (laid_fillCircle h).2

end

end Frame

namespace Particle

variable {f g : Frame}

-- The strokes that a particle is drawn with; none if its center is off the frame.
def strokes (f : Frame) (p : Particle) : List Stroke :=
  let x := wholePart p.position.x
  let y := wholePart p.position.y
  if f.contains x y then
    Frame.circleStrokes f.width f.height x y p.size.toUInt32.toNat p.fadedColor
  else []

-- Where a particle is drawn depends on the dimensions alone.
theorem strokes_congr (hwidth : f.width = g.width) (hheight : f.height = g.height) (p : Particle) :
    p.strokes f = p.strokes g := by
  obtain ⟨width, height, data⟩ := f
  obtain ⟨width', height', data'⟩ := g
  obtain rfl : width = width' := hwidth
  obtain rfl : height = height' := hheight
  rfl

theorem laid_draw {p : Particle} (h : p.draw f = .ok g) :
    Stroke.Laid (p.strokes f) f.data g.data ∧ g = { f with data := g.data } := by
  unfold draw at h
  unfold strokes
  dsimp only at h ⊢
  split at h
  · rename_i hcontains
    rw [if_pos hcontains]
    exact Frame.laid_fillCircle h
  · rename_i hcontains
    obtain rfl := Except.ok.inj h
    rw [if_neg hcontains]
    exact ⟨.nil f.data, rfl⟩

theorem laid_foldlM_draw {particles : List Particle} (h : particles.foldlM draw f = .ok g) :
    Stroke.Laid (particles.flatMap (strokes f)) f.data g.data ∧ g = { f with data := g.data } := by
  induction particles generalizing f with
  | nil =>
      obtain rfl := Except.ok.inj h
      exact ⟨.nil f.data, rfl⟩
  | cons p rest ih =>
      rw [List.foldlM_cons] at h
      obtain ⟨mid, hmid, h⟩ := bind_eq_ok_iff.mp h
      obtain ⟨hfirst, hframe⟩ := laid_draw hmid
      obtain ⟨hrest, hlast⟩ := ih h
      have hshape := Frame.SameShape.of_laid hfirst hframe
      have hsame : strokes mid = strokes f :=
        funext fun q => q.strokes_congr hshape.width hshape.height
      rw [hsame] at hrest
      refine ⟨hfirst.append hrest, ?_⟩
      rw [hlast, hframe]

end Particle

namespace ParticleSystem

variable {f g : Frame} {s : ParticleSystem}

def strokes (f : Frame) (s : ParticleSystem) : List Stroke :=
  s.particles.toList.flatMap (Particle.strokes f)

-- What is drawn of a system are the strokes of its particles.
theorem laid_draw (h : s.draw f = .ok g) :
    Stroke.Laid (s.strokes f) f.data g.data ∧ g = { f with data := g.data } :=
  Particle.laid_foldlM_draw h

theorem draw_sameShape (h : s.draw f = .ok g) : g.SameShape f :=
  .of_laid (laid_draw h).1 (laid_draw h).2

end ParticleSystem

namespace Engine

variable {systems : List (SystemId × ParticleSystem)} {f g : Frame}

-- The particles of all systems, in the order in which they are drawn.
def drawn (systems : List (SystemId × ParticleSystem)) : List Particle :=
  systems.flatMap fun (_, s) => s.particles.toList

theorem drawAll_eq (systems : List (SystemId × ParticleSystem)) (f : Frame) :
    drawAll systems f = (drawn systems).foldlM Particle.draw f := by
  induction systems generalizing f with
  | nil => rfl
  | cons entry rest ih =>
      rw [drawn, List.flatMap_cons, List.foldlM_append]
      exact bind_congr ih

theorem laid_drawAll (h : drawAll systems f = .ok g) :
    Stroke.Laid ((drawn systems).flatMap (Particle.strokes f)) f.data g.data ∧
      g = { f with data := g.data } := by
  rw [drawAll_eq] at h
  exact Particle.laid_foldlM_draw h

theorem drawAll_sameShape (h : drawAll systems f = .ok g) : g.SameShape f :=
  .of_laid (laid_drawAll h).1 (laid_drawAll h).2

end Engine

end ParticleFx
