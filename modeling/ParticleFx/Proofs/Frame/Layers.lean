import ParticleFx.Proofs.Frame.Circle

namespace ParticleFx

namespace Particle

variable {f : Frame} {p : Particle} {x y : Nat}

-- The pixel that a particle's center falls on, and the radius that it is drawn with.
def column (p : Particle) : Int := wholePart p.position.x

def row (p : Particle) : Int := wholePart p.position.y

def radius (p : Particle) : Nat := p.size.toUInt32.toNat

def Centered (f : Frame) (p : Particle) : Prop :=
  0 ≤ p.column ∧ p.column < f.width ∧ 0 ≤ p.row ∧ p.row < f.height

-- A particle covers the pixels within its radius, if its center is in the frame.
def Covers (f : Frame) (x y : Nat) (p : Particle) : Prop :=
  p.Centered f ∧ (x - p.column) ^ 2 + (y - p.row) ^ 2 ≤ (p.radius : Int) ^ 2

instance (f : Frame) : DecidablePred (Centered f) := fun p =>
  inferInstanceAs (Decidable (0 ≤ p.column ∧ p.column < f.width ∧ 0 ≤ p.row ∧ p.row < f.height))

instance (f : Frame) (x y : Nat) : DecidablePred (Covers f x y) := fun p =>
  inferInstanceAs (Decidable (p.Centered f ∧
    (x - p.column) ^ 2 + (y - p.row) ^ 2 ≤ (p.radius : Int) ^ 2))

theorem contains_iff : f.contains p.column p.row = true ↔ p.Centered f := by
  simp only [Frame.contains, Centered, decide_eq_true_eq]
  tauto

theorem covers_iff :
    p.Covers f x y ↔ p.Centered f ∧ Frame.inCircle p.column p.row p.radius x y = true := by
  simp only [Covers, Frame.inCircle, decide_eq_true_eq, sq]

theorem strokes_of_centered (h : p.Centered f) :
    p.strokes f = Frame.circleStrokes f.width f.height p.column p.row p.radius p.fadedColor :=
  if_pos (contains_iff.mpr h)

theorem strokes_of_not_centered (h : ¬p.Centered f) : p.strokes f = [] :=
  if_neg fun hcontains => h (contains_iff.mp hcontains)

-- What a particle makes of one pixel.
theorem foldl_strokes (hx : x < f.width) (hy : y < f.height) (base : Color) :
    (((p.strokes f).filter (·.place = y * f.width + x)).map Stroke.color).foldl Color.overlay base =
      if p.Covers f x y then base.overlay p.fadedColor else base := by
  by_cases hcenter : p.Centered f
  · rw [strokes_of_centered hcenter, Frame.foldl_circleStrokes hx hy]
    simp only [covers_iff, hcenter, true_and]
  · rw [strokes_of_not_centered hcenter, if_neg fun hcovers => hcenter hcovers.1]
    rfl

end Particle

namespace Color

-- Colors that are laid one over the other only add to the alpha.
theorem alpha_le_foldl_overlay (colors : List Color) (base : Color) :
    base.a ≤ (colors.foldl overlay base).a := by
  induction colors generalizing base with
  | nil => exact UInt8.le_refl base.a
  | cons c rest ih => exact UInt8.le_trans (alpha_le_overlay base c) (ih (base.overlay c))

end Color

namespace Particle

variable {f g : Frame} {p : Particle} {x y : Nat}

theorem circleFits (hf : f.validate = .ok ()) (hcenter : p.Centered f) (hradius : p.radius ≤ 2 ^ 31 - 1) :
    Frame.CircleFits p.column p.row p.radius := by
  obtain ⟨hleft, hright, htop, hbottom⟩ := hcenter
  have hcount : f.width * f.height * 4 < 2 ^ 64 := (f.validate_eq_ok_iff.mp hf).2
  have hwidth : f.width ≤ f.width * f.height := Nat.le_mul_of_pos_right _ (by omega)
  have hheight : f.height ≤ f.width * f.height := Nat.le_mul_of_pos_left _ (by omega)
  exact Frame.circleFits hradius (abs_le.mpr ⟨by omega, by omega⟩) (abs_le.mpr ⟨by omega, by omega⟩)

-- A particle can be drawn, if it is not too large.
theorem exists_draw (hf : f.validate = .ok ()) (hradius : p.Centered f → p.radius ≤ 2 ^ 31 - 1) :
    ∃ g, p.draw f = .ok g := by
  unfold draw
  dsimp only
  split
  · rename_i hcontains
    have hcenter := contains_iff.mp hcontains
    exact Frame.exists_fillCircle (circleFits hf hcenter (hradius hcenter)) hf _
  · exact ⟨f, rfl⟩

theorem exists_foldlM_draw (hf : f.validate = .ok ()) {particles : List Particle}
    (hradius : ∀ p ∈ particles, p.Centered f → p.radius ≤ 2 ^ 31 - 1) :
    ∃ g, particles.foldlM draw f = .ok g := by
  have hstep (p : Particle) (hp : p ∈ particles) (mid : Frame) (hmid : mid.SameShape f) :
      ∃ g, p.draw mid = .ok g ∧ g.SameShape f := by
    have hcenter : p.Centered mid → p.Centered f := by
      unfold Centered
      rw [hmid.width, hmid.height]
      exact id
    obtain ⟨g, hg⟩ := exists_draw (hmid.validate_eq.trans hf) fun h => hradius p hp (hcenter h)
    exact ⟨g, hg, (Frame.SameShape.of_laid (laid_draw hg).1 (laid_draw hg).2).trans hmid⟩
  obtain ⟨g, hg, _⟩ := exists_foldlM_ok (fun g : Frame => g.SameShape f) hstep (.refl f)
  exact ⟨g, hg⟩

-- A pixel under a list of particles: those that cover it are laid over it in turn.
theorem colorAt_of_foldlM_draw {particles : List Particle} (h : particles.foldlM draw f = .ok g)
    (hx : x < f.width) (hy : y < f.height) :
    Frame.colorAt g.data (y * f.width + x) =
      ((particles.filter (Covers f x y ·)).map fadedColor).foldl Color.overlay
        (Frame.colorAt f.data (y * f.width + x)) := by
  have hlaid := (laid_foldlM_draw h).1
  rw [hlaid.eq, Stroke.colorAt_foldl_lay hlaid.inside, List.filter_flatMap,
    List.map_flatMap, List.foldl_flatMap, List.foldl_map, List.foldl_filter]
  simp only [foldl_strokes hx hy, decide_eq_true_eq]

end Particle

namespace Engine

variable {systems : List (SystemId × ParticleSystem)} {f g : Frame} {x y : Nat}

-- The colors that are laid over a pixel, the lowest first.
def layers (systems : List (SystemId × ParticleSystem)) (f : Frame) (x y : Nat) : List Color :=
  ((drawn systems).filter (Particle.Covers f x y ·)).map Particle.fadedColor

theorem pixel?_of_drawAll (h : drawAll systems f = .ok g) (x y : Nat) :
    g.pixel? x y = (f.pixel? x y).map fun base => (layers systems f x y).foldl Color.overlay base := by
  have hshape := drawAll_sameShape h
  rw [drawAll_eq] at h
  rw [Frame.pixel?, hshape.width, hshape.height, Frame.pixel?]
  split
  · rename_i hinside
    rw [Particle.colorAt_of_foldlM_draw h hinside.1 hinside.2]
    rfl
  · rfl

-- Every pixel ends as the colors of the particles that cover it, laid over it in the order in which
-- they are drawn.
theorem pixels_are_layered (hf : f.validate = .ok ())
    (hradius : ∀ p ∈ drawn systems, p.radius ≤ 2 ^ 31 - 1) :
    ∃ g, drawAll systems f = .ok g ∧
      (∀ x y, g.pixel? x y =
        (f.pixel? x y).map fun base => (layers systems f x y).foldl Color.overlay base) ∧
      (∀ x y, (∀ p ∈ drawn systems, ¬p.Covers f x y) → g.pixel? x y = f.pixel? x y) ∧
      (∀ x y before after, f.pixel? x y = some before → g.pixel? x y = some after → before.a ≤ after.a) ∧
      ((∀ x y c, f.pixel? x y = some c → c.a = 255) → ∀ x y c, g.pixel? x y = some c → c.a = 255) ∧
      ∀ p ∈ drawn systems, p.Centered f → Frame.CircleFits p.column p.row p.radius := by
  obtain ⟨g, hg⟩ := Particle.exists_foldlM_draw hf fun p hp _ => hradius p hp
  rw [← drawAll_eq] at hg
  have hpixel := pixel?_of_drawAll hg
  have halpha : ∀ x y before after, f.pixel? x y = some before → g.pixel? x y = some after →
      before.a ≤ after.a := by
    intro x y before after hbefore hafter
    rw [hpixel, hbefore, Option.map_some] at hafter
    obtain rfl := Option.some.inj hafter
    exact Color.alpha_le_foldl_overlay _ _
  refine ⟨g, hg, hpixel, ?_, halpha, ?_, fun p hp hcenter => Particle.circleFits hf hcenter (hradius p hp)⟩
  · intro x y huncovered
    have hlayers : layers systems f x y = [] := by
      rw [layers, List.filter_eq_nil_iff.mpr (by simpa using huncovered), List.map_nil]
    rw [hpixel, hlayers]
    exact Option.map_id'
  · intro hfull x y after hafter
    obtain ⟨before, hbefore, _⟩ := Option.map_eq_some_iff.mp ((hpixel x y).symm.trans hafter)
    have hle := halpha x y before after hbefore hafter
    rw [hfull x y before hbefore] at hle
    exact UInt8.le_antisymm (Nat.le_of_lt_succ after.a.toNat_lt) hle

-- One particle, half faded.
def speck (position : Vec2) (color : Color) : ParticleSystem where
  config := {}
  emitter := position
  particles := #[{
    position
    velocity := .zero
    acceleration := .zero
    lifetime := 1
    maxLifetime := 2
    color
    size := 1.5
    rotation := 0
    angularVelocity := 0 }]
  sinceEmit := 0
  source := .ofSeed 0

-- Two neighbours, which overlap in two pixels.
def specks : List (SystemId × ParticleSystem) :=
  [(⟨0⟩, speck ⟨0.5, 0⟩ (.solid 255 0 0)), (⟨1⟩, speck ⟨1, 0⟩ (.solid 0 255 0))]

-- Both lie over the corner, green on red, and neither over the corner across.
theorem pixels_are_layered_specks :
    (Frame.filled 3 2 .black).validate = .ok () ∧ (∀ p ∈ drawn specks, p.radius ≤ 2 ^ 31 - 1) ∧
    layers specks (Frame.filled 3 2 .black) 0 0 = [⟨255, 0, 0, 128⟩, ⟨0, 255, 0, 128⟩] ∧
    ∃ g, drawAll specks (Frame.filled 3 2 .black) = .ok g ∧
      g.pixel? 0 0 = some ⟨64, 128, 0, 255⟩ ∧ g.pixel? 2 1 = some .black := by
  have hvalid : (Frame.filled 3 2 .black).validate = .ok () := by decide +kernel
  have hradius : ∀ p ∈ drawn specks, p.radius ≤ 2 ^ 31 - 1 := by decide +kernel
  have hlayers : layers specks (Frame.filled 3 2 .black) 0 0 = [⟨255, 0, 0, 128⟩, ⟨0, 255, 0, 128⟩] := by
    decide +kernel
  obtain ⟨g, hg, hpixel, huncovered, _⟩ := pixels_are_layered hvalid hradius
  refine ⟨hvalid, hradius, hlayers, g, hg, ?_, ?_⟩
  · rw [hpixel, hlayers]
    decide +kernel
  · rw [huncovered 2 1 (by decide +kernel)]
    decide +kernel

end Engine

end ParticleFx
