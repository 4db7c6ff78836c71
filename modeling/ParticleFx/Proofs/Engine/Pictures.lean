import ParticleFx.Proofs.Engine.Readiness
import ParticleFx.Proofs.Frame.Layers

namespace ParticleFx.Engine

-- A system that cannot be drawn holds a particle that is too large for the arithmetic.
theorem exists_large_of_draw_error {f : Frame} {s : ParticleSystem} {fault : Fault} (hf : f.validate = .ok ())
    (h : s.draw f = .error fault) : ∃ p ∈ s.particles.toList, p.Centered f ∧ 2 ^ 31 ≤ p.radius := by
  by_contra hnone
  have hsmall : ∀ p ∈ s.particles.toList, p.Centered f → p.radius ≤ 2 ^ 31 - 1 := fun p hp hcenter => by
    by_contra hlarge
    exact hnone ⟨p, hp, hcenter, by omega⟩
  obtain ⟨g, hg⟩ := Particle.exists_foldlM_draw hf hsmall
  cases h.symm.trans hg

-- Neither effects nor particles change the shape of a frame. Particles are drawn by strokes that all fall on
-- it, and whatever the radius of a circle, the bytes of the pixels that it visits are there. So every picture
-- is as valid as its base, and the one that is kept is valid too.
theorem composites_keep_shape :
    (∀ (f : Frame) previous request source g source', f.validate = .ok () →
      Effect.apply f previous request source = (.ok g, source') →
      g.validate = .ok () ∧ g.width = f.width ∧ g.height = f.height) ∧
    (∀ (f : Frame) (s : ParticleSystem),
      (∀ g, s.draw f = .ok g →
        (g.width = f.width ∧ g.height = f.height ∧ g.data.size = f.data.size) ∧
        Stroke.Laid (s.strokes f) f.data g.data) ∧
      ∀ fault, s.draw f = .error fault → fault = .aborted ∧
        (f.validate = .ok () → ∃ p ∈ s.particles.toList, p.Centered f ∧ 2 ^ 31 ≤ p.radius)) ∧
    (∀ (f : Frame) cx cy radius x y, f.validate = .ok () → (x, y) ∈ Frame.box f.width f.height cx cy radius →
      ∀ c data, data.size = f.data.size → ∃ data', Frame.layAt f.width c x y data = .ok data') ∧
    ∀ seed calls e, Run (.ofSeed seed) calls e →
      (∀ base frame e', render base e = (.ok frame, e') →
        frame.validate = .ok () ∧ frame.width = base.width ∧ frame.height = base.height) ∧
      ∀ before ∈ e.previous, before.validate = .ok () := by
  refine ⟨?_, ?_, ?_, ?_⟩
  · intro f previous request source g source' hf happly
    have hshape := Effect.gives_apply f previous request source g source' happly
    exact ⟨by rw [hshape.validate_eq, hf], hshape.width, hshape.height⟩
  · intro f s
    refine ⟨fun g hg => ?_, fun fault hfault => ⟨?_, fun hf => exists_large_of_draw_error hf hfault⟩⟩
    · have hshape := ParticleSystem.draw_sameShape hg
      exact ⟨⟨hshape.width, hshape.height, hshape.bytes⟩, (ParticleSystem.laid_draw hg).1⟩
    · exact ErrsOnly.foldlM (Particle.errsOnly_draw (p := (· = .aborted)) rfl) _ _ fault hfault
  · intro f cx cy radius x y hf hbox c data hdata
    obtain ⟨hsize, hcount⟩ := f.validate_eq_ok_iff.mp hf
    obtain ⟨⟨_, _, hx⟩, _, _, hy⟩ := Frame.mem_box.mp hbox
    exact Frame.exists_layAt hcount (hdata.trans hsize) hx hy
  · intro seed calls e run
    refine ⟨?_, run.ready.previous⟩
    intro base frame e' hrender
    obtain ⟨hbase, hshape⟩ := render_sameShape hrender
    exact ⟨by rw [hshape.validate_eq, hbase], hshape.width, hshape.height⟩

-- A particle larger than the frame it is drawn on.
def planet (size : Float) : ParticleSystem where
  config := { rate := 0 }
  emitter := .zero
  particles := #[{
    position := ⟨0, 0⟩, velocity := .zero, acceleration := .zero, lifetime := 1, maxLifetime := 1
    color := .white, size, rotation := 0, angularVelocity := 0 }]
  sinceEmit := 0
  source := .ofSeed 0

-- An engine with a picture behind it that blurs what comes next and lets it glow.
def glowing : Engine :=
  let rendered := (Operation.run (.render (.blank 1 1)) (.ofSeed 0)).2
  let blurring := (Operation.run (.addEffect (.motionBlur {})) rendered).2
  (Operation.run (.addEffect (.glow { radius := 3 })) blurring).2

-- A picture before, a glitch and a glow, and a particle that covers the whole of a small frame; one that is
-- too large for its square to be a word is not drawn.
theorem composites_keep_shape_planet :
    (∃ g source, Effect.apply (.blank 2 1) none (.glitch {}) (.ofSeed 0) = (.ok g, source) ∧
      g.validate = .ok ()) ∧
    ((planet 5).strokes (.blank 2 1) = [⟨0, .white⟩, ⟨1, .white⟩] ∧
      (planet 5).draw (.blank 2 1) = .ok (.filled 2 1 .white) ∧
      Stroke.Laid ((planet 5).strokes (.blank 2 1)) (Frame.blank 2 1).data (Frame.filled 2 1 .white).data) ∧
    ((planet 4294967295).draw (.blank 2 1) = .error .aborted ∧
      ∃ p ∈ (planet 4294967295).particles.toList, p.Centered (.blank 2 1) ∧ 2 ^ 31 ≤ p.radius) ∧
    (∃ data', Frame.layAt 2 .white 1 0 (Frame.blank 2 1).data = .ok data') ∧
    ∃ calls e, Run (.ofSeed 0) calls e ∧ e.previous.map Frame.width = some 1 ∧
      (∀ before ∈ e.previous, before.validate = .ok ()) ∧
      ∃ frame e', render (.blank 2 1) e = (.ok frame, e') ∧ frame.validate = .ok () ∧
        frame.width = 2 ∧ frame.height = 1 := by
  obtain ⟨happly, hdraw, hlay, hrun⟩ := composites_keep_shape
  have hdrawn : (planet 5).draw (.blank 2 1) = .ok (.filled 2 1 .white) := by decide +kernel
  refine ⟨?_, ⟨by decide +kernel, hdrawn, ((hdraw _ _).1 _ hdrawn).2⟩, ?_, ?_, ?_⟩
  · obtain ⟨g, source, h⟩ := Act.exists_ok_of_isOk
      (show (Effect.apply (.blank 2 1) none (.glitch {}) (.ofSeed 0)).1.isOk = true by decide +kernel)
    exact ⟨g, source, h, (happly _ _ _ _ g source rfl h).1⟩
  · have hfailed : (planet 4294967295).draw (.blank 2 1) = .error .aborted := by decide +kernel
    exact ⟨hfailed, ((hdraw _ _).2 _ hfailed).2 rfl⟩
  · exact hlay (.blank 2 1) 0 0 4294967295 1 0 rfl (by decide +kernel) .white _ rfl
  · have run : Run (.ofSeed 0) _ glowing :=
      ((Run.nil.perform (.render (.blank 1 1))).perform (.addEffect (.motionBlur {}))).perform
        (.addEffect (.glow { radius := 3 }))
    obtain ⟨hpictures, hprevious⟩ := hrun 0 _ _ run
    obtain ⟨frame, e', h⟩ :=
      Act.exists_ok_of_isOk (show (render (.blank 2 1) glowing).1.isOk = true by decide +kernel)
    exact ⟨_, _, run, rfl, hprevious, frame, e', h, hpictures (.blank 2 1) frame e' h⟩

end ParticleFx.Engine
