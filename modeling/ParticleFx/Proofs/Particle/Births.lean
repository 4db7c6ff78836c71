import ParticleFx.Proofs.Particle.Draws

namespace ParticleFx

-- One particle as it is brought forth: where the emitter stood, what was drawn, and where the draw
-- left the source.
structure Birth where
  place : Vec2
  particle : Particle
  source : Source
deriving DecidableEq

-- The draws for a particle do not depend on the place that it is drawn for.
theorem Particle.spawn_elsewhere {t : Template} {place : Vec2} {source next : Source} {p : Particle}
    (h : spawn t place source = (.ok p, next)) (place' : Vec2) :
    ∃ position, spawn t place' source = (.ok { p with position }, next) ∧
      (place = place' → position = p.position) := by
  obtain ⟨dx, s₁, hdx, h⟩ := Act.run_bind_eq_ok.mp h
  obtain ⟨dy, s₂, hdy, h⟩ := Act.run_bind_eq_ok.mp h
  obtain ⟨vx, s₃, hvx, h⟩ := Act.run_bind_eq_ok.mp h
  obtain ⟨vy, s₄, hvy, h⟩ := Act.run_bind_eq_ok.mp h
  obtain ⟨life, s₅, hlife, h⟩ := Act.run_bind_eq_ok.mp h
  obtain ⟨size, s₆, hsize, h⟩ := Act.run_bind_eq_ok.mp h
  obtain ⟨rotation, s₇, hrotation, h⟩ := Act.run_bind_eq_ok.mp h
  obtain ⟨rfl, rfl⟩ : _ = p ∧ s₇ = next := by simpa using h
  refine ⟨⟨place'.x + dx, place'.y + dy⟩, ?_, ?_⟩
  · rw [spawn, Act.run_bind_ok _ hdx, Act.run_bind_ok _ hdy, Act.run_bind_ok _ hvx,
      Act.run_bind_ok _ hvy, Act.run_bind_ok _ hlife, Act.run_bind_ok _ hsize,
      Act.run_bind_ok _ hrotation, Act.run_pure]
  · rintro rfl
    rfl

theorem Particle.spawn_alike {t : Template} {place place' : Vec2} {source next next' : Source}
    {p p' : Particle} (h : spawn t place source = (.ok p, next))
    (h' : spawn t place' source = (.ok p', next')) :
    p' = { p with position := p'.position } ∧ (place = place' → p'.position = p.position) ∧
      next' = next := by
  obtain ⟨position, helsewhere, hposition⟩ := spawn_elsewhere h place'
  obtain ⟨hparticle, hnext⟩ := Prod.mk.inj (h'.symm.trans helsewhere)
  obtain rfl := Except.ok.inj hparticle
  exact ⟨rfl, hposition, hnext⟩

-- Births by a template, one after the other, from one place of a source to another.
inductive Spawned (t : Template) : Source → List Birth → Source → Prop
  | nil {source : Source} : Spawned t source [] source
  | cons {source final : Source} {b : Birth} {births : List Birth}
      (h : Particle.spawn t b.place source = (.ok b.particle, b.source))
      (rest : Spawned t b.source births final) : Spawned t source (b :: births) final

namespace Spawned

variable {t : Template} {source mid final final' : Source} {births births' : List Birth}

theorem append (h : Spawned t source births mid) (h' : Spawned t mid births' final) :
    Spawned t source (births ++ births') final := by
  induction h with
  | nil => exact h'
  | cons hspawn _ ih => exact .cons hspawn (ih h')

-- Births from the same place of a source are alike as far as both lists go, but for the places.
theorem alike (h : Spawned t source births final) (h' : Spawned t source births' final') {k : Nat}
    {b b' : Birth} (hk : births[k]? = some b) (hk' : births'[k]? = some b') :
    b'.particle = { b.particle with position := b'.particle.position } ∧
    (b.place = b'.place → b'.particle.position = b.particle.position) ∧ b'.source = b.source := by
  induction h generalizing births' k with
  | nil => simp at hk
  | cons hspawn _ ih =>
      cases h' with
      | nil => simp at hk'
      | cons hspawn' rest' =>
          have halike := Particle.spawn_alike hspawn hspawn'
          cases k with
          | zero =>
              obtain rfl := by simpa using hk
              obtain rfl := by simpa using hk'
              exact halike
          | succ k =>
              rw [halike.2.2] at rest'
              exact ih rest' hk hk'

theorem final_eq (h : Spawned t source births final) (h' : Spawned t source births' final')
    (hlength : births.length = births'.length) : final = final' := by
  induction h generalizing births' with
  | nil =>
      cases h' with
      | nil => rfl
      | cons _ _ => simp at hlength
  | cons hspawn _ ih =>
      cases h' with
      | nil => simp at hlength
      | cons hspawn' rest' =>
          rw [(Particle.spawn_alike hspawn hspawn').2.2] at rest'
          exact ih rest' (Nat.succ.inj hlength)

end Spawned

-- A call that draws its particles by the template alone.
def SystemStep.Plain : SystemStep → Prop
  | moveTo _ | emit _ | update _ => True
  | emitRadial _ => False

namespace ParticleSystem

variable {s t first : ParticleSystem} {step : SystemStep} {place : Vec2} {source final : Source}
  {litter : List (Act Source Particle)} {particles : List Particle} {moments : List Moment}

-- The births of a litter, up to the first draw that fails.
def birthsAt (place : Vec2) : List (Act Source Particle) → Source → List Birth
  | [], _ => []
  | x :: rest, source =>
      match x source with
      | (.ok particle, next) => ⟨place, particle, next⟩ :: birthsAt place rest next
      | (.error _, _) => []

-- The births of all calls, each made to the system that the calls before it have left.
def births : ParticleSystem → List Moment → List Birth
  | _, [] => []
  | s, m :: rest => birthsAt s.emitter (s.litter m.step) s.source ++ births (m.step.act s).2 rest

theorem map_particle_birthsAt (place : Vec2) (h : litter.mapM id source = (.ok particles, final)) :
    (birthsAt place litter source).map Birth.particle = particles := by
  induction litter generalizing source particles with
  | nil =>
      obtain ⟨rfl, _⟩ : [] = particles ∧ source = final := by simpa using h
      rfl
  | cons x rest ih =>
      obtain ⟨p, next, others, hx, hrest, rfl⟩ := Act.run_mapM_cons_eq_ok h
      simp only [birthsAt, hx, List.map_cons, ih hrest]

theorem spawned_birthsAt {t : Template} (hlitter : ∀ x ∈ litter, x = Particle.spawn t place)
    (h : litter.mapM id source = (.ok particles, final)) :
    Spawned t source (birthsAt place litter source) final := by
  induction litter generalizing source particles with
  | nil =>
      obtain ⟨_, rfl⟩ : [] = particles ∧ source = final := by simpa using h
      exact .nil
  | cons x rest ih =>
      obtain ⟨p, next, others, hx, hrest, rfl⟩ := Act.run_mapM_cons_eq_ok h
      obtain ⟨rfl, hothers⟩ := List.forall_mem_cons.mp hlitter
      simp only [birthsAt, hx]
      exact .cons hx (ih hothers hrest)

theorem litter_of_plain (h : step.Plain) :
    ∀ x ∈ s.litter step, x = Particle.spawn s.config.particle s.emitter := by
  intro x hx
  rcases mem_litter hx with hspawn | ⟨count, i, hstep, _⟩
  · exact hspawn
  · rw [hstep] at h
    exact h.elim

-- A call that comes back has drawn its whole litter.
theorem litter_of_returned (hreturned : Returned (step.act s).1) :
    (s.litter step).mapM id s.source = (.ok (s.born step), (step.act s).2.source) := by
  have hdraws := act_draws (not_not.mp fun hroom => act_of_full hroom hreturned)
  obtain ⟨particles, hparticles⟩ := hdraws.returned_iff.mp hreturned
  rw [born, hparticles, hdraws.source, ← hparticles]

theorem births_concat (s : ParticleSystem) (past : List Moment) (m : Moment) :
    births s (past ++ [m]) = births s past ++ births (past.foldl (fun s m => (m.step.act s).2) s) [m] := by
  induction past generalizing s with
  | nil => simp [births]
  | cons m' rest ih => simp only [List.cons_append, births, ih, List.foldl_cons, List.append_assoc]

namespace Life

-- A life ends where its calls lead when they are made again.
theorem eq_foldl (life : Life first moments s) :
    moments.foldl (fun s m => (m.step.act s).2) first = s := by
  induction life with
  | start => rfl
  | call _ h _ ih => rw [List.foldl_concat, ih, h]

theorem map_particle_births (life : Life first moments s) :
    (births first moments).map Birth.particle = moments.flatMap Moment.born := by
  induction life with
  | start => rfl
  | @call _ s t step answer life h hreturned ih =>
      rw [show answer = (step.act s).1 by rw [h]] at hreturned
      rw [births_concat, List.map_append, ih, life.eq_foldl, births, births, List.append_nil,
        map_particle_birthsAt _ (litter_of_returned hreturned), List.flatMap_append]
      simp

theorem spawned (life : Life first moments s) (hplain : ∀ m ∈ moments, m.step.Plain) :
    Spawned first.config.particle first.source (births first moments) s.source := by
  induction life with
  | start => exact .nil
  | @call _ s t step answer life h hreturned ih =>
      rw [List.forall_mem_append, List.forall_mem_singleton] at hplain
      rw [show answer = (step.act s).1 by rw [h]] at hreturned
      have hlitter := litter_of_plain (s := s) hplain.2
      have hdrawn := litter_of_returned hreturned
      rw [h] at hdrawn
      rw [life.config_eq] at hlitter
      rw [births_concat, life.eq_foldl, births, births, List.append_nil]
      exact (ih hplain.1).append (spawned_birthsAt hlitter hdrawn)

end Life

-- One particle a second, scattered in place and speed.
def scattering : ParticleSystem where
  config := { rate := 1, particle := { spread := 2, velocityRandom := ⟨0, 3⟩ } }
  emitter := .zero
  particles := #[]
  sinceEmit := 0
  source := .ofSeed 0

end ParticleSystem

end ParticleFx
