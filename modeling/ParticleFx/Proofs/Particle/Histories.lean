import ParticleFx.Proofs.Engine.Handles
import ParticleFx.Proofs.Number.Order

namespace ParticleFx

namespace Particle

variable {p : Particle} {times : List Float} {dt : Float}

-- A particle after steps of the given times.
def aged (p : Particle) (times : List Float) : Particle :=
  times.foldl (fun p dt => p.step dt) p

-- Alive after every one of the steps; nothing is asked before the first.
def Survives (p : Particle) (times : List Float) : Prop :=
  ∀ n < times.length, (p.aged (times.take (n + 1))).isAlive = true

instance (p : Particle) (times : List Float) : Decidable (p.Survives times) :=
  inferInstanceAs (Decidable (∀ n < times.length, (p.aged (times.take (n + 1))).isAlive = true))

-- What has become of a particle.
def later? (p : Particle) (times : List Float) : Option Particle :=
  if p.Survives times then some (p.aged times) else none

theorem aged_concat : p.aged (times ++ [dt]) = (p.aged times).step dt := by
  rw [aged, List.foldl_concat, aged]

theorem survives_concat :
    p.Survives (times ++ [dt]) ↔ p.Survives times ∧ ((p.aged times).step dt).isAlive = true := by
  have hlength : (times ++ [dt]).length = times.length + 1 := by simp
  have hlast : (times ++ [dt]).take (times.length + 1) = times ++ [dt] :=
    List.take_of_length_le (by omega)
  constructor
  · intro h
    refine ⟨?_, ?_⟩
    · intro n hn
      rw [← List.take_append_of_le_length (by omega)]
      exact h n (by omega)
    · have hall := h times.length (by omega)
      rwa [hlast, aged_concat] at hall
  · rintro ⟨hbefore, hnow⟩ n hn
    by_cases hn' : n = times.length
    · rw [hn', hlast, aged_concat]
      exact hnow
    · rw [List.take_append_of_le_length (by omega)]
      exact hbefore n (by omega)

theorem later?_nil : p.later? [] = some p := if_pos nofun

theorem later?_concat :
    p.later? (times ++ [dt]) = ((p.later? times).map (step dt)).filter isAlive := by
  unfold later?
  rw [aged_concat]
  by_cases hbefore : p.Survives times
  · rw [if_pos hbefore, Option.map_some]
    by_cases hnow : ((p.aged times).step dt).isAlive = true
    · rw [if_pos (survives_concat.mpr ⟨hbefore, hnow⟩), Option.filter_some_pos hnow]
    · rw [if_neg (fun h => hnow (survives_concat.mp h).2), Option.filter_some_neg (Bool.eq_false_iff.mpr hnow)]
  · rw [if_neg (fun h => hbefore (survives_concat.mp h).1), if_neg hbefore]
    rfl

-- Particle `i` of `count` of a radial burst.
def spawnRadial (t : Template) (emitter : Vec2) (count i : Nat) : Act Source Particle := do
  let speed ← Source.float ParticleSystem.burstSpeed.1 ParticleSystem.burstSpeed.2
  let p ← spawn t emitter
  return { p with velocity := (ParticleSystem.direction i count).scale speed }

end Particle

namespace ParticleSystem

variable {s t first : ParticleSystem} {step : SystemStep} {answer : Except Fault Unit} {dt : Float}

-- Whether an update finds that enough time has passed for another particle.
def emitsAfter (dt : Float) (s : ParticleSystem) : Bool :=
  match s.config.interval? with
  | none => false
  | some interval => TimeArithmetic.float.due interval (s.sinceEmit + dt)

-- The draws that a step makes new particles of. An update that is refused makes none.
def litter (s : ParticleSystem) : SystemStep → List (Act Source Particle)
  | .moveTo _ => []
  | .emit count => List.replicate count (Particle.spawn s.config.particle s.emitter)
  | .emitRadial count =>
      (List.range count).map (Particle.spawnRadial s.config.particle s.emitter count)
  | .update dt =>
      if !(!dt.isFinite || dt < 0) && s.emitsAfter dt then
        [Particle.spawn s.config.particle s.emitter]
      else []

-- The new particles themselves, drawn one after the other.
def born (s : ParticleSystem) (step : SystemStep) : List Particle :=
  match ((s.litter step).mapM id s.source).1 with
  | .ok particles => particles
  | .error _ => []

-- One call: what it was, how it was answered and which particles it brought forth.
structure Moment where
  step : SystemStep
  answer : Except Fault Unit
  born : List Particle

namespace Moment

-- The time that passes for the particles, in an update that succeeds.
def passes (m : Moment) : Option Float :=
  match m.step, m.answer with
  | .update dt, .ok () => some dt
  | _, _ => none

-- What the time of a call leaves of particles.
def leaves (m : Moment) (particles : List Particle) : List Particle :=
  match m.passes with
  | none => particles
  | some dt => (particles.map (Particle.step dt)).filter Particle.isAlive

end Moment

-- A call comes back unless it aborts.
def Returned : Except Fault Unit → Prop
  | .ok _ => True
  | .error fault => ¬fault.Aborts

instance : DecidablePred Returned
  | .ok _ => inferInstanceAs (Decidable True)
  | .error fault => inferInstanceAs (Decidable (¬fault.Aborts))

-- The calls that have been made to a system, all of which came back.
inductive Life (first : ParticleSystem) : List Moment → ParticleSystem → Prop
  | start : Life first [] first
  | call {past : List Moment} {s t : ParticleSystem} {step : SystemStep} {answer : Except Fault Unit}
      (life : Life first past s) (h : step.act s = (answer, t)) (hreturned : Returned answer) :
      Life first (past ++ [⟨step, answer, s.born step⟩]) t

-- Every particle that was ever brought forth, in that order, each with the times that have passed
-- since, the call that it came from included.
def records : List Moment → List (Particle × List Float)
  | [] => []
  | m :: rest => m.born.map (·, (m :: rest).filterMap Moment.passes) ++ records rest

-- What has become of them, each by itself.
def survivors (moments : List Moment) : List Particle :=
  (records moments).filterMap fun (p, times) => p.later? times

-- A call adds its time to every record, also to those of the particles that it brings forth.
theorem records_concat (past : List Moment) (m : Moment) :
    records (past ++ [m]) =
      (records past ++ m.born.map (·, [])).map fun (p, times) => (p, times ++ m.passes.toList) := by
  have hpasses : [m].filterMap Moment.passes = m.passes.toList := by
    cases h : m.passes <;> simp [h]
  induction past with
  | nil => simp [records, hpasses]
  | cons m' rest ih =>
      rw [List.cons_append, records, ih, records, ← List.cons_append, List.filterMap_append, hpasses]
      simp

theorem survivors_concat (past : List Moment) (m : Moment) :
    survivors (past ++ [m]) = m.leaves (survivors past ++ m.born) := by
  have hnewest : (m.born.map (·, [])).filterMap (fun (p, times) => p.later? times) = m.born := by
    simp [List.filterMap_map, Particle.later?_nil]
  rw [survivors, records_concat, List.filterMap_map, Moment.leaves]
  cases m.passes with
  | none =>
      simp only [Function.comp_def, Option.toList_none, List.append_nil]
      rw [List.filterMap_append, hnewest, survivors]
  | some dt =>
      simp only [Function.comp_def, Option.toList_some, Particle.later?_concat]
      rw [← List.filter_filterMap, ← List.map_filterMap, List.filterMap_append, hnewest, survivors]

theorem length_eq_of_mapM {litter : List (Act Source Particle)} {source : Source}
    {particles : List Particle} (h : (litter.mapM id source).1 = .ok particles) :
    particles.length = litter.length := by
  induction litter generalizing source particles with
  | nil =>
      obtain rfl := Except.ok.inj h
      rfl
  | cons x rest ih =>
      obtain ⟨p, mid, others, _, hrest, rfl⟩ := Act.run_mapM_cons_eq_ok (Prod.ext h rfl)
      rw [List.length_cons, List.length_cons, ih (congrArg Prod.fst hrest)]

-- The particles of a litter are added, and nothing else happens to the particles.
def Brings (litter : List (Act Source Particle)) (s t : ParticleSystem) : Prop :=
  ∃ particles, (litter.mapM id s.source).1 = .ok particles ∧
    t.particles.toList = s.particles.toList ++ particles

namespace Brings

variable {x : Act Source Particle} {rest : List (Act Source Particle)}

theorem nil (h : t.particles = s.particles) : Brings [] s t := ⟨[], rfl, by rw [h, List.append_nil]⟩

theorem cons {p : Particle} {source : Source} (hx : x s.source = (.ok p, source))
    (hrest : Brings rest { s with source, particles := s.particles.push p } t) :
    Brings (x :: rest) s t := by
  obtain ⟨particles, hdrawn, hparticles⟩ := hrest
  refine ⟨p :: particles, ?_, ?_⟩
  · rw [List.mapM_cons, id_eq, Act.run_bind_ok _ hx, Act.run_bind_pure, hdrawn]
    rfl
  · rw [hparticles, Array.toList_push, List.append_assoc, List.singleton_append]

theorem eq_append (h : Brings (s.litter step) s t) :
    t.particles.toList = s.particles.toList ++ s.born step := by
  obtain ⟨particles, hdrawn, hparticles⟩ := h
  rw [hparticles, born, hdrawn]

theorem length_born (h : Brings (s.litter step) s t) :
    (s.born step).length = (s.litter step).length := by
  obtain ⟨particles, hdrawn, _⟩ := h
  rw [born, hdrawn, length_eq_of_mapM hdrawn]

end Brings

theorem draws_eq_ok {α : Type} {x : ParticleSystem → Act Source α} {a : α}
    (h : draws x s = (.ok a, t)) : ∃ source, x s s.source = (.ok a, source) ∧ t = { s with source } := by
  obtain ⟨hresult, rfl⟩ := Prod.mk.inj h
  exact ⟨_, Prod.ext hresult rfl, rfl⟩

theorem emitEach_brings {count : Nat} (h : emitEach count s = (.ok (), t)) :
    Brings (List.replicate count (Particle.spawn s.config.particle s.emitter)) s t := by
  induction count generalizing s with
  | zero =>
      obtain ⟨_, rfl⟩ := Prod.mk.inj h
      exact .nil rfl
  | succ count ih =>
      obtain ⟨p, mid, hdraw, h⟩ := Act.run_bind_eq_ok.mp h
      obtain ⟨_, mid', hpush, h⟩ := Act.run_bind_eq_ok.mp h
      obtain ⟨source, hspawn, rfl⟩ := draws_eq_ok hdraw
      obtain ⟨_, rfl⟩ := Prod.mk.inj hpush
      exact .cons hspawn (ih h)

theorem emitRadialFrom_brings {count left : Nat} (hleft : left ≤ count)
    (h : emitRadialFrom count left s = (.ok (), t)) :
    Brings ((List.range' (count - left) left).map
      (Particle.spawnRadial s.config.particle s.emitter count)) s t := by
  induction left generalizing s with
  | zero =>
      obtain ⟨_, rfl⟩ := Prod.mk.inj h
      exact .nil rfl
  | succ left ih =>
      obtain ⟨speed, mid, hspeed, h⟩ := Act.run_bind_eq_ok.mp h
      obtain ⟨p, mid', hdraw, h⟩ := Act.run_bind_eq_ok.mp h
      obtain ⟨_, mid'', hpush, h⟩ := Act.run_bind_eq_ok.mp h
      obtain ⟨source, hfloat, rfl⟩ := draws_eq_ok hspeed
      obtain ⟨source', hspawn, rfl⟩ := draws_eq_ok hdraw
      obtain ⟨_, rfl⟩ := Prod.mk.inj hpush
      rw [List.range'_succ, List.map_cons, show count - (left + 1) + 1 = count - left by omega]
      refine .cons ?_ (ih (by omega) h)
      rw [Particle.spawnRadial, Act.run_bind_ok _ hfloat, Act.run_bind_ok _ hspawn]
      rfl

theorem emitDue_brings (h : emitDue dt s = (.ok (), t)) :
    Brings (if s.emitsAfter dt then [Particle.spawn s.config.particle s.emitter] else []) s t := by
  obtain ⟨_, _, hget, h⟩ := Act.run_bind_eq_ok.mp h
  cases hget
  unfold emitsAfter
  cases hinterval : s.config.interval? with
  | none =>
      rw [hinterval] at h
      obtain ⟨_, rfl⟩ := Prod.mk.inj h
      exact .nil rfl
  | some interval =>
      rw [hinterval] at h
      obtain ⟨_, _, hget, h⟩ := Act.run_bind_eq_ok.mp h
      cases hget
      obtain ⟨_, _, hwaited, h⟩ := Act.run_bind_eq_ok.mp h
      cases hwaited
      dsimp only at h ⊢
      split at h
      · rename_i hdue
        obtain ⟨_, mid, hemit, hrest⟩ := Act.run_bind_eq_ok.mp h
        obtain ⟨_, rfl⟩ := Prod.mk.inj hrest
        rw [if_pos hdue]
        exact emitEach_brings (eq_ok_of_bind_reserve hemit)
      · rename_i hdue
        obtain ⟨_, rfl⟩ := Prod.mk.inj h
        rw [if_neg hdue]
        exact .nil rfl

theorem update_brings (h : update dt s = (answer, t)) (hreturned : Returned answer) :
    ∃ mid, Brings (s.litter (.update dt)) s mid ∧
      t.particles.toList =
        Moment.leaves ⟨.update dt, answer, s.born (.update dt)⟩ mid.particles.toList := by
  by_cases hbad : (!dt.isFinite || dt < 0) = true
  · rw [update_of_bad hbad] at h
    obtain ⟨rfl, rfl⟩ := Prod.mk.inj h
    refine ⟨s, ?_, rfl⟩
    rw [litter, hbad]
    exact .nil rfl
  · cases answer with
    | error fault => exact (hreturned (update_aborts hbad s fault t h)).elim
    | ok _ =>
        rw [update, if_neg hbad] at h
        obtain ⟨_, mid, hemit, hrest⟩ := Act.run_bind_eq_ok.mp h
        obtain ⟨_, rfl⟩ := Prod.mk.inj hrest
        refine ⟨mid, ?_, ?_⟩
        · rw [litter, Bool.eq_false_iff.mpr hbad]
          exact emitDue_brings hemit
        · rw [Moment.leaves, Moment.passes, advance, Array.toList_filter, Array.toList_map]

-- Every call first brings forth its litter, and then lets its time pass.
theorem act_brings (h : step.act s = (answer, t)) (hreturned : Returned answer) :
    ∃ mid, Brings (s.litter step) s mid ∧
      t.particles.toList = Moment.leaves ⟨step, answer, s.born step⟩ mid.particles.toList := by
  cases step with
  | moveTo position =>
      obtain ⟨rfl, rfl⟩ := Prod.mk.inj h
      exact ⟨s, .nil rfl, rfl⟩
  | emit count =>
      cases answer with
      | error fault =>
          exact (hreturned (failsOnly_emit Fault.aborts_aborted count s fault t h)).elim
      | ok _ => exact ⟨t, emitEach_brings (eq_ok_of_bind_reserve h), rfl⟩
  | emitRadial count =>
      cases answer with
      | error fault =>
          exact (hreturned (failsOnly_emitRadial Fault.aborts_aborted count s fault t h)).elim
      | ok _ =>
          have hall := emitRadialFrom_brings (Nat.le_refl count) (eq_ok_of_bind_reserve h)
          rw [Nat.sub_self, ← List.range_eq_range'] at hall
          exact ⟨t, hall, rfl⟩
  | update dt => exact update_brings h hreturned

namespace Life

variable {moments : List Moment} {m : Moment}

theorem particles_eq (life : Life first moments s) (hempty : first.particles = #[]) :
    s.particles.toList = survivors moments := by
  induction life with
  | start => rw [hempty]; rfl
  | call _ h hreturned ih =>
      obtain ⟨mid, hbrings, hleaves⟩ := act_brings h hreturned
      rw [hleaves, hbrings.eq_append, ih, survivors_concat]

theorem config_eq (life : Life first moments s) : s.config = first.config := by
  induction life with
  | start => rfl
  | @call _ mid t step _ _ h _ ih =>
      have hkept := step.keeps_config mid
      rw [h] at hkept
      rw [hkept, ih]

-- The particles that a call of a life brought forth are as many as it drew.
theorem exists_litter (life : Life first moments s) (hm : m ∈ moments) :
    ∃ mid : ParticleSystem, mid.config = first.config ∧
      m.born.length = (mid.litter m.step).length := by
  induction life with
  | start => cases hm
  | @call past mid t step answer life h hreturned ih =>
      rcases List.mem_append.mp hm with hold | hnew
      · exact ih hold
      · obtain rfl := List.mem_singleton.mp hnew
        obtain ⟨_, hbrings, _⟩ := act_brings h hreturned
        exact ⟨mid, life.config_eq, hbrings.length_born⟩

-- Nothing dead is left by a call that lets time pass.
theorem alive (life : Life first moments s) (hlast : moments.getLast? = some m)
    (hpasses : m.passes = some dt) : ∀ p ∈ s.particles, p.isAlive = true := by
  cases life with
  | start => cases hlast
  | call _ h hreturned =>
      obtain rfl := by simpa using hlast
      obtain ⟨mid, _, hleaves⟩ := act_brings h hreturned
      intro p hp
      rw [Moment.leaves, hpasses] at hleaves
      rw [← Array.mem_toList_iff, hleaves] at hp
      exact (List.mem_filter.mp hp).2

end Life

theorem length_litter_update_le (s : ParticleSystem) (dt : Float) :
    (s.litter (.update dt)).length ≤ 1 := by
  unfold litter
  dsimp only
  split
  · exact Nat.le_refl 1
  · exact Nat.zero_le 1

theorem litter_update_of_rate (hrate : (s.config.rate == 0) = true) (dt : Float) :
    s.litter (.update dt) = [] := by
  have hinterval : s.config.interval? = none := if_neg (Number.not_lt_of_beq hrate)
  simp [litter, emitsAfter, hinterval]

theorem particles_of_make {config : SystemConfig} {source : Source}
    (h : make config source = .ok first) : first.particles = #[] := by
  obtain ⟨_, _, hmade⟩ := bind_eq_ok_iff.mp h
  obtain rfl := Except.ok.inj hmade
  rfl

-- The particles of a system are what has become of all that it ever brought forth, each by itself.
theorem particles_follow_histories {config : SystemConfig} {source : Source} {moments : List Moment}
    (hmake : make config source = .ok first) (life : Life first moments s) :
    s.particles.toList = survivors moments ∧
    (∀ m dt, moments.getLast? = some m → m.passes = some dt → ∀ p ∈ s.particles, p.isAlive = true) ∧
    (∀ m ∈ moments, ∀ dt, m.step = .update dt →
      m.born.length ≤ 1 ∧ ((config.rate == 0) = true → m.born = [])) ∧
    ∀ m ∈ moments, ∀ count, m.step = .emit count ∨ m.step = .emitRadial count →
      m.born.length = count := by
  refine ⟨life.particles_eq (particles_of_make hmake), fun m dt => life.alive, ?_, ?_⟩
  · intro m hm dt hstep
    obtain ⟨mid, hconfig, hborn⟩ := life.exists_litter hm
    rw [hstep] at hborn
    refine ⟨?_, ?_⟩
    · rw [hborn]
      exact length_litter_update_le mid dt
    · intro hrate
      rw [← config_of_make hmake, ← hconfig] at hrate
      rw [litter_update_of_rate hrate] at hborn
      exact List.length_eq_zero_iff.mp hborn
  · intro m hm count hstep
    obtain ⟨mid, _, hborn⟩ := life.exists_litter hm
    rcases hstep with hstep | hstep
    · rw [hborn, hstep, litter, List.length_replicate]
    · rw [hborn, hstep, litter, List.length_map, List.length_range]

theorem Life.perform {past : List Moment} (life : Life first past s) (step : SystemStep)
    (hreturned : Returned (step.act s).1) :
    Life first (past ++ [⟨step, (step.act s).1, s.born step⟩]) (step.act s).2 :=
  life.call rfl hreturned

-- Less than two seconds to live, and one particle a second.
def brief : ParticleSystem where
  config := { rate := 1, particle := { lifetime := 1.5 } }
  emitter := .zero
  particles := #[]
  sinceEmit := 0
  source := .ofSeed 0

-- A burst, an update that emits, a step backward that is refused, a radial burst, and an update that
-- emits again and that only the particles of the last two calls outlive.
theorem particles_follow_histories_brief : ∃ moments s, Life brief moments s ∧
    moments.length = 5 ∧ (records moments).length = 4 ∧ (survivors moments).length = 2 ∧
    s.particles.toList = survivors moments ∧ ∀ p ∈ s.particles, p.isAlive = true := by
  have burst := (Life.start : Life brief [] brief).perform (.emit 1) (by decide +kernel)
  have emitted := burst.perform (.update 1) (by decide +kernel)
  have refused := emitted.perform (.update (-1)) (by decide +kernel)
  have radial := refused.perform (.emitRadial 1) (by decide +kernel)
  have outlived := radial.perform (.update 1) (by decide +kernel)
  have hmake : make brief.config brief.source = .ok brief := by rfl
  obtain ⟨hparticles, halive, _, _⟩ := particles_follow_histories hmake outlived
  refine ⟨_, _, outlived, rfl, ?_, ?_, hparticles, halive _ 1 rfl ?_⟩
  · decide +kernel
  · decide +kernel
  · decide +kernel

end ParticleSystem

end ParticleFx
