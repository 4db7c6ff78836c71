import ParticleFx.Proofs.Number.Magnitude
import ParticleFx.Proofs.Particle.Draws
import ParticleFx.Proofs.Scene.Validity

namespace ParticleFx

open Act (FailsOnly)

namespace Source

variable {half : Float}

-- Half of the width of a range from which on the width itself is infinite.
def tooWide : Float := Binary.toFloat ⟨false, 1, 1023⟩

theorem lt_tooWide_of_nonpos (h : half ≤ 0) : half < tooWide := by
  obtain ⟨m, e, hparts, _⟩ := Number.Parts.pow (k := 1023) (by norm_num) (by norm_num)
  exact hparts.lt_of_nonpos h

theorem jitter_of_pos (hfinite : half.isFinite = true) (h : ¬half ≤ 0) :
    jitter half = between (-half) half := by
  rw [jitter, Number.isNaN_of_isFinite hfinite, Bool.false_or, if_neg (by simpa using h)]

theorem failsOnly_jitter_of_lt {p : Fault → Prop} (hfinite : half.isFinite = true)
    (h : half < tooWide) : FailsOnly p (jitter half) := by
  by_cases hzero : half ≤ 0
  · rw [jitter, if_pos (by simp [hzero])]
    exact .pure 0
  · have hwidth := (Number.isFinite_sub_neg_iff hfinite (Number.pos_of_not_le hfinite hzero)).mpr h
    rw [jitter_of_pos hfinite hzero, between, if_pos hwidth]
    exact .bind failsOnly_doubleWord fun _ => .pure _

theorem fails_jitter (hfinite : half.isFinite = true) (h : ¬half < tooWide) : (jitter half).Fails := by
  have hzero : ¬half ≤ 0 := fun hzero => h (lt_tooWide_of_nonpos hzero)
  have hwidth := (Number.isFinite_sub_neg_iff hfinite (Number.pos_of_not_le hfinite hzero)).not.mpr h
  rw [jitter_of_pos hfinite hzero, between, if_neg hwidth]
  exact fun s => ⟨.aborted, s, rfl⟩

-- A range of a finite width can be drawn from.
theorem failsOnly_float_of_finite {p : Fault → Prop} {lo hi : Float}
    (hwidth : (hi - lo).isFinite = true) : FailsOnly p (float lo hi) := by
  rw [float]
  split
  · exact .pure lo
  · rw [between, if_pos hwidth]
    exact .bind failsOnly_doubleWord fun _ => .pure _

end Source

theorem finiteVec_eq_ok_iff {name : String} {v : Vec2} :
    finiteVec name v = .ok () ↔ v.isFinite = true := by
  rw [finiteVec]
  split <;> simp_all

theorem finiteNonneg_eq_ok_iff {name : String} {x : Float} :
    finiteNonneg name x = .ok () ↔ x.isFinite = true ∧ ¬x < 0 := by
  rw [finiteNonneg]
  split <;> simp_all

namespace Template

variable {t : Template}

-- How far the draws may stray, in the order in which they are made first.
def halves (t : Template) : List Float :=
  [t.spread, t.velocityRandom.x, t.velocityRandom.y, t.lifetimeRandom, t.sizeRandom]

-- Some draw has a range without a finite width.
def TooWide (t : Template) : Prop :=
  ∃ half ∈ t.halves, ¬half < Source.tooWide

theorem isFinite_of_validate (h : t.validate = .ok ()) : ∀ half ∈ t.halves, half.isFinite = true := by
  simp only [validate, andThen_eq_ok_iff, guarded_eq_ok_iff, finiteVec_eq_ok_iff,
    finiteNonneg_eq_ok_iff, Vec2.isFinite, Bool.and_eq_true] at h
  obtain ⟨_, _, ⟨hx, hy⟩, _, hlifetime, _, hsize, hspread, _⟩ := h
  simp [halves, hx, hy, hlifetime, hsize, hspread]

-- A particle is drawn from every template that is not too wide, ...
theorem failsOnly_spawn_of_not_tooWide {p : Fault → Prop} (h : t.validate = .ok ())
    (hwidth : ¬t.TooWide) (emitter : Vec2) : FailsOnly p (Particle.spawn t emitter) := by
  have hjitter : ∀ half ∈ t.halves, FailsOnly p (Source.jitter half) := by
    intro half hmem
    refine Source.failsOnly_jitter_of_lt (isFinite_of_validate h half hmem) ?_
    by_contra hlt
    exact hwidth ⟨half, hmem, hlt⟩
  simp only [halves, List.forall_mem_cons] at hjitter
  obtain ⟨hspread, hvx, hvy, hlifetime, hsize, _⟩ := hjitter
  have hturn : FailsOnly p (Source.float 0 360) := Source.failsOnly_float_of_finite (by decide +kernel)
  exact .bind hspread fun _ => .bind hspread fun _ => .bind hvx fun _ => .bind hvy fun _ =>
    .bind hlifetime fun _ => .bind hsize fun _ => .bind hturn fun _ => .pure _

-- ... and from no other.
theorem fails_spawn (h : t.validate = .ok ()) (hwidth : t.TooWide) (emitter : Vec2) :
    (Particle.spawn t emitter).Fails := by
  obtain ⟨half, hmem, hlt⟩ := hwidth
  have hjitter := Source.fails_jitter (isFinite_of_validate h half hmem) hlt
  simp only [halves, List.mem_cons, List.not_mem_nil, or_false] at hmem
  rcases hmem with rfl | rfl | rfl | rfl | rfl
  · exact hjitter.left _
  · exact .right _ fun _ => .right _ fun _ => hjitter.left _
  · exact .right _ fun _ => .right _ fun _ => .right _ fun _ => hjitter.left _
  · exact .right _ fun _ => .right _ fun _ => .right _ fun _ => .right _ fun _ => hjitter.left _
  · exact .right _ fun _ => .right _ fun _ => .right _ fun _ => .right _ fun _ => .right _ fun _ =>
      hjitter.left _

end Template

theorem SystemConfig.validate_eq_ok {config : SystemConfig} (h : config.validate = .ok ()) :
    config.rate.isFinite = true ∧ config.particle.validate = .ok () := by
  simp only [validate, andThen_eq_ok_iff, finiteNonneg_eq_ok_iff] at h
  exact ⟨h.2.1.1, h.2.2⟩

-- A rate up to which the time between two emissions is infinite.
def SystemConfig.tooSlow : Float := Binary.toFloat ⟨false, 1, -1024⟩

theorem SystemConfig.interval_pos {config : SystemConfig} {interval : Float}
    (h : config.rate.isFinite = true) (hinterval : config.interval? = some interval) :
    0 < interval ∧ (interval.isFinite = true ↔ tooSlow < config.rate) := by
  obtain ⟨hpos, rfl⟩ : 0 < config.rate ∧ 1 / config.rate = interval := by
    simpa [interval?] using hinterval
  exact ⟨Number.reciprocal_pos h hpos, Number.isFinite_reciprocal_iff h hpos⟩

namespace ParticleSystem

variable {s first : ParticleSystem} {config : SystemConfig} {source : Source} {moments : List Moment}

theorem validate_of_make (h : make config source = .ok first) : config.validate = .ok () := by
  obtain ⟨_, hvalid, _⟩ := bind_eq_ok_iff.mp h
  exact hvalid

theorem failsOnly_litter {p : Fault → Prop} (hvalid : s.config.particle.validate = .ok ())
    (hwidth : ¬s.config.particle.TooWide) (step : SystemStep) :
    FailsOnly p ((s.litter step).mapM id) := by
  have hspawn := Template.failsOnly_spawn_of_not_tooWide (p := p) hvalid hwidth s.emitter
  have hspeed : FailsOnly p (Source.float burstSpeed.1 burstSpeed.2) :=
    Source.failsOnly_float_of_finite (by decide +kernel)
  refine .mapM fun x hx => ?_
  rcases mem_litter hx with rfl | ⟨count, i, _, rfl⟩
  · exact hspawn
  · exact .bind hspeed fun _ => .bind hspawn fun _ => .pure _

theorem fails_litter (hvalid : s.config.particle.validate = .ok ())
    (hwidth : s.config.particle.TooWide) {step : SystemStep} (hne : s.litter step ≠ []) :
    ((s.litter step).mapM id).Fails := by
  have hspawn := Template.fails_spawn hvalid hwidth s.emitter
  refine .mapM (fun x hx => ?_) hne
  rcases mem_litter hx with rfl | ⟨count, i, _, rfl⟩
  · exact hspawn
  · exact .right _ fun _ => hspawn.left _

theorem returned_iff (hvalid : s.config.particle.validate = .ok ()) (step : SystemStep) :
    Returned (step.act s).1 ↔
      (¬s.config.particle.TooWide ∨ s.litter step = []) ∧ s.HasRoom (s.litter step).length := by
  by_cases hroom : s.HasRoom (s.litter step).length
  · rw [(act_draws hroom).returned_iff, and_iff_left hroom]
    by_cases hwidth : s.config.particle.TooWide
    · by_cases hne : s.litter step = []
      · rw [hne]
        exact iff_of_true ⟨[], rfl⟩ (.inr rfl)
      · obtain ⟨fault, source, hfault⟩ := fails_litter hvalid hwidth hne s.source
        simp [hfault, hwidth, hne]
    · obtain ⟨particles, source, hdrawn⟩ := (failsOnly_litter hvalid hwidth step).exists_ok s.source
      simp [hdrawn, hwidth]
  · exact iff_of_false (act_of_full hroom) fun h => hroom h.2

-- What acceptance leaves open: a rate may be too slow for its interval to be finite, a template too wide for
-- any particle to be drawn from it, and a burst too large for any memory. Nothing else goes wrong, in any
-- life of a system.
theorem life_aborts_iff_tooWide (hmake : make config source = .ok first)
    (life : Life first moments s) :
    (∀ interval, config.interval? = some interval →
      0 < interval ∧ (interval.isFinite = true ↔ SystemConfig.tooSlow < config.rate)) ∧
    ∀ step, ¬Returned (step.act s).1 ↔
      config.particle.TooWide ∧ s.litter step ≠ [] ∨ ¬s.HasRoom (s.litter step).length := by
  obtain ⟨hrate, hvalid⟩ := SystemConfig.validate_eq_ok (validate_of_make hmake)
  have hconfig : s.config = config := life.config_eq.trans (config_of_make hmake)
  refine ⟨fun interval => SystemConfig.interval_pos hrate, fun step => ?_⟩
  rw [← hconfig] at hvalid ⊢
  rw [returned_iff hvalid step, not_and_or, not_or, not_not]

-- The fastest rate that is too slow, and the narrowest draws that are too wide.
def extreme : ParticleSystem where
  config := { rate := SystemConfig.tooSlow, particle := { spread := Source.tooWide } }
  emitter := .zero
  particles := #[]
  sinceEmit := 0
  source := .ofSeed 0

-- A burst of none comes back from it, and the next one does not. However it draws, no system has room for
-- more particles than there are numbers for.
theorem life_aborts_iff_tooWide_extreme :
    make extreme.config extreme.source = .ok extreme ∧ (∃ moments s, Life extreme moments s ∧
      moments.length = 1 ∧ ¬Returned ((SystemStep.emit 1).act s).1) ∧
    ∃ plain, make {} (.ofSeed 0) = .ok plain ∧ Life plain [] plain ∧
      ¬Returned ((SystemStep.emit 0xffffffffffffffff).act plain).1 := by
  have hmake : make extreme.config extreme.source = .ok extreme := by decide +kernel
  have life := (Life.start : Life extreme [] extreme).perform (.emit 0) (by decide +kernel)
  have hwide : extreme.config.particle.TooWide :=
    ⟨extreme.config.particle.spread, List.mem_cons_self, by decide +kernel⟩
  obtain ⟨_, haborts⟩ := life_aborts_iff_tooWide hmake life
  refine ⟨hmake, ⟨_, _, life, rfl, (haborts (.emit 1)).mpr (.inl ⟨hwide, List.cons_ne_nil _ _⟩)⟩, ?_⟩
  have hplain : ∃ plain, make {} (.ofSeed 0) = .ok plain := ⟨_, by rfl⟩
  obtain ⟨plain, hplain⟩ := hplain
  refine ⟨plain, hplain, .start, ((life_aborts_iff_tooWide hplain .start).2 _).mpr (.inr ?_)⟩
  rw [litter, List.length_replicate]
  rintro (hnone | hroom)
  · cases hnone
  · unfold Word.mostBytes Particle.footprint at hroom
    omega

-- A configuration can be accepted and yet have no finite interval and no particle.
theorem acceptance_is_not_enough :
    extreme.config.validate = .ok () ∧
    (∃ interval, extreme.config.interval? = some interval ∧ interval.isFinite = false) ∧
    make extreme.config (.ofSeed 0) = .ok extreme ∧
    ((SystemStep.emit 1).act extreme).1 = .error .aborted := by
  refine ⟨by decide +kernel, ⟨1 / extreme.config.rate, ?_, ?_⟩, by decide +kernel, ?_⟩
  · decide +kernel
  · decide +kernel
  · decide +kernel

end ParticleSystem

end ParticleFx
