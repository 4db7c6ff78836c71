import ParticleFx.Proofs.Particle.Histories

namespace ParticleFx

namespace ParticleSystem

variable {s : ParticleSystem} {x : Act Source Particle} {rest litter : List (Act Source Particle)}
  {source mid : Source} {fault : Fault} {p : Particle} {dt : Float}

-- Every draw of a litter is of a particle of the system's own kind.
theorem mem_litter {step : SystemStep} (h : x ∈ s.litter step) :
    x = Particle.spawn s.config.particle s.emitter ∨
    ∃ count i, step = .emitRadial count ∧
      x = Particle.spawnRadial s.config.particle s.emitter count i := by
  cases step with
  | moveTo position => cases h
  | emit count => exact .inl (List.eq_of_mem_replicate h)
  | emitRadial count =>
      obtain ⟨i, _, rfl⟩ := List.mem_map.mp h
      exact .inr ⟨count, i, rfl, rfl⟩
  | update dt =>
      rw [ParticleSystem.litter] at h
      split at h
      · exact .inl (List.mem_singleton.mp h)
      · cases h

-- A call that draws the litter and nothing else. It comes to the same end, and it leaves the source
-- at the same place.
structure Drew (litter : List (Act Source Particle)) (source : Source)
    (outcome : Except Fault Unit × ParticleSystem) : Prop where
  result : outcome.1 = (litter.mapM id source).1.map fun _ => ()
  source : outcome.2.source = (litter.mapM id source).2

namespace Drew

variable {outcome : Except Fault Unit × ParticleSystem}

theorem nil (hresult : outcome.1 = .ok ()) (hsource : outcome.2.source = source) :
    Drew [] source outcome := ⟨hresult, hsource⟩

theorem cons (hx : x source = (.ok p, mid)) (hrest : Drew rest mid outcome) :
    Drew (x :: rest) source outcome := by
  refine ⟨?_, ?_⟩
  · rw [Act.run_mapM_cons_ok _ hx, hrest.result]
    cases (rest.mapM id mid).1 <;> rfl
  · rw [Act.run_mapM_cons_ok _ hx, hrest.source]

theorem error (hx : x source = (.error fault, mid)) (hresult : outcome.1 = .error fault)
    (hsource : outcome.2.source = mid) : Drew (x :: rest) source outcome := by
  refine ⟨?_, ?_⟩
  · rw [Act.run_mapM_cons_error _ hx, hresult]
    rfl
  · rw [Act.run_mapM_cons_error _ hx, hsource]

-- A change to the rest of the system afterwards draws nothing.
theorem modify {x : Act ParticleSystem Unit} {f : ParticleSystem → ParticleSystem}
    (h : Drew litter source (x s)) (hf : ∀ s, (f s).source = s.source) :
    Drew litter source ((x >>= fun _ => Act.modify f) s) := by
  rcases hx : x s with ⟨r, t⟩
  rw [hx] at h
  cases r with
  | error fault =>
      rw [Act.run_bind_error _ hx]
      exact h
  | ok _ =>
      rw [Act.run_bind_ok _ hx]
      exact ⟨h.result, (hf t).trans h.source⟩

end Drew

theorem run_draws {α : Type} {x : ParticleSystem → Act Source α} {r : Except Fault α}
    (hx : x s s.source = (r, mid)) : draws x s = (r, { s with source := mid }) := by
  simp only [draws, hx]

theorem emitEach_drew (count : Nat) (s : ParticleSystem) :
    Drew (List.replicate count (Particle.spawn s.config.particle s.emitter)) s.source
      (emitEach count s) := by
  induction count generalizing s with
  | zero => exact .nil rfl rfl
  | succ count ih =>
      rw [List.replicate_succ, emitEach]
      rcases hspawn : Particle.spawn s.config.particle s.emitter s.source with ⟨r, mid⟩
      have hdraw := run_draws (x := fun s => Particle.spawn s.config.particle s.emitter) hspawn
      cases r with
      | error fault =>
          rw [Act.run_bind_error _ hdraw]
          exact .error hspawn rfl rfl
      | ok p =>
          rw [Act.run_bind_ok _ hdraw]
          exact .cons hspawn (ih { s with source := mid, particles := s.particles.push p })

theorem emit_drew {count : Nat} (hroom : s.HasRoom count) :
    Drew (List.replicate count (Particle.spawn s.config.particle s.emitter)) s.source
      (emit count s) := by
  rw [emit, run_bind_reserve, if_pos hroom]
  exact emitEach_drew count s

theorem emitRadialFrom_drew {count left : Nat} (hleft : left ≤ count) (s : ParticleSystem) :
    Drew ((List.range' (count - left) left).map
      (Particle.spawnRadial s.config.particle s.emitter count)) s.source
      (emitRadialFrom count left s) := by
  induction left generalizing s with
  | zero => exact .nil rfl rfl
  | succ left ih =>
      rw [List.range'_succ, List.map_cons, show count - (left + 1) + 1 = count - left by omega,
        emitRadialFrom]
      rcases hspeed : Source.float burstSpeed.1 burstSpeed.2 s.source with ⟨r, mid⟩
      have hdrawSpeed := run_draws (x := fun _ => Source.float burstSpeed.1 burstSpeed.2) hspeed
      cases r with
      | error fault =>
          rw [Act.run_bind_error _ hdrawSpeed]
          exact .error (Act.run_bind_error _ hspeed) rfl rfl
      | ok speed =>
          rw [Act.run_bind_ok _ hdrawSpeed]
          rcases hspawn : Particle.spawn s.config.particle s.emitter mid with ⟨r, mid'⟩
          have hdraw := run_draws (s := { s with source := mid })
            (x := fun s => Particle.spawn s.config.particle s.emitter) hspawn
          cases r with
          | error fault =>
              rw [Act.run_bind_error _ hdraw]
              exact .error ((Act.run_bind_ok _ hspeed).trans (Act.run_bind_error _ hspawn)) rfl rfl
          | ok p =>
              rw [Act.run_bind_ok _ hdraw]
              exact .cons ((Act.run_bind_ok _ hspeed).trans (Act.run_bind_ok _ hspawn))
                (ih (by omega) { s with
                  source := mid'
                  particles := s.particles.push
                    { p with velocity := (direction (count - (left + 1)) count).scale speed } })

theorem emitRadial_drew {count : Nat} (hroom : s.HasRoom count) :
    Drew ((List.range count).map (Particle.spawnRadial s.config.particle s.emitter count)) s.source
      (emitRadial count s) := by
  have hall := emitRadialFrom_drew (Nat.le_refl count) s
  rw [Nat.sub_self, ← List.range_eq_range'] at hall
  rw [emitRadial, run_bind_reserve, if_pos hroom]
  exact hall

-- What an update may bring forth.
def due (s : ParticleSystem) (dt : Float) : List (Act Source Particle) :=
  if s.emitsAfter dt then [Particle.spawn s.config.particle s.emitter] else []

theorem emitDue_drew (hroom : s.HasRoom (s.due dt).length) : Drew (s.due dt) s.source (emitDue dt s) := by
  rw [emitDue, Act.run_bind_ok _ (Act.run_get s)]
  unfold due emitsAfter at hroom ⊢
  cases hinterval : s.config.interval? with
  | none => exact .nil rfl rfl
  | some interval =>
      rw [hinterval] at hroom
      dsimp only at hroom ⊢
      rw [Act.run_bind_ok _ (Act.run_get s), Act.run_bind_ok _ (Act.run_modify _ s)]
      split
      · rename_i hdue
        rw [if_pos hdue] at hroom
        exact (emit_drew (s := { s with sinceEmit := s.sinceEmit + dt }) hroom).modify fun _ => rfl
      · exact .nil rfl rfl

theorem emitDue_of_full (hroom : ¬s.HasRoom (s.due dt).length) : (emitDue dt s).1 = .error .aborted := by
  rw [emitDue, Act.run_bind_ok _ (Act.run_get s)]
  unfold due emitsAfter at hroom
  cases hinterval : s.config.interval? with
  | none =>
      rw [hinterval] at hroom
      exact absurd s.hasRoom_zero hroom
  | some interval =>
      rw [hinterval] at hroom
      dsimp only at hroom ⊢
      rw [Act.run_bind_ok _ (Act.run_get s), Act.run_bind_ok _ (Act.run_modify _ s)]
      split
      · rename_i hdue
        rw [if_pos hdue] at hroom
        have hemit : emit 1 { s with sinceEmit := s.sinceEmit + dt } =
            (.error .aborted, { s with sinceEmit := s.sinceEmit + dt }) := by
          rw [emit, run_bind_reserve]
          exact if_neg hroom
        rw [Act.run_bind_error _ hemit]
      · rename_i hdue
        rw [if_neg hdue] at hroom
        exact absurd s.hasRoom_zero hroom

-- What a call draws is its litter, one particle after the other, and it aborts where a draw does.
structure Draws (litter : List (Act Source Particle)) (source : Source)
    (outcome : Except Fault Unit × ParticleSystem) : Prop where
  returned_iff : Returned outcome.1 ↔ ∃ particles, (litter.mapM id source).1 = .ok particles
  source : outcome.2.source = (litter.mapM id source).2

theorem Drew.draws {x : Act ParticleSystem Unit} (h : Drew litter source (x s))
    (hx : Act.FailsOnly Fault.Aborts x) : Draws litter source (x s) := by
  refine ⟨?_, h.source⟩
  rcases hs : x s with ⟨r, t⟩
  have hresult := h.result
  rw [hs] at hresult
  cases hdrawn : (litter.mapM id source).1 with
  | error fault =>
      rw [hdrawn] at hresult
      obtain rfl : r = .error fault := hresult
      simp [Returned, hx s fault t hs]
  | ok particles =>
      rw [hdrawn] at hresult
      obtain rfl : r = .ok () := hresult
      simp [Returned]

theorem litter_update (hgood : ¬(!dt.isFinite || dt < 0) = true) : s.litter (.update dt) = s.due dt := by
  rw [litter, Bool.eq_false_iff.mpr hgood]
  rfl

theorem act_draws {step : SystemStep} (hroom : s.HasRoom (s.litter step).length) :
    Draws (s.litter step) s.source (step.act s) := by
  cases step with
  | moveTo position => exact (Drew.nil rfl rfl).draws (x := Act.modify (moveTo position)) (.modify _)
  | emit count =>
      rw [litter, List.length_replicate] at hroom
      exact (emit_drew hroom).draws (failsOnly_emit Fault.aborts_aborted count)
  | emitRadial count =>
      rw [litter, List.length_map, List.length_range] at hroom
      exact (emitRadial_drew hroom).draws (failsOnly_emitRadial Fault.aborts_aborted count)
  | update dt =>
      by_cases hbad : (!dt.isFinite || dt < 0) = true
      · -- a refusal comes back, with nothing drawn
        have hreturned : ¬Fault.badTimeStep.Aborts := by decide
        rw [litter, hbad, SystemStep.act, update_of_bad hbad]
        exact ⟨iff_of_true hreturned ⟨[], rfl⟩, rfl⟩
      · refine Drew.draws (x := update dt) ?_ (update_aborts hbad)
        rw [litter_update hbad] at hroom ⊢
        rw [update, if_neg hbad]
        exact (emitDue_drew hroom).modify fun _ => rfl

-- A call whose litter has no room aborts.
theorem act_of_full {step : SystemStep} (hroom : ¬s.HasRoom (s.litter step).length) :
    ¬Returned (step.act s).1 := by
  have haborts {r : Except Fault Unit} (h : r = .error .aborted) : ¬Returned r := by
    rw [h]
    exact not_not_intro Fault.aborts_aborted
  cases step with
  | moveTo position => exact absurd s.hasRoom_zero hroom
  | emit count =>
      rw [litter, List.length_replicate] at hroom
      apply haborts
      rw [SystemStep.act, emit, run_bind_reserve, if_neg hroom]
  | emitRadial count =>
      rw [litter, List.length_map, List.length_range] at hroom
      apply haborts
      rw [SystemStep.act, emitRadial, run_bind_reserve, if_neg hroom]
  | update dt =>
      by_cases hbad : (!dt.isFinite || dt < 0) = true
      · rw [litter, hbad] at hroom
        exact absurd s.hasRoom_zero hroom
      · rw [litter_update hbad] at hroom
        apply haborts
        rw [SystemStep.act, update, if_neg hbad,
          Act.run_bind_error (t := (emitDue dt s).2) _ (Prod.ext (emitDue_of_full hroom) rfl)]

end ParticleSystem

end ParticleFx
