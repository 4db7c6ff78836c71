import ParticleFx.Proofs.Engine.Faults
import ParticleFx.Proofs.Engine.Operations

namespace ParticleFx

inductive SystemStep where
  | moveTo (position : Vec2)
  | emit (count : Nat)
  | emitRadial (count : Nat)
  | update (dt : Float)
deriving DecidableEq

def SystemStep.act : SystemStep → Act ParticleSystem Unit
  | moveTo position => Act.modify (ParticleSystem.moveTo position)
  | emit count => ParticleSystem.emit count
  | emitRadial count => ParticleSystem.emitRadial count
  | update dt => ParticleSystem.update dt

namespace Engine

inductive Operation where
  | addSystem (config : SystemConfig)
  | onSystem (id : SystemId) (step : SystemStep)
  | addEffect (request : EffectRequest)
  | addOneShot (request : EffectRequest)
  | pushEffect (request : EffectRequest) (lifetime : EffectLifetime)
  | addByKind (kind : String) (params : Json)
  | clearEffects
  | clearParticles
  | update (dt : Float)
  | render (base : Frame)

-- What comes back from an operation that succeeds. A handle may turn out to be gone.
inductive Answer where
  | done
  | gone
  | handle (id : SystemId)
  | picture (frame : Frame)
deriving DecidableEq

namespace Operation

def run : Operation → Act Engine Answer
  | addSystem config => do return .handle (← Engine.addSystem config)
  | onSystem id step => do return if (← Engine.onSystem id step.act).isSome then .done else .gone
  | addEffect request => do Engine.addEffect request; return .done
  | addOneShot request => do Engine.addOneShot request; return .done
  | pushEffect request lifetime => do Engine.pushEffect request lifetime; return .done
  | addByKind kind params => do Engine.addByKind kind params; return .done
  | clearEffects => do Act.modify Engine.clearEffects; return .done
  | clearParticles => do Act.modify Engine.clearParticles; return .done
  | update dt => do Engine.update dt; return .done
  | render base => do return .picture (← Engine.render base)

-- What an operation asks to be queued, if it can be read.
def request? : Operation → Option (Except Fault PendingEffect)
  | addEffect request => some (.ok ⟨request, .persistent⟩)
  | addOneShot request => some (.ok ⟨request, .oneShot⟩)
  | pushEffect request lifetime => some (.ok ⟨request, lifetime⟩)
  | addByKind kind params => some ((EffectKind.request kind params).map (⟨·, .persistent⟩))
  | _ => none

end Operation

structure Call where
  operation : Operation
  answer : Except Fault Answer

-- Everything that a call can do to an engine.
inductive Change (e : Engine) : Call → Engine → Prop
  | registered {config : SystemConfig} (source : Source) (hc : config.validate = .ok ()) :
      Change e ⟨.addSystem config, .ok (.handle ⟨e.nextId⟩)⟩
        { e with
          systems := e.systems ++ [(⟨e.nextId⟩,
            { config, emitter := config.position, particles := #[], sinceEmit := 0, source })]
          nextId := e.nextId + 1
          source := e.source.afterForks 1 }
  | configRefused {config : SystemConfig} {fault : Fault} (hc : config.validate = .error fault) :
      Change e ⟨.addSystem config, .error fault⟩ { e with source := e.source.afterForks 1 }
  | stepped {id : SystemId} {step : SystemStep} {answer : Except Fault Answer}
      {systems : List (SystemId × ParticleSystem)}
      (handles : systems.map Prod.fst = e.systems.map Prod.fst)
      (kept : ∀ fault, answer = .error fault → ¬fault.Aborts → systems = e.systems) :
      Change e ⟨.onSystem id step, answer⟩ { e with systems }
  | accepted {op : Operation} {p : PendingEffect} (hp : op.request? = some (.ok p)) :
      Change e ⟨op, .ok .done⟩ { e with effects := e.effects ++ [p] }
  | requestRefused {op : Operation} {r : Except Fault PendingEffect} {fault : Fault}
      (hr : op.request? = some r) : Change e ⟨op, .error fault⟩ e
  | effectsCleared : Change e ⟨.clearEffects, .ok .done⟩ { e with effects := [] }
  | particlesCleared : Change e ⟨.clearParticles, .ok .done⟩ { e with systems := [] }
  | updated {dt : Float} {answer : Except Fault Answer} {systems : List (SystemId × ParticleSystem)}
      (handles : systems.map Prod.fst = e.systems.map Prod.fst)
      (kept : ∀ fault, answer = .error fault → ¬fault.Aborts → systems = e.systems) :
      Change e ⟨.update dt, answer⟩ { e with systems }
  | rendered {base drawn frame : Frame} {source : Source} (hdrawn : drawAll e.systems base = .ok drawn)
      (hrun : applyAll e.previous e.effects drawn e.source = (.ok frame, source)) :
      Change e ⟨.render base, .ok (.picture frame)⟩
        { e with
          source
          effects := e.effects.filter fun p => p.lifetime = .persistent
          previous := some frame }
  | notDrawn {base : Frame} {fault : Fault}
      (hbase : base.validate = .error fault ∨ drawAll e.systems base = .error fault) :
      Change e ⟨.render base, .error fault⟩ e
  | effectFailed {base drawn : Frame} {fault : Fault} {source : Source} (hbase : base.validate = .ok ())
      (hdrawn : drawAll e.systems base = .ok drawn)
      (hrun : applyAll e.previous e.effects drawn e.source = (.error fault, source)) :
      Change e ⟨.render base, .error fault⟩ { e with source }

end Engine

namespace ParticleSystem

variable {dt : Float}

theorem update_of_bad (hbad : (!dt.isFinite || dt < 0) = true) (s : ParticleSystem) :
    update dt s = (.error .badTimeStep, s) := by
  simp only [update, hbad, if_true, Act.run_fail]

theorem update_aborts (hgood : ¬(!dt.isFinite || dt < 0) = true) :
    Act.FailsOnly Fault.Aborts (update dt) := by
  rw [update, if_neg hgood]
  exact .bind (failsOnly_emitDue Fault.aborts_aborted dt) fun _ => .modify _

theorem atomic_update (dt : Float) : Act.Atomic (update dt) := by
  by_cases hbad : (!dt.isFinite || dt < 0) = true
  · intro s e t h _
    rw [update_of_bad hbad] at h
    exact (Prod.mk.inj h).2.symm
  · exact .of_aborts (update_aborts hbad)

end ParticleSystem

theorem SystemStep.atomic_act (step : SystemStep) : Act.Atomic step.act := by
  cases step with
  | moveTo position => exact .of_aborts (.modify _)
  | emit count => exact .of_aborts (ParticleSystem.failsOnly_emit Fault.aborts_aborted _)
  | emitRadial count => exact .of_aborts (ParticleSystem.failsOnly_emitRadial Fault.aborts_aborted _)
  | update dt => exact ParticleSystem.atomic_update dt

namespace Engine

variable {e e' : Engine} {systems systems' : List (SystemId × ParticleSystem)}

theorem stepOn_eq_some {α : Type} {id : SystemId} {x : Act ParticleSystem α} {r : Except Fault α}
    (h : stepOn id x systems = some (r, systems')) :
    ∃ before s s' after, systems = before ++ (id, s) :: after ∧ x s = (r, s') ∧
      systems' = before ++ (id, s') :: after := by
  induction systems generalizing systems' r with
  | nil => simp [stepOn] at h
  | cons entry rest ih =>
      obtain ⟨i, s⟩ := entry
      simp only [stepOn] at h
      split at h
      · rename_i hid
        subst hid
        obtain ⟨rfl, rfl⟩ := by simpa using h
        exact ⟨[], s, _, rest, rfl, rfl, rfl⟩
      · obtain ⟨⟨r', rest'⟩, hrest, heq⟩ := Option.map_eq_some_iff.mp h
        obtain ⟨rfl, rfl⟩ := by simpa using heq
        obtain ⟨before, s₁, s₂, after, rfl, hx, rfl⟩ := ih hrest
        exact ⟨(i, s) :: before, s₁, s₂, after, rfl, hx, rfl⟩

theorem updateAll_handles (dt : Float) (systems : List (SystemId × ParticleSystem)) :
    (updateAll dt systems).2.map Prod.fst = systems.map Prod.fst := by
  have hstation := congrArg (List.map Prod.fst) (updateAll_station dt systems)
  simpa [Function.comp_def] using hstation

theorem updateAll_atomic {dt : Float} {fault : Fault}
    (h : updateAll dt systems = (.error fault, systems')) (hreturned : ¬fault.Aborts) :
    systems' = systems := by
  by_cases hbad : (!dt.isFinite || dt < 0) = true
  · cases systems with
    | nil => cases h
    | cons entry rest =>
        -- all refuse the same steps, so the first one does, before any has moved
        simp only [updateAll, ParticleSystem.update_of_bad hbad] at h
        exact (Prod.mk.inj h).2.symm
  · have haborts := ParticleSystem.update_aborts hbad
    exact absurd (updateAll_failsOnly haborts (congrArg Prod.fst h)) hreturned

theorem pushEffect_cases (request : EffectRequest) (lifetime : EffectLifetime) (e : Engine) :
    pushEffect request lifetime e = (.ok (), { e with effects := e.effects ++ [⟨request, lifetime⟩] }) ∨
    ∃ fault, pushEffect request lifetime e = (.error fault, e) := by
  cases hr : request.validate with
  | ok _ => exact .inl (by rw [pushEffect, hr]; rfl)
  | error fault => exact .inr ⟨fault, by rw [pushEffect, hr]; rfl⟩

namespace Change

theorem of_push {op : Operation} {request : EffectRequest} {lifetime : EffectLifetime}
    (hop : op.request? = some (.ok ⟨request, lifetime⟩)) {answer : Except Fault Answer}
    (h : (do Engine.pushEffect request lifetime; return .done : Act Engine Answer) e = (answer, e')) :
    Change e ⟨op, answer⟩ e' := by
  rcases pushEffect_cases request lifetime e with hpush | ⟨fault, hpush⟩
  · rw [Act.run_bind_ok _ hpush] at h
    obtain ⟨rfl, rfl⟩ := Prod.mk.inj h
    exact .accepted hop
  · rw [Act.run_bind_error _ hpush] at h
    obtain ⟨rfl, rfl⟩ := Prod.mk.inj h
    exact .requestRefused hop

theorem of_addSystem {config : SystemConfig} {answer : Except Fault Answer}
    (h : (Operation.addSystem config).run e = (answer, e')) : Change e ⟨.addSystem config, answer⟩ e' := by
  cases hc : config.validate with
  | ok _ =>
      obtain ⟨source, hadd⟩ := addSystem_eq hc e
      rw [Operation.run, Act.run_bind_ok _ hadd] at h
      obtain ⟨rfl, rfl⟩ := Prod.mk.inj h
      exact .registered source hc
  | error fault =>
      rw [Operation.run, Act.run_bind_error _ (addSystem_eq_error hc e)] at h
      obtain ⟨rfl, rfl⟩ := Prod.mk.inj h
      exact .configRefused hc

theorem of_addByKind {kind : String} {params : Json} {answer : Except Fault Answer}
    (h : (Operation.addByKind kind params).run e = (answer, e')) :
    Change e ⟨.addByKind kind params, answer⟩ e' := by
  cases hr : EffectKind.request kind params with
  | ok request =>
      refine .of_push (by rw [Operation.request?, hr]; rfl) ?_
      rw [Operation.run, Engine.addByKind, hr] at h
      exact h
  | error fault =>
      rw [Operation.run, Engine.addByKind, hr] at h
      obtain ⟨rfl, rfl⟩ := Prod.mk.inj h
      exact .requestRefused rfl

theorem of_onSystem {id : SystemId} {step : SystemStep} {answer : Except Fault Answer}
    (h : (Operation.onSystem id step).run e = (answer, e')) : Change e ⟨.onSystem id step, answer⟩ e' := by
  rw [Operation.run, Act.run_bind_pure] at h
  obtain ⟨rfl, rfl⟩ := Prod.mk.inj h
  rcases hs : stepOn id step.act e.systems with _ | ⟨r, systems⟩
  · simp only [Engine.onSystem, hs]
    exact .stepped rfl fun _ _ _ => rfl
  · obtain ⟨before, s, s', after, hbefore, hstep, hafter⟩ := stepOn_eq_some hs
    simp only [Engine.onSystem, hs]
    refine .stepped (by simp [hbefore, hafter]) ?_
    intro fault hfault hreturned
    obtain rfl := Act.map_eq_error_iff.mp (Act.map_eq_error_iff.mp hfault)
    rw [hbefore, hafter, step.atomic_act s fault s' hstep hreturned]

theorem of_update {dt : Float} {answer : Except Fault Answer}
    (h : (Operation.update dt).run e = (answer, e')) : Change e ⟨.update dt, answer⟩ e' := by
  rw [Operation.run, Act.run_bind_pure] at h
  obtain ⟨rfl, rfl⟩ := Prod.mk.inj h
  refine .updated (updateAll_handles dt e.systems) ?_
  intro fault hfault hreturned
  have hall : (updateAll dt e.systems).1 = .error fault := Act.map_eq_error_iff.mp hfault
  exact updateAll_atomic (Prod.ext hall rfl) hreturned

theorem of_render {base : Frame} {answer : Except Fault Answer}
    (h : (Operation.render base).run e = (answer, e')) : Change e ⟨.render base, answer⟩ e' := by
  rcases hr : Engine.render base e with ⟨r, mid⟩
  cases r with
  | ok frame =>
      rw [Operation.run, Act.run_bind_ok _ hr] at h
      obtain ⟨rfl, rfl⟩ := Prod.mk.inj h
      obtain ⟨_, drawn, source, hdrawn, happly, rfl⟩ := render_eq_ok hr
      exact .rendered hdrawn happly
  | error fault =>
      rw [Operation.run, Act.run_bind_error _ hr] at h
      obtain ⟨rfl, rfl⟩ := Prod.mk.inj h
      rcases render_eq_error hr with ⟨hbase, rfl⟩ | ⟨hbase, drawn, source, hdrawn, happly, rfl⟩
      · exact .notDrawn hbase
      · exact .effectFailed hbase hdrawn happly

theorem of_run {op : Operation} {answer : Except Fault Answer} (h : op.run e = (answer, e')) :
    Change e ⟨op, answer⟩ e' := by
  cases op with
  | addSystem config => exact .of_addSystem h
  | onSystem id step => exact .of_onSystem h
  | addEffect request => exact .of_push rfl h
  | addOneShot request => exact .of_push rfl h
  | pushEffect request lifetime => exact .of_push rfl h
  | addByKind kind params => exact .of_addByKind h
  | clearEffects =>
      obtain ⟨rfl, rfl⟩ := Prod.mk.inj h
      exact .effectsCleared
  | clearParticles =>
      obtain ⟨rfl, rfl⟩ := Prod.mk.inj h
      exact .particlesCleared
  | update dt => exact .of_update h
  | render base => exact .of_render h

end Change

inductive Run (start : Engine) : List Call → Engine → Prop
  | nil : Run start [] start
  | snoc {calls : List Call} {e e' : Engine} {op : Operation} {answer : Except Fault Answer}
      (run : Run start calls e) (h : op.run e = (answer, e')) : Run start (calls ++ [⟨op, answer⟩]) e'

theorem Run.perform {start : Engine} {calls : List Call} (run : Run start calls e) (op : Operation) :
    Run start (calls ++ [⟨op, (op.run e).1⟩]) (op.run e).2 :=
  run.snoc rfl

-- Every call of a run was made to the engine that the calls before it had left.
theorem Run.exists_before {start : Engine} {calls : List Call} {call : Call} {j : Nat}
    (run : Run start calls e) (hj : calls[j]? = some call) :
    ∃ mid after, Run start (calls.take j) mid ∧ call.operation.run mid = (call.answer, after) := by
  induction run with
  | nil => simp at hj
  | @snoc calls mid after op answer run h ih =>
      by_cases hlt : j < calls.length
      · rw [List.getElem?_append_left hlt] at hj
        rw [List.take_append_of_le_length (Nat.le_of_lt hlt)]
        exact ih hj
      · have hlen := (List.getElem?_eq_some_iff.mp hj).1
        rw [List.length_append, List.length_singleton] at hlen
        obtain rfl : j = calls.length := by omega
        obtain rfl : ⟨op, answer⟩ = call := by simpa using hj
        rw [List.take_left]
        exact ⟨mid, after, run, h⟩

end Engine

end ParticleFx
