import ParticleFx.Proofs.Engine.Operations
import ParticleFx.Timeline

namespace ParticleFx

open Act (Keeps)

theorem Engine.keeps_addSystem {γ : Type} {view : Engine → γ}
    (hsystems : ∀ e systems nextId, view { e with systems, nextId } = view e)
    (hsource : ∀ e source, view { e with source } = view e) (config : SystemConfig) :
    Keeps view (Engine.addSystem config) := by
  refine .bind (.focus fun source e => hsource e source) fun _ => .bind (.check _) fun _ => ?_
  exact .bind .get fun _ => .bind (.modify fun e => hsystems e _ _) fun _ => .pure _

namespace Timeline

variable {scene : Scene} {t t' : Timeline} {e e' : Engine} {picture : Frame} {n : Nat}

-- The requests of a queue and the frame rendered last. Only rendering and queueing look at them.
def pending (e : Engine) : List PendingEffect × Option Frame :=
  (e.effects, e.previous)

def burstsOn (scene : Scene) (n : Nat) : List BurstDef :=
  scene.bursts.filter fun b => b.frame = n

def effectsOn (scene : Scene) (n : Nat) : List ScheduledEffect :=
  scene.effects.filter fun s => s.isActive n

-- The five stages of a frame, all of which a frame that succeeds goes through.
theorem step_eq_ok (h : step scene n t = (.ok picture, t')) : ∃ e₁ e₂ e₃ e₄,
    stepEmitters scene.fps.frameSeconds n scene.emitters t.slots t.engine = (.ok t'.slots, e₁) ∧
    fireAll t'.slots (burstsOn scene n) e₁ = (.ok (), e₂) ∧
    Engine.update scene.fps.frameSeconds e₂ = (.ok (), e₃) ∧
    queueAll (effectsOn scene n) e₃ = (.ok (), e₄) ∧
    Engine.render scene.baseFrame e₄ = (.ok picture, t'.engine) := by
  have hengine : stepEngine scene n t.slots t.engine = (.ok (t'.slots, picture), t'.engine) := by
    simp only [step] at h
    split at h
    · rename_i slots p engine hs
      obtain ⟨hp, rfl⟩ := Prod.mk.inj h
      rw [hs, Except.ok.inj hp]
    · cases h
  obtain ⟨slots, e₁, hemitters, h⟩ := Act.run_bind_eq_ok.mp hengine
  obtain ⟨_, e₂, hbursts, h⟩ := Act.run_bind_eq_ok.mp h
  obtain ⟨_, e₃, hupdate, h⟩ := Act.run_bind_eq_ok.mp h
  obtain ⟨_, e₄, hqueue, h⟩ := Act.run_bind_eq_ok.mp h
  obtain ⟨p, e₅, hrender, h⟩ := Act.run_bind_eq_ok.mp h
  obtain ⟨hp, rfl⟩ := Prod.mk.inj h
  obtain ⟨rfl, rfl⟩ := Prod.mk.inj (Except.ok.inj hp)
  exact ⟨e₁, e₂, e₃, e₄, hemitters, hbursts, hupdate, hqueue, hrender⟩

-- A frame that fails does so in one of its stages, after those before it.
theorem step_eq_error {fault : Fault} (h : (step scene n t).1 = .error fault) :
    (∃ e₁, stepEmitters scene.fps.frameSeconds n scene.emitters t.slots t.engine = (.error fault, e₁)) ∨
    ∃ slots e₁,
      stepEmitters scene.fps.frameSeconds n scene.emitters t.slots t.engine = (.ok slots, e₁) ∧
      ((∃ e₂, fireAll slots (burstsOn scene n) e₁ = (.error fault, e₂)) ∨
      ∃ e₂, (∃ e₃, Engine.update scene.fps.frameSeconds e₂ = (.error fault, e₃)) ∨
      ∃ e₃, (∃ e₄, queueAll (effectsOn scene n) e₃ = (.error fault, e₄)) ∨
      ∃ e₄ e₅, Engine.render scene.baseFrame e₄ = (.error fault, e₅)) := by
  obtain ⟨e', hengine⟩ : ∃ e', stepEngine scene n t.slots t.engine = (.error fault, e') := by
    simp only [step] at h
    split at h
    · cases h
    · rename_i fault' engine hs
      exact ⟨engine, by rw [hs, Except.error.inj h]⟩
  rcases Act.run_bind_eq_error.mp hengine with h | ⟨slots, e₁, hemitters, h⟩
  · exact .inl ⟨_, h⟩
  refine .inr ⟨slots, e₁, hemitters, ?_⟩
  rcases Act.run_bind_eq_error.mp h with h | ⟨_, e₂, _, h⟩
  · exact .inl ⟨_, h⟩
  refine .inr ⟨e₂, ?_⟩
  rcases Act.run_bind_eq_error.mp h with h | ⟨_, e₃, _, h⟩
  · exact .inl ⟨_, h⟩
  refine .inr ⟨e₃, ?_⟩
  rcases Act.run_bind_eq_error.mp h with h | ⟨_, e₄, _, h⟩
  · exact .inl ⟨_, h⟩
  refine .inr ⟨e₄, ?_⟩
  rcases Act.run_bind_eq_error.mp h with h | ⟨_, e₅, _, h⟩
  · exact ⟨_, h⟩
  · cases h

theorem keeps_pending_stepEmitter (dt : Float) (n : Nat) (d : EmitterDef) (slot : Option SystemId) :
    Keeps pending (stepEmitter dt n d slot) := by
  cases slot with
  | some id => exact .bind (Engine.keeps_onSystem (fun _ _ => rfl) id _) fun _ => .pure _
  | none =>
      rw [stepEmitter]
      split
      · exact .bind (Engine.keeps_addSystem (fun _ _ _ => rfl) (fun _ _ => rfl) _) fun _ => .pure _
      · exact .pure _

theorem keeps_pending_stepEmitters (dt : Float) (n : Nat) (ds : List EmitterDef)
    (slots : List (Option SystemId)) : Keeps pending (stepEmitters dt n ds slots) := by
  induction ds generalizing slots with
  | nil => exact .pure _
  | cons d ds ih =>
      cases slots with
      | nil => exact .pure _
      | cons slot slots =>
          exact .bind (keeps_pending_stepEmitter dt n d slot) fun _ => .bind (ih slots) fun _ => .pure _

-- A burst is a step on one system that leaves it where it stands.
theorem keeps_fire {γ : Type} {view : Engine → γ}
    (hview : ∀ id (x : Act ParticleSystem Unit), Keeps ParticleSystem.station x →
      Keeps view (Engine.onSystem id x))
    (slots : List (Option SystemId)) (b : BurstDef) : Keeps view (fire slots b) := by
  have hburst : Keeps ParticleSystem.station
      (if b.radial then ParticleSystem.emitRadial b.count else ParticleSystem.emit b.count) := by
    split
    · exact ParticleSystem.keeps_emitRadial (fun _ _ _ => rfl) _
    · exact ParticleSystem.keeps_emit (fun _ _ _ => rfl) _
  unfold fire
  cases slots[b.emitter]?.join with
  | none => exact .fail _
  | some id =>
      refine .bind (hview id _ hburst) fun r => ?_
      cases r with
      | none => exact .fail _
      | some _ => exact .pure _

theorem keeps_fireAll {γ : Type} {view : Engine → γ}
    (hview : ∀ id (x : Act ParticleSystem Unit), Keeps ParticleSystem.station x →
      Keeps view (Engine.onSystem id x))
    (slots : List (Option SystemId)) (bursts : List BurstDef) : Keeps view (fireAll slots bursts) := by
  induction bursts with
  | nil => exact .pure ()
  | cons b rest ih => exact .bind (keeps_fire hview slots b) fun _ => ih

theorem keeps_roster_fireAll (slots : List (Option SystemId)) (bursts : List BurstDef) :
    Keeps Engine.roster (fireAll slots bursts) :=
  keeps_fireAll (fun id _ => Engine.keeps_roster_onSystem id) slots bursts

theorem keeps_fireAll_of_systems {γ : Type} {view : Engine → γ}
    (hview : ∀ e systems, view { e with systems } = view e) (slots : List (Option SystemId))
    (bursts : List BurstDef) : Keeps view (fireAll slots bursts) :=
  keeps_fireAll (fun id x _ => Engine.keeps_onSystem hview id x) slots bursts

def oneShot (s : ScheduledEffect) : PendingEffect :=
  ⟨s.effect, .oneShot⟩

theorem queueAll_eq_ok {scheduled : List ScheduledEffect} (h : queueAll scheduled e = (.ok (), e')) :
    e' = { e with effects := e.effects ++ scheduled.map oneShot } := by
  induction scheduled generalizing e with
  | nil =>
      obtain ⟨-, rfl⟩ := Prod.mk.inj h
      simp
  | cons s rest ih =>
      obtain ⟨_, mid, hone, hrest⟩ := Act.run_bind_eq_ok.mp h
      obtain ⟨_, _, hcheck, hmodify⟩ := Act.run_bind_eq_ok.mp hone
      obtain ⟨-, rfl⟩ := Prod.mk.inj hcheck
      obtain ⟨-, rfl⟩ := Prod.mk.inj hmodify
      rw [ih hrest]
      simp [oneShot]

end Timeline

end ParticleFx
