import ParticleFx.Proofs.Timeline.Outcome
import ParticleFx.Proofs.Timeline.Step
import ParticleFx.Proofs.Scene.Validity

namespace ParticleFx

open Act (Sees)

-- Two scenes that differ at most in what they show: canvas, background and effects.
structure Scene.SameSimulation (a b : Scene) : Prop where
  fps : a.fps = b.fps
  duration : a.duration = b.duration
  seed : a.seed = b.seed
  emitters : a.emitters = b.emitters
  bursts : a.bursts = b.bursts

theorem Scene.SameSimulation.symm {a b : Scene} (same : Scene.SameSimulation a b) :
    Scene.SameSimulation b a :=
  ⟨same.fps.symm, same.duration.symm, same.seed.symm, same.emitters.symm, same.bursts.symm⟩

namespace Engine

variable {α : Type}

-- The part of an engine that particles come from once their systems are registered.
def simulation (e : Engine) : List (SystemId × ParticleSystem) × Nat :=
  (e.systems, e.nextId)

theorem sees_onSystem (id : SystemId) (x : Act ParticleSystem α) : Sees simulation (onSystem id x) := by
  intro e e' h
  obtain ⟨hsystems, hnext⟩ := Prod.mk.inj h
  simp only [onSystem, hsystems]
  cases stepOn id x e'.systems with
  | none => exact ⟨rfl, h⟩
  | some changed => exact ⟨rfl, Prod.ext rfl hnext⟩

theorem sees_update (dt : Float) : Sees simulation (update dt) := by
  intro e e' h
  obtain ⟨hsystems, hnext⟩ := Prod.mk.inj h
  simp only [update, hsystems]
  exact ⟨trivial, Prod.ext rfl hnext⟩

end Engine

namespace Timeline

variable {a b : Scene} {n : Nat} {pictures others : List Frame} {t u t' u' : Timeline}
  {picture shown : Frame}

-- After the frame it starts on, an emitter has no more need of the engine's source.
theorem sees_stepEmitter {d : EmitterDef} (dt : Float) (hstart : d.start ≠ n) (slot : Option SystemId) :
    Sees Engine.simulation (stepEmitter dt n d slot) := by
  cases slot with
  | some id => exact .bind (Engine.sees_onSystem id _) fun _ => .pure _
  | none =>
      simp only [stepEmitter, hstart, if_false]
      exact .pure _

theorem sees_stepEmitters (dt : Float) {ds : List EmitterDef} (hstart : ∀ d ∈ ds, d.start ≠ n)
    (slots : List (Option SystemId)) : Sees Engine.simulation (stepEmitters dt n ds slots) := by
  induction ds generalizing slots with
  | nil => exact .pure _
  | cons d ds ih =>
      cases slots with
      | nil => exact .pure _
      | cons slot slots =>
          have hhead := sees_stepEmitter dt (hstart d List.mem_cons_self) slot
          have htail := ih (fun d' hd' => hstart d' (List.mem_cons_of_mem d hd')) slots
          exact .bind hhead fun _ => .bind htail fun _ => .pure _

theorem sees_fire (slots : List (Option SystemId)) (b : BurstDef) :
    Sees Engine.simulation (fire slots b) := by
  unfold fire
  cases slots[b.emitter]?.join with
  | none => exact .fail _
  | some id =>
      refine .bind (Engine.sees_onSystem id _) fun r => ?_
      cases r with
      | none => exact .fail _
      | some _ => exact .pure _

theorem sees_fireAll (slots : List (Option SystemId)) (bursts : List BurstDef) :
    Sees Engine.simulation (fireAll slots bursts) := by
  induction bursts with
  | nil => exact .pure ()
  | cons b rest ih => exact .bind (sees_fire slots b) fun _ => ih

-- Rendering draws from the engine's source but leaves the simulation alone, so that two engines may
-- part in their sources and still hold the same particles. The sources must be the same only on the
-- frame on which systems are registered.
theorem step_simulation (same : Scene.SameSimulation a b) (hstart : ∀ d ∈ a.emitters, d.start = 0)
    (hfirst : n = 0 → t = u) (hslots : t.slots = u.slots)
    (hsim : t.engine.simulation = u.engine.simulation)
    (ha : step a n t = (.ok picture, t')) (hb : step b n u = (.ok shown, u')) :
    t'.slots = u'.slots ∧ t'.engine.simulation = u'.engine.simulation := by
  obtain ⟨e₁, e₂, e₃, e₄, hemitters, hbursts, hupdate, hqueue, hrender⟩ := step_eq_ok ha
  obtain ⟨o₁, o₂, o₃, o₄, hemitters', hbursts', hupdate', hqueue', hrender'⟩ := step_eq_ok hb
  rw [← same.fps, ← same.emitters] at hemitters'
  rw [← same.fps] at hupdate'
  rw [burstsOn, ← same.bursts] at hbursts'
  have h₁ : t'.slots = u'.slots ∧ e₁.simulation = o₁.simulation := by
    by_cases hn : n = 0
    · rw [hfirst hn, hemitters'] at hemitters
      obtain ⟨hresult, rfl⟩ := Prod.mk.inj hemitters
      exact ⟨(Except.ok.inj hresult).symm, rfl⟩
    · have hlate : ∀ d ∈ a.emitters, d.start ≠ n := fun d hd => by rw [hstart d hd]; exact Ne.symm hn
      rw [← hslots] at hemitters'
      exact (sees_stepEmitters _ hlate _).of_ok hsim hemitters hemitters'
  obtain ⟨hslots', hsim₁⟩ := h₁
  rw [← hslots'] at hbursts'
  obtain ⟨_, hsim₂⟩ := (sees_fireAll _ _).of_ok hsim₁ hbursts hbursts'
  obtain ⟨_, hsim₃⟩ := (Engine.sees_update _).of_ok hsim₂ hupdate hupdate'
  obtain ⟨_, _, source, _, _, hengine⟩ := Engine.render_eq_ok hrender
  obtain ⟨_, _, source', _, _, hengine'⟩ := Engine.render_eq_ok hrender'
  refine ⟨hslots', ?_⟩
  rw [hengine, hengine', queueAll_eq_ok hqueue, queueAll_eq_ok hqueue']
  exact hsim₃

theorem Trace.nil_eq_start (h : Trace a [] t) : Timeline.start a = .ok t := by
  generalize hp : ([] : List Frame) = pictures at h
  cases h with
  | start hs => exact hs
  | step _ _ => simp at hp

theorem start_simulation (same : Scene.SameSimulation a b) (ha : start a = .ok t)
    (hb : start b = .ok u) : t = u := by
  rw [(start_eq_ok_iff.mp ha).2.2, (start_eq_ok_iff.mp hb).2.2, same.seed, same.emitters]

theorem Trace.simulation_eq (same : Scene.SameSimulation a b) (hstart : ∀ d ∈ a.emitters, d.start = 0)
    (ha : Trace a pictures t) (hb : Trace b others u) (hlen : pictures.length = others.length) :
    t.slots = u.slots ∧ t.engine.simulation = u.engine.simulation := by
  induction ha generalizing others u with
  | start hs =>
      cases hb with
      | start hs' => rw [start_simulation same hs hs']; exact ⟨rfl, rfl⟩
      | step _ _ => simp at hlen
  | step before hs ih =>
      cases hb with
      | start _ => simp at hlen
      | step before' hs' =>
          have hlength := by simpa using hlen
          obtain ⟨hslots, hsim⟩ := ih before' hlength
          rw [← hlength] at hs'
          refine step_simulation same hstart ?_ hslots hsim hs hs'
          intro hzero
          obtain rfl := List.length_eq_zero_iff.mp hzero
          obtain rfl := List.length_eq_zero_iff.mp (hlength.symm.trans hzero)
          exact start_simulation same before.nil_eq_start before'.nil_eq_start

theorem Trace.exists_before (trace : Trace a pictures t) (hn : n ≤ pictures.length) :
    ∃ seen v, Trace a seen v ∧ seen.length = n := by
  induction trace with
  | start hs => exact ⟨[], _, .start hs, (Nat.le_zero.mp hn).symm⟩
  | @step seen last v w before hs ih =>
      by_cases hlast : n = (seen ++ [last]).length
      · exact ⟨_, w, before.step hs, hlast.symm⟩
      · rw [List.length_append, List.length_singleton] at hn hlast
        exact ih (by omega)

-- When the other scene can be played as far, it has the same counts.
theorem counts_subset (same : Scene.SameSimulation a b) (hstart : ∀ d ∈ a.emitters, d.start = 0)
    (trace : Trace b others u) (hn : n ≤ others.length) : counts a n ⊆ counts b n := by
  rintro count ⟨pictures, t, ha, hpos, hle, rfl⟩
  obtain ⟨seen, v, hb, hlen⟩ := trace.exists_before (Nat.le_trans hle hn)
  obtain ⟨_, hsim⟩ := ha.simulation_eq same hstart hb hlen.symm
  refine ⟨seen, v, hb, by omega, by omega, ?_⟩
  simp only [Engine.particleCount, (Prod.mk.inj hsim).1]

-- A render that is completed has played every frame and counted the particles after each.
theorem render_completed {σ : Type} {sink : Sink σ} {s : σ} {stats : RenderStats}
    (h : (a.render sink s).1 = .ok stats) :
    (∃ pictures t, Trace a pictures t ∧ pictures.length = a.duration) ∧ stats.frames = a.duration ∧
      IsGreatest (counts a a.duration) stats.peakParticles := by
  obtain ⟨calls, _, outcome⟩ := render_outcome a sink s
  rw [h] at outcome
  cases outcome with
  | @finished pictures t _ trace hlen tally =>
      have hduration := (a.validate_iff_valid.mp trace.validate).duration
      have hgreatest := tally.isGreatest trace (by omega)
      have hframes := tally.frames
      rw [hlen] at hgreatest hframes
      exact ⟨⟨pictures, t, trace, hlen⟩, hframes, hgreatest⟩

-- Canvas, background and effects never reach the systems, although effects draw from the source that
-- seeds them: every system has been seeded by the time that the first effect is applied.
theorem effects_leave_simulation_alone (same : Scene.SameSimulation a b)
    (hstart : ∀ d ∈ a.emitters, d.start = 0) :
    (∀ f pictures others t u, Trace a pictures t → Trace b others u →
      pictures.length = f + 1 → others.length = f + 1 →
      t.slots = u.slots ∧ t.engine.systems = u.engine.systems) ∧
    ∀ (σ τ : Type) (sink : Sink σ) (sink' : Sink τ) s s' stats stats',
      (a.render sink s).1 = .ok stats → (b.render sink' s').1 = .ok stats' → stats = stats' := by
  refine ⟨?_, ?_⟩
  · intro f pictures others t u ha hb hlen hlen'
    obtain ⟨hslots, hsim⟩ := ha.simulation_eq same hstart hb (hlen.trans hlen'.symm)
    exact ⟨hslots, (Prod.mk.inj hsim).1⟩
  · intro σ τ sink sink' s s' stats stats' hrender hrender'
    obtain ⟨⟨pictures, t, ha, hlen⟩, hframes, hpeak⟩ := render_completed hrender
    obtain ⟨⟨others, u, hb, hlen'⟩, hframes', hpeak'⟩ := render_completed hrender'
    rw [← same.duration] at hlen' hframes' hpeak'
    have hcounts : counts a a.duration = counts b a.duration := by
      refine Set.Subset.antisymm (counts_subset same hstart hb (Nat.le_of_eq hlen'.symm)) ?_
      exact counts_subset same.symm (same.emitters ▸ hstart) ha (Nat.le_of_eq hlen.symm)
    rw [hcounts] at hpeak
    obtain ⟨frames, peak⟩ := stats
    obtain ⟨frames', peak'⟩ := stats'
    rw [RenderStats.mk.injEq]
    exact ⟨hframes.trans hframes'.symm, hpeak.unique hpeak'⟩

theorem exists_trace_of_isOk {i : Nat} (hs : start a = .ok t) (hi : i < a.duration)
    (hok : (a.renderFrame i).isOk = true) : ∃ pictures t, Trace a pictures t ∧ pictures.length = i + 1 := by
  rcases renderFrame_cases hs hi with ⟨p, _, hs⟩ | ⟨fault, n, hfail, _⟩
  · obtain ⟨pictures, t, trace, rfl⟩ := hs.exists_trace
    exact ⟨_, t, trace, by simp⟩
  · rw [hfail] at hok
    cases hok

-- An emitter that moves, emits on its second frame and fires on both.
def still : Scene where
  canvas := ⟨1, 1⟩
  fps := ⟨1, 1⟩
  duration := 2
  emitters := [{ config := { rate := 0.5, particle := { spread := 1 } }, motion := ⟨1, 0⟩ }]
  bursts := [{ frame := 0, emitter := 0, count := 1 }, { frame := 1, emitter := 0, count := 1 }]

-- The same on another canvas, with an effect that draws from the engine's source on both frames.
def unsteady : Scene :=
  { still with
    canvas := ⟨2, 1⟩
    background := .white
    effects := [{ effect := .shake { intensity := 1 }, range := ⟨0, 2⟩ }] }

theorem sameSimulation_unsteady : Scene.SameSimulation still unsteady := ⟨rfl, rfl, rfl, rfl, rfl⟩

theorem effects_leave_simulation_alone_unsteady :
    ∃ pictures others t u, Trace still pictures t ∧ Trace unsteady others u ∧ pictures.length = 2 ∧
      others.length = 2 ∧ t.engine.systems = u.engine.systems := by
  obtain ⟨pictures, t, ha, hlen⟩ :=
    exists_trace_of_isOk (a := still) (i := 1) rfl (by decide) (by decide +kernel)
  obtain ⟨others, u, hb, hlen'⟩ :=
    exists_trace_of_isOk (a := unsteady) (i := 1) rfl (by decide) (by decide +kernel)
  have halone := effects_leave_simulation_alone sameSimulation_unsteady (by decide)
  exact ⟨pictures, others, t, u, ha, hb, hlen, hlen', (halone.1 1 _ _ t u ha hb hlen hlen').2⟩

end Timeline

end ParticleFx
