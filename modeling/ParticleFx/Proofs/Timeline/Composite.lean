import ParticleFx.Proofs.Timeline.Bursts

namespace ParticleFx.Timeline

variable {scene : Scene} {pictures : List Frame} {picture : Frame} {t t' : Timeline} {n : Nat}

-- A frame of a scene: the effects active on it, in the order of the scene, over the systems drawn on
-- the background.
def composite (scene : Scene) (n : Nat) (previous : Option Frame)
    (systems : List (SystemId × ParticleSystem)) : Act Source Frame := do
  let drawn ← Act.check (Engine.drawAll systems scene.baseFrame)
  (scene.effects.filter fun s => s.isActive n).foldlM
    (fun frame s => Effect.apply frame previous s.effect) drawn

theorem composite_eq {systems : List (SystemId × ParticleSystem)} {drawn : Frame}
    (hdrawn : Engine.drawAll systems scene.baseFrame = .ok drawn) (n : Nat) (previous : Option Frame)
    (source : Source) :
    composite scene n previous systems source =
      Engine.applyAll previous ((effectsOn scene n).map oneShot) drawn source := by
  rw [Engine.applyAll_eq_foldlM, List.foldlM_map]
  exact Act.run_bind_ok _ (Prod.ext hdrawn rfl)

-- What a step renders when nothing is queued before it: the effects of its own frame, all of which
-- are gone after it.
theorem step_composite (hqueue : t.engine.effects = []) (hs : step scene n t = (.ok picture, t')) :
    ∃ e₁ e₂ e₃,
      stepEmitters scene.fps.frameSeconds n scene.emitters t.slots t.engine = (.ok t'.slots, e₁) ∧
      fireAll t'.slots (burstsOn scene n) e₁ = (.ok (), e₂) ∧
      Engine.update scene.fps.frameSeconds e₂ = (.ok (), e₃) ∧
      e₃.source = e₁.source ∧ t'.engine.systems = e₃.systems ∧
      composite scene n t.engine.previous e₃.systems e₃.source = (.ok picture, t'.engine.source) ∧
      t'.engine.effects = [] ∧ t'.engine.previous = some picture := by
  obtain ⟨e₁, e₂, e₃, e₄, hemitters, hbursts, hupdate, hqueued, hrender⟩ := step_eq_ok hs
  have hpending₁ := (keeps_pending_stepEmitters _ _ _ _).of_ok hemitters
  have hpending₂ : pending e₂ = pending e₁ :=
    (keeps_fireAll_of_systems (fun _ _ => rfl) _ _).of_ok hbursts
  have hpending₃ : pending e₃ = pending e₂ := (Engine.keeps_update (fun _ _ => rfl) _).of_ok hupdate
  have hsource₂ : e₂.source = e₁.source :=
    (keeps_fireAll_of_systems (fun _ _ => rfl) _ _).of_ok hbursts
  have hsource₃ : e₃.source = e₂.source := (Engine.keeps_update (fun _ _ => rfl) _).of_ok hupdate
  obtain ⟨heffects, hprevious⟩ := Prod.mk.inj (hpending₃.trans (hpending₂.trans hpending₁))
  obtain rfl := queueAll_eq_ok hqueued
  obtain ⟨_, drawn, source, hdrawn, happly, hengine⟩ := Engine.render_eq_ok hrender
  refine ⟨e₁, e₂, e₃, hemitters, hbursts, hupdate, hsource₃.trans hsource₂, by rw [hengine], ?_, ?_,
    by rw [hengine]⟩
  · rw [heffects, hqueue, List.nil_append, hprevious] at happly
    rw [composite_eq hdrawn, happly, hengine]
  · rw [hengine, heffects, hqueue]
    simp [oneShot]

-- Between two frames nothing is queued, and the frame before is remembered.
theorem Trace.pending_eq (trace : Trace scene pictures t) :
    t.engine.effects = [] ∧ t.engine.previous = pictures.getLast? := by
  induction trace with
  | start hs =>
      obtain ⟨-, -, rfl⟩ := start_eq_ok_iff.mp hs
      exact ⟨rfl, rfl⟩
  | step _ hs ih =>
      obtain ⟨_, _, _, _, _, _, _, _, _, heffects, hprevious⟩ := step_composite ih.1 hs
      exact ⟨heffects, by rw [hprevious, List.getLast?_concat]⟩

end ParticleFx.Timeline
