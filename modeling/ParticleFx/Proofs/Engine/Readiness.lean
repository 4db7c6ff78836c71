import ParticleFx.Proofs.Effect.Acceptance
import ParticleFx.Proofs.Engine.Queue
import ParticleFx.Proofs.Frame.Strokes

namespace ParticleFx.Engine

variable {calls : List Call} {e e' : Engine} {op : Operation} {answer : Except Fault Answer}
  {base frame : Frame}

-- All that an engine holds has been checked.
structure Ready (e : Engine) : Prop where
  effects : ∀ p ∈ e.effects, p.request.validate = .ok ()
  previous : ∀ before ∈ e.previous, before.validate = .ok ()

theorem run_eq_pushEffect {p : PendingEffect} (hp : op.request? = some (.ok p)) :
    op.run = do
      pushEffect p.request p.lifetime
      return .done := by
  cases op with
  | addEffect | addOneShot | pushEffect =>
      cases hp
      rfl
  | addByKind kind params =>
      cases hr : EffectKind.request kind params with
      | error fault =>
          rw [Operation.request?, hr] at hp
          cases hp
      | ok request =>
          rw [Operation.request?, hr] at hp
          cases hp
          rw [Operation.run, addByKind, hr]
          rfl
  | _ => cases hp

theorem validate_of_accepted {p : PendingEffect} (h : op.run e = (answer, e'))
    (hp : Call.accepted? ⟨op, answer⟩ = some p) : p.request.validate = .ok () := by
  cases answer with
  | error fault => cases hp
  | ok a =>
      obtain ⟨r, hr, hok⟩ := Option.bind_eq_some_iff.mp hp
      cases r with
      | error fault => cases hok
      | ok q =>
          cases hok
          rw [run_eq_pushEffect hr] at h
          obtain ⟨_, _, hpush, _⟩ := Act.run_bind_eq_ok.mp h
          obtain ⟨_, _, hcheck, _⟩ := Act.run_bind_eq_ok.mp hpush
          exact (Prod.mk.inj hcheck).1

-- A picture has the shape of its base.
theorem render_sameShape (h : render base e = (.ok frame, e')) :
    base.validate = .ok () ∧ frame.SameShape base := by
  obtain ⟨hbase, drawn, source, hdrawn, happly, _⟩ := render_eq_ok h
  have happlied := gives_applyAll _ _ _ _ _ _ happly
  exact ⟨hbase, happlied.trans (drawAll_sameShape hdrawn)⟩

theorem validate_of_picture (h : op.run e = (answer, e')) (hp : Call.picture? ⟨op, answer⟩ = some frame) :
    frame.validate = .ok () := by
  unfold Call.picture? at hp
  split at hp
  · rename_i base picture heq
    cases heq
    cases hp
    obtain ⟨_, _, hrender, hanswer⟩ := Act.run_bind_eq_ok.mp h
    obtain ⟨rfl, rfl⟩ : _ = frame ∧ _ = e' := by simpa using hanswer
    obtain ⟨hbase, hshape⟩ := render_sameShape hrender
    rw [hshape.validate_eq, hbase]
  · cases hp

theorem Ready.step (ready : Ready e) (h : op.run e = (answer, e')) : Ready e' := by
  have change : Change e ⟨op, answer⟩ e' := .of_run h
  constructor
  · intro p hp
    rw [change.effects, List.mem_append, List.mem_filter, Option.mem_toList] at hp
    rcases hp with ⟨hp, _⟩ | hp
    · exact ready.effects p hp
    · exact validate_of_accepted h hp
  · intro before hbefore
    rw [change.previous] at hbefore
    rcases Option.or_eq_some_iff.mp hbefore with hpicture | ⟨_, hprevious⟩
    · exact validate_of_picture h hpicture
    · exact ready.previous before hprevious

theorem Run.ready {seed : UInt64} (run : Run (.ofSeed seed) calls e) : Ready e := by
  induction run with
  | nil => exact ⟨nofun, nofun⟩
  | snoc _ h ih => exact ih.step h

-- Requests are applied up to the first that overreaches.
theorem applyAll_cases {previous : Option Frame} {pending : List PendingEffect} {f : Frame}
    (hprevious : ∀ before ∈ previous, before.validate = .ok ())
    (hpending : ∀ p ∈ pending, p.request.validate = .ok ()) (hf : f.validate = .ok ()) (source : Source) :
    (∃ frame source', applyAll previous pending f source = (.ok frame, source')) ∧
      (∀ p ∈ pending, ¬p.request.Overreaches f) ∨
    ∃ p ∈ pending, p.request.Overreaches f ∧
      ∃ source', applyAll previous pending f source = (.error p.request.overreachFault, source') := by
  induction pending generalizing f source with
  | nil => exact .inl ⟨⟨f, source, rfl⟩, nofun⟩
  | cons p rest ih =>
      obtain ⟨hp, hrest⟩ := List.forall_mem_cons.mp hpending
      by_cases hover : p.request.Overreaches f
      · refine .inr ⟨p, List.mem_cons_self, hover, source, ?_⟩
        exact Act.run_bind_error _ (Effect.apply_of_overreaches hf hp hover previous source)
      · obtain ⟨g, mid, happly⟩ :=
          (Effect.failsOnly_apply_of_accepted _ hf hprevious hp hover).exists_ok source
        have hshape := Effect.gives_apply f previous p.request source g mid happly
        have hg : g.validate = .ok () := by rw [hshape.validate_eq, hf]
        have hreach (q : PendingEffect) : q.request.Overreaches g ↔ q.request.Overreaches f :=
          q.request.overreaches_congr hshape.width hshape.height
        rw [applyAll, Act.run_bind_ok _ happly]
        rcases ih hrest hg mid with ⟨hdone, hnone⟩ | ⟨q, hq, hqover, hfailed⟩
        · refine .inl ⟨hdone, List.forall_mem_cons.mpr ⟨hover, fun q hq => ?_⟩⟩
          rw [← hreach]
          exact hnone q hq
        · exact .inr ⟨q, List.mem_cons_of_mem p hq, (hreach q).mp hqover, hfailed⟩

theorem render_of_drawAll_error {fault : Fault} (hbase : base.validate = .ok ())
    (hdrawn : drawAll e.systems base = .error fault) : render base e = (.error fault, e) := by
  rcases hrender : render base e with ⟨r, e'⟩
  cases r with
  | ok frame =>
      obtain ⟨_, _, _, hdone, _⟩ := render_eq_ok hrender
      cases hdrawn.symm.trans hdone
  | error fault' =>
      rcases render_eq_error hrender with ⟨hrefused | hfailed, rfl⟩ | ⟨_, _, _, hdone, _⟩
      · cases hbase.symm.trans hrefused
      · obtain rfl := Except.error.inj (hdrawn.symm.trans hfailed)
        rfl
      · cases hdrawn.symm.trans hdone

-- Once the systems are drawn, it is the requests that matter.
theorem Ready.render_cases (ready : Ready e) (hbase : base.validate = .ok ()) {drawn : Frame}
    (hdrawn : drawAll e.systems base = .ok drawn) :
    (∃ frame e', render base e = (.ok frame, e')) ∧ (∀ p ∈ e.effects, ¬p.request.Overreaches base) ∨
    ∃ p ∈ e.effects, p.request.Overreaches base ∧
      ∃ source, render base e = (.error p.request.overreachFault, { e with source }) := by
  have hshape := drawAll_sameShape hdrawn
  have hreach (p : PendingEffect) : p.request.Overreaches drawn ↔ p.request.Overreaches base :=
    p.request.overreaches_congr hshape.width hshape.height
  have hall := applyAll_cases ready.previous ready.effects (hshape.validate_eq.trans hbase) e.source
  simp only [hreach] at hall
  rcases hrender : render base e with ⟨r, e'⟩
  cases r with
  | ok frame =>
      obtain ⟨_, drawn', source, hdrawn', happly, _⟩ := render_eq_ok hrender
      obtain rfl := Except.ok.inj (hdrawn.symm.trans hdrawn')
      rcases hall with ⟨_, hnone⟩ | ⟨_, _, _, _, hfailed⟩
      · exact .inl ⟨⟨frame, e', rfl⟩, hnone⟩
      · cases happly.symm.trans hfailed
  | error fault =>
      rcases render_eq_error hrender with ⟨hrefused | hfailed, _⟩ | ⟨_, drawn', source, hdrawn', happly, rfl⟩
      · cases hbase.symm.trans hrefused
      · cases hdrawn.symm.trans hfailed
      · obtain rfl := Except.ok.inj (hdrawn.symm.trans hdrawn')
        rcases hall with ⟨⟨_, _, hdone⟩, _⟩ | ⟨p, hp, hover, source', hfailed⟩
        · cases happly.symm.trans hdone
        · obtain ⟨hfault, _⟩ := Prod.mk.inj (happly.symm.trans hfailed)
          exact .inr ⟨p, hp, hover, source, by rw [hfault]⟩

-- What has been accepted can be applied, to every frame that is valid, unless it overreaches. So a render
-- over a valid base whose systems can be drawn fails if one of the queued requests overreaches, and for no
-- other reason.
theorem accepted_requests_apply {seed : UInt64} (run : Run (.ofSeed seed) calls e) :
    (∀ (request : EffectRequest) (f : Frame) (previous : Option Frame) (source : Source),
      request.validate = .ok () → f.validate = .ok () →
      (∀ before ∈ previous, before.validate = .ok ()) →
      ((∃ g source', Effect.apply f previous request source = (.ok g, source')) ↔
        ¬request.Overreaches f) ∧
      (request.Overreaches f →
        Effect.apply f previous request source = (.error request.overreachFault, source))) ∧
    (∀ p ∈ e.effects, p.request.validate = .ok ()) ∧
    (∀ before ∈ e.previous, before.validate = .ok ()) ∧
    (∀ scene : Scene, scene.validate = .ok () → ∀ s ∈ scene.effects, s.effect.validate = .ok ()) ∧
    ∀ base, base.validate = .ok () →
      (∀ fault, drawAll e.systems base = .error fault →
        fault = .aborted ∧ render base e = (.error fault, e)) ∧
      ∀ drawn, drawAll e.systems base = .ok drawn →
        ((∃ frame e', render base e = (.ok frame, e')) ↔ ∀ p ∈ e.effects, ¬p.request.Overreaches base) ∧
        ∀ fault e', render base e = (.error fault, e') →
          (∃ p ∈ e.effects, p.request.Overreaches base ∧ fault = p.request.overreachFault) ∧
            e'.effects = e.effects := by
  have ready := run.ready
  refine ⟨?_, ready.effects, ready.previous, ?_, ?_⟩
  · intro request f previous source hrequest hf hprevious
    have hrefused (hover : request.Overreaches f) := Effect.apply_of_overreaches hf hrequest hover previous source
    refine ⟨⟨?_, ?_⟩, hrefused⟩
    · rintro ⟨g, source', happly⟩ hover
      cases happly.symm.trans (hrefused hover)
    · intro hover
      exact (Effect.failsOnly_apply_of_accepted _ hf hprevious hrequest hover).exists_ok source
  · intro scene hscene s hs
    exact ((scene.validate_iff_valid.mp hscene).effects s hs).1
  · intro base hbase
    refine ⟨fun fault hfailed => ⟨?_, render_of_drawAll_error hbase hfailed⟩, fun drawn hdrawn => ?_⟩
    · exact errsOnly_drawAll (p := (· = .aborted)) rfl _ _ fault hfailed
    · rcases ready.render_cases hbase hdrawn with ⟨⟨frame, after, hdone⟩, hnone⟩ | ⟨p, hp, hover, source, hfailed⟩
      · refine ⟨⟨fun _ => hnone, fun _ => ⟨frame, after, hdone⟩⟩, ?_⟩
        intro fault e' h
        cases hdone.symm.trans h
      · refine ⟨⟨?_, fun hnone => absurd hover (hnone p hp)⟩, ?_⟩
        · rintro ⟨frame, e', h⟩
          cases hfailed.symm.trans h
        · intro fault e' h
          cases hfailed.symm.trans h
          exact ⟨⟨p, hp, hover, rfl⟩, rfl⟩

-- The strongest glow and the largest shake that can be applied, with a picture of another size before, and a
-- glitch that is too strong for two columns.
theorem accepted_requests_apply_strongest : ∃ calls e, Run (.ofSeed 0) calls e ∧
    e.previous.map Frame.width = some 1 ∧
    e.effects.map PendingEffect.request = [.glow { radius := 256 }, .shake { intensity := 0x7fffffff }] ∧
    (∃ frame e', render (.blank 2 1) e = (.ok frame, e')) ∧
    Effect.apply (.blank 2 1) e.previous (.shake { intensity := 0x80000000 }) e.source =
      (.error .shakeOutOfRange, e.source) ∧
    Effect.apply (.blank 2 1) e.previous (.glitch { intensity := 1e30 }) e.source =
      (.error .aborted, e.source) := by
  have start : Run (.ofSeed 0) [] (.ofSeed 0) := .nil
  have rendered := start.perform (.render (.blank 1 1))
  have run := (rendered.perform (.addEffect (.glow { radius := 256 }))).perform
    (.addOneShot (.shake { intensity := 0x7fffffff }))
  obtain ⟨happly, _, hprevious, _, hrender⟩ := accepted_requests_apply run
  obtain ⟨hiff, _⟩ := (hrender (.blank 2 1) rfl).2 (.blank 2 1) rfl
  obtain ⟨_, hshake⟩ := happly (.shake { intensity := 0x80000000 }) (.blank 2 1) _
    (Operation.run _ _).2.source rfl rfl hprevious
  obtain ⟨_, hglitch⟩ := happly (.glitch { intensity := 1e30 }) (.blank 2 1) _
    (Operation.run _ _).2.source (by decide +kernel) rfl hprevious
  exact ⟨_, _, run, rfl, rfl, hiff.mpr (by decide +kernel), hshake (Nat.le_refl _), hglitch (by decide +kernel)⟩

-- A request that is accepted and cannot be applied stays in the queue, and the render fails.
theorem accepted_shake_is_refused :
    (EffectRequest.shake { intensity := 0x80000000 }).validate = .ok () ∧
    (Frame.blank 1 1).validate = .ok () ∧
    Effect.apply (.blank 1 1) none (.shake { intensity := 0x80000000 }) (.ofSeed 0) =
      (.error .shakeOutOfRange, .ofSeed 0) ∧
    ∃ calls e, Run (.ofSeed 0) calls e ∧
      e.effects = [⟨.shake { intensity := 0x80000000 }, .persistent⟩] ∧
      render (.blank 1 1) e = (.error .shakeOutOfRange, e) := by
  have start : Run (.ofSeed 0) [] (.ofSeed 0) := .nil
  have run := start.perform (.addEffect (.shake { intensity := 0x80000000 }))
  exact ⟨rfl, rfl, rfl, _, _, run, rfl, rfl⟩

end ParticleFx.Engine
