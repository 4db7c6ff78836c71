import Mathlib.Algebra.Order.BigOperators.Group.List
import ParticleFx.Proofs.Particle.Histories
import ParticleFx.Proofs.Timeline.Layout
import ParticleFx.Proofs.Timeline.Simulation

namespace ParticleFx

namespace ParticleSystem

variable {α : Type} {s t : ParticleSystem} {n : Nat} {dt : Float}

-- A step that adds at most `n` particles if it succeeds.
def Adds (n : Nat) (x : Act ParticleSystem α) : Prop :=
  ∀ s a t, x s = (.ok a, t) → t.particles.size ≤ s.particles.size + n

theorem Brings.size_eq {litter : List (Act Source Particle)} (h : Brings litter s t) :
    t.particles.size = s.particles.size + litter.length := by
  obtain ⟨particles, hdrawn, hparticles⟩ := h
  rw [← Array.length_toList, hparticles, List.length_append, Array.length_toList,
    length_eq_of_mapM hdrawn]

theorem adds_moveTo (place : ParticleSystem → Vec2) : Adds 0 (Act.modify fun s => s.moveTo (place s)) := by
  intro s _ t h
  obtain ⟨_, rfl⟩ := Prod.mk.inj h
  exact Nat.le_refl _

theorem adds_burst (radial : Bool) (count : Nat) :
    Adds count (if radial then emitRadial count else emit count) := by
  intro s _ t h
  cases radial with
  | false =>
      have hsize := (emitEach_brings (eq_ok_of_bind_reserve h)).size_eq
      rw [List.length_replicate] at hsize
      omega
  | true =>
      have hsize := (emitRadialFrom_brings (Nat.le_refl count) (eq_ok_of_bind_reserve h)).size_eq
      rw [List.length_map, List.length_range'] at hsize
      omega

-- An update adds at most one particle, and none if the rate is zero.
theorem adds_update (h : update dt s = (.ok (), t)) :
    t.particles.size ≤ s.particles.size + if s.config.rate > 0 then 1 else 0 := by
  obtain ⟨mid, hbrings, hleaves⟩ := update_brings h trivial
  have hkept : t.particles.size ≤ mid.particles.size := by
    rw [← Array.length_toList, hleaves, Moment.leaves, Moment.passes, ← Array.length_toList]
    exact (List.length_filter_le _ _).trans_eq (List.length_map _)
  have hlitter : (s.litter (.update dt)).length ≤ if s.config.rate > 0 then 1 else 0 := by
    split
    · exact length_litter_update_le s dt
    · rename_i hrate
      have hinterval : s.config.interval? = none := if_neg hrate
      simp [litter, emitsAfter, hinterval]
  have hsize := hbrings.size_eq
  omega

end ParticleSystem

namespace Engine

open ParticleSystem (Adds)

variable {α : Type} {e e' : Engine} {n : Nat} {dt : Float}
  {systems systems' : List (SystemId × ParticleSystem)}

-- The particles of all systems.
def crowd (systems : List (SystemId × ParticleSystem)) : Nat :=
  (systems.map fun (_, s) => s.particles.size).sum

theorem particleCount_eq (e : Engine) : e.particleCount = crowd e.systems := by
  have hfold (systems : List (SystemId × ParticleSystem)) (start : Nat) :
      systems.foldl (fun n (_, s) => n + s.particles.size) start = start + crowd systems := by
    induction systems generalizing start with
    | nil => rfl
    | cons entry rest ih =>
        rw [List.foldl_cons, ih, crowd, crowd, List.map_cons, List.sum_cons, Nat.add_assoc]
  rw [particleCount, hfold, Nat.zero_add]

theorem crowd_stepOn_le {id : SystemId} {x : Act ParticleSystem α} {a : α} (hx : Adds n x)
    (h : stepOn id x systems = some (.ok a, systems')) : crowd systems' ≤ crowd systems + n := by
  induction systems generalizing systems' with
  | nil => simp [stepOn] at h
  | cons entry rest ih =>
      obtain ⟨i, s⟩ := entry
      simp only [stepOn] at h
      split at h
      · rcases hs : x s with ⟨r, t⟩
        rw [hs] at h
        obtain ⟨rfl, rfl⟩ := by simpa using h
        have hadds := hx s a t hs
        simp only [crowd, List.map_cons, List.sum_cons]
        omega
      · obtain ⟨⟨r', rest'⟩, hrest, heq⟩ := Option.map_eq_some_iff.mp h
        obtain ⟨rfl, rfl⟩ := by simpa using heq
        have hadds := ih hrest
        simp only [crowd, List.map_cons, List.sum_cons] at hadds ⊢
        omega

theorem crowd_onSystem_le {id : SystemId} {x : Act ParticleSystem α} {r : Option α} (hx : Adds n x)
    (h : onSystem id x e = (.ok r, e')) : crowd e'.systems ≤ crowd e.systems + n := by
  simp only [onSystem] at h
  split at h
  · obtain ⟨_, rfl⟩ := Prod.mk.inj h
    exact Nat.le_add_right _ _
  · rename_i r' systems hstep
    obtain ⟨hr, rfl⟩ := Prod.mk.inj h
    cases r' with
    | error fault => cases hr
    | ok a => exact crowd_stepOn_le hx hstep

theorem crowd_addSystem {config : SystemConfig} {id : SystemId} (h : addSystem config e = (.ok id, e')) :
    crowd e'.systems = crowd e.systems := by
  cases hc : config.validate with
  | error fault => cases (addSystem_eq_error hc e).symm.trans h
  | ok _ =>
      obtain ⟨source, hadd⟩ := addSystem_eq hc e
      obtain ⟨_, rfl⟩ := Prod.mk.inj (hadd.symm.trans h)
      simp [crowd]

-- How many of the systems emit by themselves.
def emitting (systems : List (SystemId × ParticleSystem)) : Nat :=
  systems.countP fun (_, s) => s.config.rate > 0

theorem crowd_updateAll_le (h : updateAll dt systems = (.ok (), systems')) :
    crowd systems' ≤ crowd systems + emitting systems := by
  induction systems generalizing systems' with
  | nil =>
      obtain ⟨_, rfl⟩ := Prod.mk.inj h
      exact Nat.le_refl _
  | cons entry rest ih =>
      obtain ⟨id, s⟩ := entry
      simp only [updateAll] at h
      split at h
      · rename_i t hupdate
        rcases hrest : updateAll dt rest with ⟨r, rest'⟩
        rw [hrest] at h
        obtain ⟨rfl, rfl⟩ := Prod.mk.inj h
        have hadds := ParticleSystem.adds_update hupdate
        have hothers := ih hrest
        simp only [crowd, emitting, List.map_cons, List.sum_cons, List.countP_cons,
          decide_eq_true_eq] at hothers ⊢
        omega
      · cases h

theorem crowd_update_le (h : update dt e = (.ok (), e')) :
    crowd e'.systems ≤ crowd e.systems + emitting e.systems := by
  rcases hall : updateAll dt e.systems with ⟨r, systems⟩
  simp only [update, hall] at h
  obtain ⟨rfl, rfl⟩ := Prod.mk.inj h
  exact crowd_updateAll_le hall

end Engine

namespace Timeline

open Engine (crowd emitting)

variable {scene : Scene} {n : Nat} {slots slots' : List (Option SystemId)} {e e' : Engine}
  {t : Timeline} {pictures : List Frame}

theorem crowd_stepEmitter_le {dt : Float} {d : EmitterDef} {slot slot' : Option SystemId}
    (h : stepEmitter dt n d slot e = (.ok slot', e')) : crowd e'.systems ≤ crowd e.systems := by
  cases slot with
  | some id =>
      obtain ⟨_, mid, hmove, hrest⟩ := Act.run_bind_eq_ok.mp h
      obtain ⟨_, rfl⟩ := Prod.mk.inj hrest
      exact Engine.crowd_onSystem_le (ParticleSystem.adds_moveTo _) hmove
  | none =>
      rw [stepEmitter] at h
      split at h
      · obtain ⟨_, mid, hadd, hrest⟩ := Act.run_bind_eq_ok.mp h
        obtain ⟨_, rfl⟩ := Prod.mk.inj hrest
        exact Nat.le_of_eq (Engine.crowd_addSystem hadd)
      · obtain ⟨_, rfl⟩ := Prod.mk.inj h
        exact Nat.le_refl _

theorem crowd_stepEmitters_le {dt : Float} {ds : List EmitterDef}
    (h : stepEmitters dt n ds slots e = (.ok slots', e')) : crowd e'.systems ≤ crowd e.systems := by
  induction ds generalizing slots slots' e with
  | nil =>
      obtain ⟨_, rfl⟩ := Prod.mk.inj h
      exact Nat.le_refl _
  | cons d ds ih =>
      cases slots with
      | nil =>
          obtain ⟨_, rfl⟩ := Prod.mk.inj h
          exact Nat.le_refl _
      | cons slot slots =>
          obtain ⟨slot', mid, hone, h⟩ := Act.run_bind_eq_ok.mp h
          obtain ⟨others, last, hothers, h⟩ := Act.run_bind_eq_ok.mp h
          obtain ⟨_, rfl⟩ := Prod.mk.inj h
          exact (ih hothers).trans (crowd_stepEmitter_le hone)

theorem crowd_fire_le {b : BurstDef} (h : fire slots b e = (.ok (), e')) :
    crowd e'.systems ≤ crowd e.systems + b.count := by
  unfold fire at h
  cases hslot : slots[b.emitter]?.join with
  | none =>
      rw [hslot] at h
      cases h
  | some id =>
      rw [hslot] at h
      obtain ⟨r, mid, hburst, h⟩ := Act.run_bind_eq_ok.mp h
      cases r with
      | none => cases h
      | some _ =>
          obtain ⟨_, rfl⟩ := Prod.mk.inj h
          exact Engine.crowd_onSystem_le (ParticleSystem.adds_burst b.radial b.count) hburst

theorem crowd_fireAll_le {bursts : List BurstDef} (h : fireAll slots bursts e = (.ok (), e')) :
    crowd e'.systems ≤ crowd e.systems + (bursts.map BurstDef.count).sum := by
  induction bursts generalizing e with
  | nil =>
      obtain ⟨_, rfl⟩ := Prod.mk.inj h
      exact Nat.le_refl _
  | cons b rest ih =>
      obtain ⟨_, mid, hone, h⟩ := Act.run_bind_eq_ok.mp h
      have hfirst := crowd_fire_le hone
      have hothers := ih h
      rw [List.map_cons, List.sum_cons]
      omega

theorem countP_range_getElem? {α : Type} (p : α → Bool) (l : List α) :
    (List.range l.length).countP (fun k => l[k]?.any p) = l.countP p := by
  have hall : (List.range l.length).map (fun k => l[k]?) = l.map some := by
    apply List.ext_getElem?
    intro k
    by_cases hk : k < l.length
    · simp [hk]
    · simp [hk]
  calc (List.range l.length).countP (fun k => l[k]?.any p)
      = ((List.range l.length).map fun k => l[k]?).countP (Option.any p) := by
        rw [List.countP_map]
        rfl
    _ = l.countP p := by
        rw [hall, List.countP_map]
        rfl

-- The systems that emit by themselves belong to as many emitters, which have started by then.
theorem Layout.emitting_le {order : List Nat} (h : Layout scene (n + 1) 0 order slots e) :
    emitting e.systems ≤ scene.emitters.countP fun d => d.start ≤ n ∧ d.config.rate > 0 := by
  have hconfigs : e.systems.map (fun (_, s) => some s.config) =
      order.map fun k => scene.emitters[k]?.map EmitterDef.config := by
    apply List.ext_getElem?
    intro j
    rw [List.getElem?_map, List.getElem?_map]
    by_cases hj : j < order.length
    · obtain ⟨d, hd⟩ := h.exists_emitter (List.getElem_mem hj)
      obtain ⟨s, hs, hconfig, _⟩ := h.exists_system (List.getElem?_eq_getElem hj) hd
      simp [hs, hd, hj, hconfig]
    · have hlength : e.systems.length = order.length := by
        rw [← h.length_roster, Engine.roster, List.length_map]
      simp [hj, hlength]
  have hstarted : ∀ k ∈ order, ∃ d, scene.emitters[k]? = some d ∧ d.start ≤ n := by
    intro k hk
    obtain ⟨d, hd, hle⟩ := (h.mem_iff k).mp hk
    exact ⟨d, hd, by omega⟩
  have hnodup : order.Nodup := by
    rw [List.nodup_iff_getElem?_ne_getElem?]
    intro i j hij hj heq
    have hk := List.getElem?_eq_getElem hj
    exact Nat.ne_of_lt hij (h.index_unique (heq.trans hk) hk)
  have hsubset : order ⊆ List.range scene.emitters.length := by
    intro k hk
    obtain ⟨d, hd, _⟩ := hstarted k hk
    exact List.mem_range.mpr (List.getElem?_eq_some_iff.mp hd).1
  calc emitting e.systems
      = (e.systems.map fun (_, s) => some s.config).countP (Option.any fun c => c.rate > 0) := by
        rw [List.countP_map]
        rfl
    _ = order.countP fun k => scene.emitters[k]?.any fun d => d.start ≤ n ∧ d.config.rate > 0 := by
        rw [hconfigs, List.countP_map]
        apply List.countP_congr
        intro k hk
        obtain ⟨d, hd, hle⟩ := hstarted k hk
        simp [hd, hle]
    _ ≤ (List.range scene.emitters.length).countP fun k =>
          scene.emitters[k]?.any fun d => d.start ≤ n ∧ d.config.rate > 0 :=
        (hnodup.subperm hsubset).countP_le _
    _ = scene.emitters.countP fun d => d.start ≤ n ∧ d.config.rate > 0 := countP_range_getElem? _ _

-- As many particles as a burst may have brought by frame `n`.
def burstShare (n : Nat) (b : BurstDef) : Nat :=
  if b.frame < n then b.count else 0

-- As many as an emitter may have emitted by itself: one for each frame from its first on.
def emitterShare (n : Nat) (d : EmitterDef) : Nat :=
  if d.config.rate > 0 then n - d.start else 0

def allowance (scene : Scene) (n : Nat) : Nat :=
  (scene.bursts.map (burstShare n)).sum + (scene.emitters.map (emitterShare n)).sum

theorem sum_burstShare_succ (bursts : List BurstDef) (n : Nat) :
    (bursts.map (burstShare (n + 1))).sum =
      (bursts.map (burstShare n)).sum + ((bursts.filter fun b => b.frame = n).map BurstDef.count).sum := by
  induction bursts with
  | nil => rfl
  | cons b rest ih =>
      rw [List.map_cons, List.sum_cons, ih, List.map_cons, List.sum_cons, List.filter_cons]
      by_cases hb : b.frame = n
      · have hbefore : burstShare n b = 0 := if_neg (by omega)
        have hafter : burstShare (n + 1) b = b.count := if_pos (by omega)
        simp only [hb, decide_true, if_true, List.map_cons, List.sum_cons]
        omega
      · have hsame : burstShare (n + 1) b = burstShare n b := if_congr (by omega) rfl rfl
        simp only [hb, decide_false, Bool.false_eq_true, if_false]
        omega

theorem sum_emitterShare_succ (emitters : List EmitterDef) (n : Nat) :
    (emitters.map (emitterShare (n + 1))).sum =
      (emitters.map (emitterShare n)).sum +
        emitters.countP fun d => d.start ≤ n ∧ d.config.rate > 0 := by
  induction emitters with
  | nil => rfl
  | cons d rest ih =>
      have hone : emitterShare (n + 1) d =
          emitterShare n d + if d.start ≤ n ∧ d.config.rate > 0 then 1 else 0 := by
        unfold emitterShare
        by_cases hrate : d.config.rate > 0
        · simp only [hrate, if_true, and_true]
          split <;> omega
        · simp [hrate]
      simp only [List.map_cons, List.sum_cons, List.countP_cons, decide_eq_true_eq, ih, hone]
      omega

theorem allowance_succ (scene : Scene) (n : Nat) :
    allowance scene (n + 1) = allowance scene n + ((burstsOn scene n).map BurstDef.count).sum +
      scene.emitters.countP fun d => d.start ≤ n ∧ d.config.rate > 0 := by
  have hbursts := sum_burstShare_succ scene.bursts n
  have hemitters := sum_emitterShare_succ scene.emitters n
  unfold allowance burstsOn
  omega

-- One frame adds no more than its share.
theorem crowd_step_le {order : List Nat} {picture : Frame} {t' : Timeline} (valid : scene.Valid)
    (h : Layout scene n 0 order t.slots t.engine)
    (hs : Timeline.step scene n t = (.ok picture, t'))
    (hcrowd : crowd t.engine.systems ≤ allowance scene n) :
    crowd t'.engine.systems ≤ allowance scene (n + 1) := by
  obtain ⟨e₁, e₂, e₃, e₄, hemitters, hbursts, hupdate, hqueue, hrender⟩ := step_eq_ok hs
  obtain ⟨slots', e', order', hrun, h₁, _⟩ := h.emitters valid
  rw [hemitters, Prod.mk.injEq, Except.ok.injEq] at hrun
  obtain ⟨rfl, rfl⟩ := hrun
  have hlast : t'.engine.systems = e₃.systems := by
    obtain ⟨_, _, source, _, _, hengine⟩ := Engine.render_eq_ok hrender
    rw [hengine, queueAll_eq_ok hqueue]
  have hmoved := crowd_stepEmitters_le hemitters
  have hfired := crowd_fireAll_le hbursts
  have hupdated := Engine.crowd_update_le hupdate
  have hemitting := (h₁.fireAll hbursts).emitting_le
  rw [hlast, allowance_succ]
  omega

theorem Trace.crowd_le (trace : Trace scene pictures t) :
    t.engine.particleCount ≤ allowance scene pictures.length := by
  have valid := scene.validate_iff_valid.mp trace.validate
  rw [Engine.particleCount_eq]
  induction trace with
  | start hs =>
      obtain ⟨_, _, rfl⟩ := start_eq_ok_iff.mp hs
      exact Nat.zero_le _
  | step trace hs ih =>
      obtain ⟨order, h⟩ := trace.layout
      rw [List.length_append, List.length_singleton]
      exact crowd_step_le valid h hs ih

theorem sum_map_filter {α : Type} (p : α → Bool) (f : α → Nat) (l : List α) :
    ((l.filter p).map f).sum = (l.map fun a => if p a then f a else 0).sum := by
  induction l with
  | nil => rfl
  | cons a rest ih =>
      by_cases ha : p a = true
      · simp [ha, ih]
      · simp [ha, ih]

theorem allowance_eq (scene : Scene) (f : Nat) :
    allowance scene (f + 1) = ((scene.bursts.filter fun b => b.frame ≤ f).map BurstDef.count).sum +
      ((scene.emitters.filter fun d => d.start ≤ f ∧ d.config.rate > 0).map
        fun d => f - d.start + 1).sum := by
  have hburst : burstShare (f + 1) = fun b => if decide (b.frame ≤ f) = true then b.count else 0 := by
    funext b
    exact if_congr (by rw [decide_eq_true_eq]; omega) rfl rfl
  have hemitter : emitterShare (f + 1) = fun d =>
      if decide (d.start ≤ f ∧ d.config.rate > 0) = true then f - d.start + 1 else 0 := by
    funext d
    unfold emitterShare
    by_cases hrate : d.config.rate > 0
    · simp only [hrate, and_true, decide_eq_true_eq, if_true]
      split <;> omega
    · simp [hrate]
  rw [sum_map_filter, sum_map_filter, allowance, hburst, hemitter]

theorem allowance_le (scene : Scene) {n : Nat} (hn : n ≤ scene.duration) :
    allowance scene n ≤ (scene.bursts.map BurstDef.count).sum +
      ((scene.emitters.filter fun d => d.config.rate > 0 ∧ d.start < scene.duration).map
        fun d => scene.duration - d.start).sum := by
  have hbursts : (scene.bursts.map (burstShare n)).sum ≤ (scene.bursts.map BurstDef.count).sum := by
    apply List.sum_le_sum
    intro b _
    unfold burstShare
    split <;> omega
  have hemitters : (scene.emitters.map (emitterShare n)).sum ≤
      ((scene.emitters.filter fun d => d.config.rate > 0 ∧ d.start < scene.duration).map
        fun d => scene.duration - d.start).sum := by
    rw [sum_map_filter]
    apply List.sum_le_sum
    intro d _
    unfold emitterShare
    by_cases hrate : d.config.rate > 0
    · simp only [hrate, true_and, decide_eq_true_eq, if_true]
      split <;> omega
    · simp [hrate]
  unfold allowance
  omega

-- There are never more particles than the bursts so far have brought and the started emitters can
-- have emitted, one on a frame. Only a valid scene has a trace, and only such a one is rendered.
theorem crowd_is_bounded (scene : Scene) :
    (∀ f pictures t, Trace scene pictures t → pictures.length = f + 1 →
      t.engine.particleCount ≤
        ((scene.bursts.filter fun b => b.frame ≤ f).map BurstDef.count).sum +
        ((scene.emitters.filter fun d => d.start ≤ f ∧ d.config.rate > 0).map
          fun d => f - d.start + 1).sum) ∧
    ∀ (σ : Type) (sink : Sink σ) s stats, (scene.render sink s).1 = .ok stats →
      stats.peakParticles ≤ (scene.bursts.map BurstDef.count).sum +
        ((scene.emitters.filter fun d => d.config.rate > 0 ∧ d.start < scene.duration).map
          fun d => scene.duration - d.start).sum := by
  constructor
  · intro f pictures t trace hlen
    have hcrowd := trace.crowd_le
    rw [hlen, allowance_eq] at hcrowd
    exact hcrowd
  · intro σ sink s stats hrender
    obtain ⟨_, _, ⟨pictures, t, trace, _, hle, hcount⟩, _⟩ := render_completed hrender
    rw [← hcount]
    exact trace.crowd_le.trans (allowance_le scene hle)

-- One emitter that emits on every frame and one that only fires. Nothing dies.
def swarm : Scene where
  canvas := ⟨1, 1⟩
  fps := ⟨1, 1⟩
  duration := 2
  emitters := [{ config := { rate := 1, particle := { lifetime := 9 } } },
    { config := { rate := 0, particle := { lifetime := 9 } } }]
  bursts := [{ frame := 1, emitter := 1, count := 2 }]

-- All that is allowed is there in the end.
theorem crowd_is_bounded_swarm :
    (∃ pictures t, Trace swarm pictures t ∧ pictures.length = 2 ∧ t.engine.particleCount ≤ 2 + 2) ∧
    ∃ stats, (swarm.render Recording.sink {}).1 = .ok stats ∧ stats.peakParticles ≤ 2 + 2 ∧
      stats.peakParticles = 4 := by
  obtain ⟨htrace, hrender⟩ := crowd_is_bounded swarm
  constructor
  · obtain ⟨pictures, t, trace, hlen⟩ :=
      exists_trace_of_isOk (a := swarm) (i := 1) rfl (by decide) (by decide +kernel)
    exact ⟨pictures, t, trace, hlen, htrace 1 pictures t trace hlen⟩
  · have hstats : (swarm.render Recording.sink {}).1 = .ok ⟨2, 4⟩ := by decide +kernel
    exact ⟨⟨2, 4⟩, hstats, hrender Recording Recording.sink {} ⟨2, 4⟩ hstats, rfl⟩

end Timeline

end ParticleFx
