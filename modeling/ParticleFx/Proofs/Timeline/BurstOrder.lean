import ParticleFx.Proofs.Timeline.Bursts

namespace ParticleFx

-- The same bursts in another order, in which those of one emitter on one frame keep theirs.
structure BurstDef.Reordered (bursts others : List BurstDef) : Prop where
  perm : bursts.Perm others
  kept : ∀ frame emitter, bursts.filter (fun b => b.frame = frame ∧ b.emitter = emitter) =
    others.filter (fun b => b.frame = frame ∧ b.emitter = emitter)

namespace BurstDef.Reordered

theorem cons {bursts others : List BurstDef} (h : Reordered bursts others) (b : BurstDef) :
    Reordered (b :: bursts) (b :: others) where
  perm := h.perm.cons b
  kept frame emitter := by rw [List.filter_cons, List.filter_cons, h.kept]

theorem swap {b b' : BurstDef} (h : b.frame ≠ b'.frame ∨ b.emitter ≠ b'.emitter) (rest : List BurstDef) :
    Reordered (b :: b' :: rest) (b' :: b :: rest) where
  perm := .swap b' b rest
  kept frame emitter := by
    by_cases hb : b.frame = frame ∧ b.emitter = emitter
    · have hb' : ¬(b'.frame = frame ∧ b'.emitter = emitter) := by omega
      simp [hb, hb']
    · simp [List.filter_cons, hb]

end BurstDef.Reordered

namespace Timeline

variable {scene : Scene} {n : Nat} {order : List Nat} {slots : List (Option SystemId)}
  {e : Engine} {bursts others : List BurstDef} {systems : List (SystemId × ParticleSystem)}

def burst (b : BurstDef) : Act ParticleSystem Unit :=
  if b.radial then ParticleSystem.emitRadial b.count else ParticleSystem.emit b.count

-- Bursts of one system, one after the other.
def volley : List BurstDef → Act ParticleSystem Unit
  | [] => return ()
  | b :: rest => do
    burst b
    volley rest

def ownBursts (slots : List (Option SystemId)) (bursts : List BurstDef) (id : SystemId) : List BurstDef :=
  bursts.filter fun b => slots[b.emitter]?.join = some id

-- What every system makes of its own bursts.
def volleys (slots : List (Option SystemId)) (bursts : List BurstDef)
    (systems : List (SystemId × ParticleSystem)) :
    List (SystemId × Except Fault Unit × ParticleSystem) :=
  systems.map fun (id, s) => (id, volley (ownBursts slots bursts id) s)

theorem failsOnly_burst (b : BurstDef) : Act.FailsOnly (Fault.aborted = ·) (burst b) := by
  unfold burst
  split
  · exact ParticleSystem.failsOnly_emitRadial rfl _
  · exact ParticleSystem.failsOnly_emit rfl _

theorem fire_eq {b : BurstDef} {id : SystemId} {j : Nat} {s : ParticleSystem}
    (hnd : (e.systems.map Prod.fst).Nodup) (hslot : slots[b.emitter]?.join = some id)
    (hj : e.systems[j]? = some (id, s)) :
    fire slots b e = ((burst b s).1, { e with systems := e.systems.set j (id, (burst b s).2) }) := by
  have hrun := Engine.onSystem_eq hnd hj (burst b)
  simp only [fire, hslot]
  rcases hb : burst b s with ⟨r, s'⟩
  rw [hb] at hrun
  cases r with
  | ok _ => rw [← burst, Act.run_bind_ok _ hrun]; rfl
  | error fault => rw [← burst, Act.run_bind_error _ hrun]

theorem ownBursts_cons_self {b : BurstDef} {id : SystemId} (hslot : slots[b.emitter]?.join = some id) :
    ownBursts slots (b :: bursts) id = b :: ownBursts slots bursts id := by
  simp [ownBursts, hslot]

theorem ownBursts_cons_of_ne {b : BurstDef} {id i : SystemId} (hslot : slots[b.emitter]?.join = some id)
    (hne : i ≠ id) : ownBursts slots (b :: bursts) i = ownBursts slots bursts i := by
  have hother : slots[b.emitter]?.join ≠ some i := by
    rw [hslot]
    exact fun heq => hne (Option.some.inj heq).symm
  simp [ownBursts, hother]

-- A burst belongs to the volley of its own system and to no other.
theorem volleys_cons {b : BurstDef} {id : SystemId} {j : Nat} {s s' : ParticleSystem}
    (hnd : (systems.map Prod.fst).Nodup) (hslot : slots[b.emitter]?.join = some id)
    (hj : systems[j]? = some (id, s)) (hb : burst b s = (.ok (), s')) :
    volleys slots (b :: bursts) systems = volleys slots bursts (systems.set j (id, s')) := by
  have hlt : j < systems.length := (List.getElem?_eq_some_iff.mp hj).1
  apply List.ext_getElem?
  intro k
  simp only [volleys, List.getElem?_map]
  by_cases hk : j = k
  · subst hk
    rw [List.getElem?_set_self hlt, hj]
    simp only [Option.map_some, ownBursts_cons_self hslot, volley, Act.run_bind_ok _ hb]
  · rw [List.getElem?_set_ne hk]
    cases hentry : systems[k]? with
    | none => rfl
    | some entry =>
        have hne : entry.1 ≠ id := by
          intro heq
          have hsame : (systems.map Prod.fst)[j]? = (systems.map Prod.fst)[k]? := by
            simp [hj, hentry, heq]
          exact hk ((List.getElem?_inj (by simpa using hlt) hnd).mp hsame)
        simp only [Option.map_some, ownBursts_cons_of_ne hslot hne]

-- Every system fires its own bursts in their order, whatever else is fired between them. It takes one
-- system that cannot draw its particles to make all of it fail.
theorem fireAll_cases (hnd : (e.systems.map Prod.fst).Nodup)
    (hready : ∀ b ∈ bursts, ∃ id, slots[b.emitter]?.join = some id ∧ id ∈ e.systems.map Prod.fst) :
    (∀ shot ∈ volleys slots bursts e.systems, shot.2.1 = .ok ()) ∧
      fireAll slots bursts e =
        (.ok (), { e with systems := (volleys slots bursts e.systems).map fun (id, _, s) => (id, s) }) ∨
    (∃ shot ∈ volleys slots bursts e.systems, shot.2.1 = .error .aborted) ∧
      (fireAll slots bursts e).1 = .error .aborted := by
  induction bursts generalizing e with
  | nil =>
      refine .inl ⟨?_, ?_⟩
      · intro shot hshot
        obtain ⟨entry, _, rfl⟩ := List.mem_map.mp hshot
        rfl
      · simp [volleys, volley, ownBursts, fireAll, Function.comp_def]
  | cons b rest ih =>
      obtain ⟨id, hslot, hid⟩ := hready b List.mem_cons_self
      obtain ⟨⟨i, s⟩, hmem, hi⟩ := List.mem_map.mp hid
      obtain rfl : i = id := hi
      obtain ⟨j, hj⟩ := List.getElem?_of_mem hmem
      have hfire := fire_eq hnd hslot hj
      rcases hb : burst b s with ⟨r, s'⟩
      rw [hb] at hfire
      cases r with
      | error fault =>
          obtain rfl := failsOnly_burst b s fault s' hb
          refine .inr ⟨⟨_, List.mem_map_of_mem hmem, ?_⟩, ?_⟩
          · simp only [ownBursts_cons_self hslot, volley, Act.run_bind_error _ hb]
          · rw [fireAll, Act.run_bind_error _ hfire]
      | ok _ =>
          have hhandles : (e.systems.set j (i, s')).map Prod.fst = e.systems.map Prod.fst := by
            have hget : (e.systems.map Prod.fst)[j]? = some i := by simp [hj]
            obtain ⟨hlt, hi⟩ := List.getElem?_eq_some_iff.mp hget
            rw [List.map_set, ← hi]
            exact List.set_getElem_self hlt
          rw [volleys_cons hnd hslot hj hb, fireAll, Act.run_bind_ok _ hfire]
          refine ih (e := { e with systems := e.systems.set j (i, s') }) (hhandles ▸ hnd) ?_
          intro b' hb'
          rw [hhandles]
          exact hready b' (List.mem_cons_of_mem b hb')

theorem fireAll_agree (hnd : (e.systems.map Prod.fst).Nodup)
    (hready : ∀ b ∈ bursts, ∃ id, slots[b.emitter]?.join = some id ∧ id ∈ e.systems.map Prod.fst)
    (hready' : ∀ b ∈ others, ∃ id, slots[b.emitter]?.join = some id ∧ id ∈ e.systems.map Prod.fst)
    (hown : ∀ id, ownBursts slots bursts id = ownBursts slots others id) :
    Act.Agree (fireAll slots bursts e) (fireAll slots others e) := by
  have hvolleys : volleys slots bursts e.systems = volleys slots others e.systems := by
    simp only [volleys, hown]
  have hcases := fireAll_cases hnd hready
  have hcases' := fireAll_cases hnd hready'
  rw [hvolleys] at hcases
  rcases hcases with ⟨hok, hrun⟩ | ⟨⟨shot, hshot, hfault⟩, hrun⟩
  · rcases hcases' with ⟨_, hrun'⟩ | ⟨⟨shot, hshot, hfault⟩, _⟩
    · exact .inl (hrun.trans hrun'.symm)
    · cases (hok shot hshot).symm.trans hfault
  · rcases hcases' with ⟨hok, _⟩ | ⟨_, hrun'⟩
    · cases (hok shot hshot).symm.trans hfault
    · exact .inr ⟨_, hrun, hrun'⟩

theorem Layout.burst_ready_handle (valid : scene.Valid) (h : Layout scene (n + 1) 0 order slots e)
    {b : BurstDef} (hb : b ∈ burstsOn scene n) :
    ∃ id, slots[b.emitter]?.join = some id ∧ id ∈ e.systems.map Prod.fst := by
  obtain ⟨j, s, hslot, hsystem⟩ := h.burst_ready valid hb
  refine ⟨⟨j⟩, by rw [hslot]; rfl, ?_⟩
  exact List.mem_map.mpr ⟨_, List.mem_of_getElem? hsystem, rfl⟩

-- The bursts of a system are those of one emitter, for no two emitters share a slot.
theorem Layout.ownBursts_eq (h : Layout scene (n + 1) 0 order slots e) (bursts : List BurstDef) (j : Nat) :
    ownBursts slots bursts ⟨j⟩ = bursts.filter fun b => order[j]? = some b.emitter := by
  refine List.filter_congr fun b _ => ?_
  rw [decide_eq_decide, ← h.slot_iff b.emitter j]
  exact Option.join_eq_some_iff

theorem Layout.ownBursts_reordered (h : Layout scene (n + 1) 0 order slots e)
    (reordered : BurstDef.Reordered bursts others) (id : SystemId) :
    ownBursts slots (bursts.filter fun b => b.frame = n) id =
      ownBursts slots (others.filter fun b => b.frame = n) id := by
  obtain ⟨j⟩ := id
  rw [h.ownBursts_eq, h.ownBursts_eq, List.filter_filter, List.filter_filter]
  cases hk : order[j]? with
  | none => simp
  | some k =>
      have hpick (b : BurstDef) : (decide (some k = some b.emitter) && decide (b.frame = n)) =
          decide (b.frame = n ∧ b.emitter = k) := by
        rw [← Bool.decide_and, decide_eq_decide, Option.some.injEq, and_comm, eq_comm (a := k)]
      simp only [hpick]
      exact reordered.kept n k

theorem step_agree {a b : Scene} {t : Timeline}
    (h : Act.Agree (stepEngine a n t.slots t.engine) (stepEngine b n t.slots t.engine)) :
    Act.Agree (step a n t) (step b n t) := by
  rcases ha : stepEngine a n t.slots t.engine with ⟨r, e⟩
  rw [ha] at h
  cases r with
  | ok shown => simp only [step, ha, h.ok_left]; exact .inl rfl
  | error fault =>
      obtain ⟨e', hb⟩ := h.error_left
      simp only [step, ha, hb]
      exact .inr ⟨fault, rfl, rfl⟩

-- Scenes whose frames agree, as far as the first of them can be played, are rendered alike.
theorem renderFrom_congr {σ : Type} {a b : Scene} {pictures : List Frame} {t : Timeline}
    (hstep : ∀ pictures t, Trace a pictures t →
      Act.Agree (step a pictures.length t) (step b pictures.length t))
    (sink : Sink σ) (left : Nat) (trace : Trace a pictures t) (stats : RenderStats) :
    a.renderFrom sink left pictures.length t stats = b.renderFrom sink left pictures.length t stats := by
  induction left generalizing pictures t stats with
  | zero => rfl
  | succ left ih =>
      have hagree := hstep pictures t trace
      rcases ha : step a pictures.length t with ⟨r, u⟩
      rw [ha] at hagree
      cases r with
      | error fault =>
          obtain ⟨u', hb⟩ := hagree.error_left
          funext s
          simp only [Scene.renderFrom, ha, hb]
          rw [Act.run_bind_error _ (Act.run_check (.error fault) s),
            Act.run_bind_error _ (Act.run_check (.error fault) s)]
      | ok picture =>
          have hnext := ih (trace.step ha) (stats.count u.engine.particleCount)
          rw [List.length_append, List.length_singleton] at hnext
          simp only [Scene.renderFrom, ha, hagree.ok_left, hnext]

theorem render_congr {σ : Type} {a b : Scene} {t : Timeline} (ha : start a = .ok t) (hb : start b = .ok t)
    (hconfig : a.sinkConfig = b.sinkConfig) (hduration : a.duration = b.duration)
    (hstep : ∀ pictures t, Trace a pictures t →
      Act.Agree (step a pictures.length t) (step b pictures.length t)) (sink : Sink σ) :
    a.render sink = b.render sink := by
  have hloop := renderFrom_congr hstep sink a.duration (.start ha) {}
  rw [List.length_nil] at hloop
  simp only [Scene.render, ha, hb, ← hconfig, ← hduration]
  funext s
  rw [Act.run_bind_ok _ (Act.run_check (.ok t) s), Act.run_bind_ok _ (Act.run_check (.ok t) s), hloop]

theorem validate_reordered (hv : scene.validate = .ok ())
    (reordered : BurstDef.Reordered scene.bursts others) :
    ({ scene with bursts := others } : Scene).validate = .ok () := by
  have valid := scene.validate_iff_valid.mp hv
  refine Scene.validate_iff_valid _ |>.mpr ⟨valid.canvas, valid.fps, valid.duration, valid.emitters, ?_,
    valid.effects⟩
  intro b hb
  exact valid.bursts b (reordered.perm.mem_iff.mpr hb)

-- The bursts of a frame are fired after its emitters, and what follows does not look at them.
theorem Trace.step_reordered {pictures : List Frame} {t : Timeline} (trace : Trace scene pictures t)
    (reordered : BurstDef.Reordered scene.bursts others) :
    Act.Agree (Timeline.step scene pictures.length t)
      (Timeline.step { scene with bursts := others } pictures.length t) := by
  have valid := scene.validate_iff_valid.mp trace.validate
  obtain ⟨order, layout⟩ := trace.layout
  obtain ⟨slots, e, order', hemitters, layout', _⟩ := layout.emitters valid
  apply step_agree
  rw [stepEngine, stepEngine, Act.run_bind_ok _ hemitters, Act.run_bind_ok _ hemitters]
  refine Act.Agree.bind (fireAll_agree layout'.nodup (fun b hb => layout'.burst_ready_handle valid hb) ?_
    (layout'.ownBursts_reordered reordered)) _
  intro b hb
  obtain ⟨hmem, hframe⟩ := List.mem_filter.mp hb
  have hburst : b ∈ burstsOn scene pictures.length :=
    List.mem_filter.mpr ⟨reordered.perm.mem_iff.mpr hmem, hframe⟩
  exact layout'.burst_ready_handle valid hburst

-- Bursts may be listed in any order that keeps those of one emitter on one frame as they are. The
-- scene stays valid, and a render comes to the same for every sink: the calls it makes, what it
-- returns, and the state it leaves the sink in.
theorem burst_order_is_immaterial (scene : Scene) (hv : scene.validate = .ok ()) (others : List BurstDef)
    (reordered : BurstDef.Reordered scene.bursts others) :
    ({ scene with bursts := others } : Scene).validate = .ok () ∧
    ∀ (σ : Type) (sink : Sink σ) s,
      ({ scene with bursts := others } : Scene).render sink s = scene.render sink s := by
  have hv' := validate_reordered hv reordered
  refine ⟨hv', fun σ sink s => ?_⟩
  have hstart : start { scene with bursts := others } = start scene := by
    rw [start, start, hv, hv']
  cases hs : start scene with
  | error fault =>
      rw [Scene.render, Scene.render, hstart, hs]
      rfl
  | ok t =>
      rw [render_congr hs (hstart.trans hs) rfl rfl (fun _ _ trace => trace.step_reordered reordered) sink]

-- Two emitters that fire on one frame, the first of them twice.
def crossfire : Scene :=
  { lateBurst with
    bursts :=
      [{ frame := 1, emitter := 0, count := 1 }, { frame := 1, emitter := 0, count := 2, radial := true },
        { frame := 1, emitter := 1, count := 3 }] }

def crossfireReordered : List BurstDef :=
  [{ frame := 1, emitter := 0, count := 1 }, { frame := 1, emitter := 1, count := 3 },
    { frame := 1, emitter := 0, count := 2, radial := true }]

theorem reordered_crossfire : BurstDef.Reordered crossfire.bursts crossfireReordered :=
  .cons (.swap (.inr (by decide)) []) _

theorem burst_order_is_immaterial_crossfire :
    crossfire.validate = .ok () ∧ crossfireReordered ≠ crossfire.bursts ∧
    ({ crossfire with bursts := crossfireReordered } : Scene).render Recording.sink {} =
      crossfire.render Recording.sink {} := by
  have himmaterial := burst_order_is_immaterial crossfire rfl crossfireReordered reordered_crossfire
  exact ⟨rfl, by decide, himmaterial.2 Recording Recording.sink {}⟩

end Timeline

end ParticleFx
