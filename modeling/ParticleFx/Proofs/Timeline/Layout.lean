import Mathlib.Data.List.Nodup
import Mathlib.Logic.Function.Iterate
import ParticleFx.Proofs.Engine.Faults
import ParticleFx.Proofs.Scene.Validity
import ParticleFx.Proofs.Timeline.Step
import ParticleFx.Proofs.Timeline.Trace

namespace ParticleFx

-- Where an emitter stands after it has moved a number of times.
def Scene.place (scene : Scene) (d : EmitterDef) (moves : Nat) : Vec2 :=
  (fun p => p + d.motion.scale scene.fps.frameSeconds)^[moves] d.config.position

theorem Scene.place_succ (scene : Scene) (d : EmitterDef) (moves : Nat) :
    scene.place d (moves + 1) =
      scene.place d moves + d.motion.scale scene.fps.frameSeconds :=
  Function.iterate_succ_apply' _ _ _

namespace Timeline

variable {scene : Scene} {n i : Nat} {order : List Nat} {slots : List (Option SystemId)}
  {e e' : Engine} {d : EmitterDef}

-- Emitters start by frame, and those of one frame in the order of the scene.
def StartsBefore (scene : Scene) (k k' : Nat) : Prop :=
  ∃ d d', scene.emitters[k]? = some d ∧ scene.emitters[k']? = some d' ∧
    (d.start < d'.start ∨ d.start = d'.start ∧ k < k')

-- Emitter `k` has started by the time that, on frame `n`, the emitters before `i` are done.
def Started (scene : Scene) (n i k : Nat) : Prop :=
  ∃ d, scene.emitters[k]? = some d ∧ (d.start < n ∨ d.start = n ∧ k < i)

-- How often it has moved by then: never on the frame it starts on, and once on each later one.
def moves (n i k : Nat) (d : EmitterDef) : Nat :=
  if k < i then n - d.start else n - 1 - d.start

-- The emitters that have started by then, in order, with their slots and their systems.
structure Layout (scene : Scene) (n i : Nat) (order : List Nat) (slots : List (Option SystemId))
    (e : Engine) : Prop where
  size : slots.length = scene.emitters.length
  sorted : order.Pairwise (StartsBefore scene)
  mem_iff : ∀ k, k ∈ order ↔ Started scene n i k
  slot_iff : ∀ k j : Nat, slots[k]? = some (some ⟨j⟩) ↔ order[j]? = some k
  nextId : e.nextId = order.length
  length_roster : e.roster.length = order.length
  roster : ∀ (j k : Nat) d, order[j]? = some k → scene.emitters[k]? = some d →
    e.roster[j]? = some (⟨j⟩, d.config, scene.place d (moves n i k d))

-- One more turn starts at most the emitter whose turn it is.
theorem started_succ (hd : scene.emitters[i]? = some d) (k : Nat) :
    Started scene n (i + 1) k ↔ Started scene n i k ∨ k = i ∧ d.start = n := by
  constructor
  · rintro ⟨d', hd', hstarted⟩
    by_cases hk : k = i
    · subst hk
      obtain rfl : d = d' := Option.some.inj (hd.symm.trans hd')
      rcases hstarted with hlt | ⟨heq, _⟩
      · exact .inl ⟨d, hd, .inl hlt⟩
      · exact .inr ⟨rfl, heq⟩
    · exact .inl ⟨d', hd', by omega⟩
  · rintro (⟨d', hd', hstarted⟩ | ⟨rfl, heq⟩)
    · exact ⟨d', hd', by omega⟩
    · exact ⟨d, hd, by omega⟩

theorem started_length (scene : Scene) (n k : Nat) :
    Started scene n scene.emitters.length k ↔ Started scene (n + 1) 0 k := by
  constructor
  · rintro ⟨d, hd, hstarted⟩
    exact ⟨d, hd, by omega⟩
  · rintro ⟨d, hd, hstarted⟩
    have hk : k < scene.emitters.length := (List.getElem?_eq_some_iff.mp hd).1
    exact ⟨d, hd, by omega⟩

theorem moves_succ_of_ne {k : Nat} (hk : k ≠ i) (d : EmitterDef) : moves n (i + 1) k d = moves n i k d := by
  have hbefore : k < i + 1 ↔ k < i := by omega
  simp only [moves, hbefore]

namespace Layout

theorem zero (scene : Scene) :
    Layout scene 0 0 [] (scene.emitters.map fun _ => none) (.ofSeed scene.seed) where
  size := by simp
  sorted := .nil
  mem_iff := by simp [Started]
  slot_iff := by
    intro k j
    rw [List.getElem?_map]
    simp
  nextId := rfl
  length_roster := rfl
  roster := by simp

-- Only the handles, the configurations and the places of the emitters count.
theorem congr (h : Layout scene n i order slots e) (hroster : e'.roster = e.roster)
    (hnext : e'.nextId = e.nextId) : Layout scene n i order slots e' where
  size := h.size
  sorted := h.sorted
  mem_iff := h.mem_iff
  slot_iff := h.slot_iff
  nextId := hnext.trans h.nextId
  length_roster := by rw [hroster, h.length_roster]
  roster := by
    rw [hroster]
    exact h.roster

theorem exists_emitter (h : Layout scene n i order slots e) {k : Nat} (hk : k ∈ order) :
    ∃ d, scene.emitters[k]? = some d := by
  obtain ⟨d, hd, _⟩ := (h.mem_iff k).mp hk
  exact ⟨d, hd⟩

-- Handles are given out in order, so they are the places of the systems.
theorem handles (h : Layout scene n i order slots e) :
    e.systems.map Prod.fst = (List.range order.length).map SystemId.mk := by
  have hfst : e.systems.map Prod.fst = e.roster.map Prod.fst := by
    simp [Engine.roster, Function.comp_def]
  rw [hfst]
  apply List.ext_getElem?
  intro j
  by_cases hj : j < order.length
  · obtain ⟨d, hd⟩ := h.exists_emitter (List.getElem_mem hj)
    have hr := h.roster j _ d (List.getElem?_eq_getElem hj) hd
    simp [hr, hj]
  · have hr : e.roster[j]? = none := List.getElem?_eq_none (by rw [h.length_roster]; omega)
    simp [hr, hj]

theorem nodup (h : Layout scene n i order slots e) : (e.systems.map Prod.fst).Nodup := by
  rw [h.handles]
  exact List.nodup_range.map fun _ _ heq => SystemId.mk.inj heq

theorem exists_system (h : Layout scene n i order slots e) {j k : Nat} (hj : order[j]? = some k)
    (hd : scene.emitters[k]? = some d) :
    ∃ s, e.systems[j]? = some (⟨j⟩, s) ∧ s.config = d.config ∧
      s.emitter = scene.place d (moves n i k d) := by
  have hr := h.roster j k d hj hd
  simp only [Engine.roster, List.getElem?_map, Option.map_eq_some_iff] at hr
  obtain ⟨⟨id, s⟩, hs, heq⟩ := hr
  obtain ⟨rfl, hstation⟩ := Prod.mk.inj heq
  obtain ⟨hconfig, hplace⟩ := Prod.mk.inj hstation
  exact ⟨s, hs, hconfig, hplace⟩

theorem index_unique (h : Layout scene n i order slots e) {j j' k : Nat} (hj : order[j]? = some k)
    (hj' : order[j']? = some k) : j = j' := by
  have hslot := (h.slot_iff k j).mpr hj
  rw [(h.slot_iff k j').mpr hj'] at hslot
  simpa using hslot.symm

theorem notMem_of_slot_none (h : Layout scene n i order slots e) {k : Nat} (hs : slots[k]? = some none) :
    k ∉ order := by
  intro hmem
  obtain ⟨j, hj⟩ := List.getElem?_of_mem hmem
  have hslot := (h.slot_iff k j).mpr hj
  rw [hs] at hslot
  cases hslot

-- An emitter that has started before its turn did so on an earlier frame.
theorem start_lt (h : Layout scene n i order slots e) (hd : scene.emitters[i]? = some d)
    (hi : i ∈ order) : d.start < n := by
  obtain ⟨d', hd', hstarted⟩ := (h.mem_iff i).mp hi
  obtain rfl : d = d' := Option.some.inj (hd.symm.trans hd')
  omega

-- The turn of an emitter that has started: it moves, and nothing else changes.
theorem move (h : Layout scene n i order slots e) (hd : scene.emitters[i]? = some d) {j : Nat}
    (hj : order[j]? = some i)
    (hroster : e'.roster = e.roster.set j (⟨j⟩, d.config,
      scene.place d (moves n i i d) + d.motion.scale scene.fps.frameSeconds))
    (hnext : e'.nextId = e.nextId) : Layout scene n (i + 1) order slots e' := by
  have hstart := h.start_lt hd (List.mem_of_getElem? hj)
  refine ⟨h.size, h.sorted, ?_, h.slot_iff, hnext.trans h.nextId, ?_, ?_⟩
  · intro k
    rw [h.mem_iff k, started_succ hd k]
    simp [Nat.ne_of_lt hstart]
  · rw [hroster, List.length_set, h.length_roster]
  · intro j' k d' hj' hd'
    rw [hroster]
    by_cases hk : k = i
    · subst hk
      obtain rfl : d = d' := Option.some.inj (hd.symm.trans hd')
      obtain rfl := h.index_unique hj hj'
      have hlt : j < e.roster.length := h.length_roster ▸ (List.getElem?_eq_some_iff.mp hj).1
      have hmoves : moves n (k + 1) k d = moves n k k d + 1 := by
        simp only [moves, Nat.lt_succ_self, if_true, Nat.lt_irrefl, if_false]
        omega
      rw [List.getElem?_set_self hlt, hmoves, scene.place_succ]
    · have hne : j ≠ j' := by
        rintro rfl
        exact hk (Option.some.inj (hj'.symm.trans hj))
      rw [List.getElem?_set_ne hne, moves_succ_of_ne hk]
      exact h.roster j' k d' hj' hd'

-- The turn of an emitter whose frame has come: its system is registered after all others.
theorem register (h : Layout scene n i order slots e) (hd : scene.emitters[i]? = some d)
    (hi : i ∉ order) (hstart : d.start = n)
    (hroster : e'.roster = e.roster ++ [(⟨order.length⟩, d.config, d.config.position)])
    (hnext : e'.nextId = e.nextId + 1) :
    Layout scene n (i + 1) (order ++ [i]) (slots.set i (some ⟨order.length⟩)) e' := by
  have hsize : i < slots.length := h.size ▸ (List.getElem?_eq_some_iff.mp hd).1
  refine ⟨by simpa using h.size, ?_, ?_, ?_, ?_, ?_, ?_⟩
  · refine List.pairwise_append.mpr ⟨h.sorted, List.pairwise_singleton _ _, ?_⟩
    intro k hk k' hk'
    obtain rfl := List.mem_singleton.mp hk'
    obtain ⟨d', hd', hstarted⟩ := (h.mem_iff k).mp hk
    exact ⟨d', d, hd', hd, by omega⟩
  · intro k
    rw [List.mem_append, List.mem_singleton, h.mem_iff k, started_succ hd k]
    simp [hstart]
  · intro k j
    rw [getElem?_concat_eq_some_iff]
    by_cases hk : k = i
    · subst hk
      have hold : order[j]? ≠ some k := fun hj => hi (List.mem_of_getElem? hj)
      simp [List.getElem?_set_self hsize, hold, eq_comm]
    · rw [List.getElem?_set_ne (Ne.symm hk), h.slot_iff k j]
      simp [Ne.symm hk]
  · simp [hnext, h.nextId]
  · simp [hroster, h.length_roster]
  · intro j k d' hj hd'
    rw [hroster, getElem?_concat_eq_some_iff]
    rcases getElem?_concat_eq_some_iff.mp hj with hold | ⟨rfl, rfl⟩
    · have hne : k ≠ i := by
        rintro rfl
        exact hi (List.mem_of_getElem? hold)
      rw [moves_succ_of_ne hne]
      exact .inl (h.roster j k d' hold hd')
    · obtain rfl : d = d' := Option.some.inj (hd.symm.trans hd')
      have hmoves : moves n (i + 1) i d = 0 := by simp [moves, hstart]
      rw [hmoves]
      exact .inr ⟨h.length_roster.symm, rfl⟩

theorem skip (h : Layout scene n i order slots e) (hd : scene.emitters[i]? = some d) (hi : i ∉ order)
    (hstart : d.start ≠ n) : Layout scene n (i + 1) order slots e := by
  refine ⟨h.size, h.sorted, ?_, h.slot_iff, h.nextId, h.length_roster, ?_⟩
  · intro k
    rw [h.mem_iff k, started_succ hd k]
    simp [hstart]
  · intro j k d' hj hd'
    have hne : k ≠ i := by
      rintro rfl
      exact hi (List.mem_of_getElem? hj)
    rw [moves_succ_of_ne hne]
    exact h.roster j k d' hj hd'

-- When every emitter has had its turn, the next frame begins.
theorem turn (h : Layout scene n scene.emitters.length order slots e) :
    Layout scene (n + 1) 0 order slots e := by
  refine ⟨h.size, h.sorted, ?_, h.slot_iff, h.nextId, h.length_roster, ?_⟩
  · intro k
    rw [h.mem_iff k, started_length]
  · intro j k d hj hd
    have hk : k < scene.emitters.length := (List.getElem?_eq_some_iff.mp hd).1
    have hmoves : moves (n + 1) 0 k d = moves n scene.emitters.length k d := by simp [moves, hk]
    rw [hmoves]
    exact h.roster j k d hj hd

-- One turn never fails in a valid scene. It draws from the source only to start a system.
theorem stepEmitter (valid : scene.Valid) (h : Layout scene n i order slots e)
    (hd : scene.emitters[i]? = some d) {slot : Option SystemId} (hs : slots[i]? = some slot) :
    ∃ slot' e' order', Timeline.stepEmitter scene.fps.frameSeconds n d slot e = (.ok slot', e') ∧
      Layout scene n (i + 1) order' (slots.set i slot') e' ∧
      e'.source = e.source.afterForks (if d.start = n then 1 else 0) := by
  have hself : slots.set i slot = slots := by
    obtain ⟨hi, rfl⟩ := List.getElem?_eq_some_iff.mp hs
    exact List.set_getElem_self hi
  cases slot with
  | some id =>
      obtain ⟨j⟩ := id
      have hj : order[j]? = some i := (h.slot_iff i j).mp hs
      have hstart := Nat.ne_of_lt (h.start_lt hd (List.mem_of_getElem? hj))
      obtain ⟨s, hsystem, hconfig, hplace⟩ := h.exists_system hj hd
      have hrun := Engine.onSystem_eq h.nodup hsystem
        (Act.modify fun s => s.moveTo (s.emitter + d.motion.scale scene.fps.frameSeconds))
      rw [Timeline.stepEmitter, Act.run_bind_ok _ hrun]
      refine ⟨_, _, order, rfl, hself.symm ▸ h.move hd hj ?_ rfl, by simp [hstart]⟩
      simp [Engine.roster, List.map_set, ParticleSystem.station, ParticleSystem.moveTo, hconfig, hplace]
  | none =>
      have hi := h.notMem_of_slot_none hs
      rw [Timeline.stepEmitter]
      split
      · rename_i hstart
        have hmem : d ∈ scene.emitters := List.mem_of_getElem? hd
        obtain ⟨source, hadd⟩ := Engine.addSystem_eq (valid.emitters d hmem).1 e
        rw [Act.run_bind_ok _ hadd, h.nextId]
        refine ⟨_, _, _, rfl, h.register hd hi hstart ?_ ?_, rfl⟩
        · simp [Engine.roster, ParticleSystem.station]
        · rw [h.nextId]
      · rename_i hstart
        exact ⟨none, e, order, rfl, hself.symm ▸ h.skip hd hi hstart, rfl⟩

-- The turns of the emitters that are left. What stands before the cursor is done.
theorem stepEmitters (valid : scene.Valid) {done rest : List (Option SystemId)} {ds : List EmitterDef}
    (h : Layout scene n done.length order (done ++ rest) e)
    (hds : scene.emitters.drop done.length = ds) :
    ∃ rest' e' order',
      Timeline.stepEmitters scene.fps.frameSeconds n ds rest e = (.ok rest', e') ∧
      Layout scene n scene.emitters.length order' (done ++ rest') e' ∧
      e'.source = e.source.afterForks (ds.countP fun d => d.start = n) := by
  have hsize := h.size
  rw [List.length_append] at hsize
  induction ds generalizing done rest order e with
  | nil =>
      have hle := List.drop_eq_nil_iff.mp hds
      obtain rfl : rest = [] := List.length_eq_zero_iff.mp (by omega)
      have hlen : done.length = scene.emitters.length := by omega
      exact ⟨[], e, order, rfl, hlen ▸ h, rfl⟩
  | cons d ds ih =>
      have hd : scene.emitters[done.length]? = some d := by
        have hhead := congrArg List.head? hds
        simpa [List.head?_drop] using hhead
      have hlt := (List.getElem?_eq_some_iff.mp hd).1
      have htail : scene.emitters.drop (done.length + 1) = ds := by
        rw [← List.drop_drop, hds]
        rfl
      cases rest with
      | nil => simp at hsize; omega
      | cons slot rest =>
          have hslot : (done ++ slot :: rest)[done.length]? = some slot := by simp
          obtain ⟨slot', e₁, order₁, hturn, h₁, hsource₁⟩ := h.stepEmitter valid hd hslot
          have hset : (done ++ slot :: rest).set done.length slot' = (done ++ [slot']) ++ rest := by simp
          have hlen : (done ++ [slot']).length = done.length + 1 := by simp
          rw [hset, ← hlen] at h₁
          rw [← hlen] at htail
          obtain ⟨rest', e₂, order₂, hturns, h₂, hsource₂⟩ :=
            ih h₁ htail (by rw [← List.length_append]; exact h₁.size)
          refine ⟨slot' :: rest', e₂, order₂, ?_, by simpa using h₂, ?_⟩
          · rw [Timeline.stepEmitters, Act.run_bind_ok _ hturn, Act.run_bind_ok _ hturns]
            rfl
          · rw [hsource₂, hsource₁, Source.afterForks_add, List.countP_cons, Nat.add_comm]
            simp

end Layout

theorem Layout.emitters (valid : scene.Valid) (h : Layout scene n 0 order slots e) :
    ∃ slots' e' order',
      Timeline.stepEmitters scene.fps.frameSeconds n scene.emitters slots e = (.ok slots', e') ∧
      Layout scene (n + 1) 0 order' slots' e' ∧
      e'.source = e.source.afterForks (scene.emitters.countP fun d => d.start = n) := by
  have h₀ : Layout scene n ([] : List (Option SystemId)).length order ([] ++ slots) e := h
  obtain ⟨slots', e', order', hrun, h', hsource⟩ := h₀.stepEmitters valid rfl
  exact ⟨slots', e', order', hrun, h'.turn, hsource⟩

-- The stages of a frame after the emitters move nothing and register nothing.
theorem Layout.fireAll (h : Layout scene n i order slots e) {bursts : List BurstDef}
    {r : Except Fault Unit} (hfire : Timeline.fireAll slots bursts e = (r, e')) :
    Layout scene n i order slots e' := by
  have hroster := keeps_roster_fireAll slots bursts e
  have hnext : (Timeline.fireAll slots bursts e).2.nextId = e.nextId :=
    keeps_fireAll_of_systems (fun _ _ => rfl) slots bursts e
  rw [hfire] at hroster hnext
  exact h.congr hroster hnext

theorem Layout.update (h : Layout scene n i order slots e) {dt : Float} {r : Except Fault Unit}
    (hupdate : Engine.update dt e = (r, e')) : Layout scene n i order slots e' := by
  have hroster := Engine.keeps_roster_update dt e
  have hnext : (Engine.update dt e).2.nextId = e.nextId := Engine.keeps_update (fun _ _ => rfl) dt e
  rw [hupdate] at hroster hnext
  exact h.congr hroster hnext

theorem Layout.step {t t' : Timeline} {picture : Frame} (valid : scene.Valid)
    (h : Layout scene n 0 order t.slots t.engine)
    (hs : Timeline.step scene n t = (.ok picture, t')) :
    ∃ order', Layout scene (n + 1) 0 order' t'.slots t'.engine := by
  obtain ⟨e₁, e₂, e₃, e₄, hemitters, hbursts, hupdate, hqueue, hrender⟩ := step_eq_ok hs
  obtain ⟨slots', e', order', hrun, h₁, _⟩ := h.emitters valid
  rw [hemitters, Prod.mk.injEq, Except.ok.injEq] at hrun
  obtain ⟨rfl, rfl⟩ := hrun
  have h₃ := (h₁.fireAll hbursts).update hupdate
  obtain ⟨_, _, source, _, _, hengine⟩ := Engine.render_eq_ok hrender
  rw [queueAll_eq_ok hqueue] at hengine
  exact ⟨order', h₃.congr (by rw [hengine]; rfl) (by rw [hengine])⟩

-- Every timeline that a scene can reach is laid out as its emitters say.
theorem Trace.layout {pictures : List Frame} {t : Timeline} (trace : Trace scene pictures t) :
    ∃ order, Layout scene pictures.length 0 order t.slots t.engine := by
  have valid := scene.validate_iff_valid.mp trace.validate
  induction trace with
  | start hs =>
      obtain ⟨-, -, rfl⟩ := start_eq_ok_iff.mp hs
      exact ⟨[], .zero scene⟩
  | step _ hs ih =>
      obtain ⟨order, h⟩ := ih
      rw [List.length_append]
      exact h.step valid hs

end Timeline

end ParticleFx
