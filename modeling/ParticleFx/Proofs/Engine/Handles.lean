import ParticleFx.Proofs.Engine.Queue

namespace ParticleFx

open Act (Keeps)

theorem SystemStep.keeps_config (step : SystemStep) : Keeps ParticleSystem.config step.act := by
  cases step with
  | moveTo position => exact .modify fun _ => rfl
  | emit count => exact ParticleSystem.keeps_emit (fun _ _ _ => rfl) _
  | emitRadial count => exact ParticleSystem.keeps_emitRadial (fun _ _ _ => rfl) _
  | update dt => exact fun s => congrArg Prod.fst (ParticleSystem.keeps_update dt s)

theorem ParticleSystem.config_of_make {config : SystemConfig} {source : Source} {made : ParticleSystem}
    (h : make config source = .ok made) : made.config = config := by
  obtain ⟨_, _, hmade⟩ := bind_eq_ok_iff.mp h
  obtain rfl := Except.ok.inj hmade
  rfl

namespace Engine

variable {e e' : Engine} {id i : SystemId} {s : ParticleSystem} {calls : List Call}
  {systems systems' : List (SystemId × ParticleSystem)} {answer : Except Fault Answer}

-- The step that an operation takes on the system with the handle.
def Operation.stepFor (id : SystemId) : Operation → Option SystemStep
  | onSystem i step => if i = id then some step else none
  | update dt => some (.update dt)
  | _ => none

-- What becomes of the system with the handle in the course of the calls. Systems are updated in order
-- up to the first that fails, so an update that fails may not get to this one.
inductive Lineage (id : SystemId) (made : ParticleSystem) : List Call → ParticleSystem → Prop
  | nil : Lineage id made [] made
  | idle {calls : List Call} {s : ParticleSystem} {call : Call} (before : Lineage id made calls s)
      (h : call.operation.stepFor id = none) : Lineage id made (calls ++ [call]) s
  | stepped {calls : List Call} {s : ParticleSystem} {call : Call} {step : SystemStep}
      (before : Lineage id made calls s) (h : call.operation.stepFor id = some step) :
      Lineage id made (calls ++ [call]) (step.act s).2
  | passedOver {calls : List Call} {s : ParticleSystem} {dt : Float} {fault : Fault}
      (before : Lineage id made calls s) : Lineage id made (calls ++ [⟨.update dt, .error fault⟩]) s

theorem Lineage.config_eq {made : ParticleSystem} (h : Lineage id made calls s) :
    s.config = made.config := by
  induction h with
  | nil => rfl
  | idle _ _ ih => exact ih
  | @stepped _ _ _ step _ _ ih => rw [step.keeps_config, ih]
  | passedOver _ ih => exact ih

-- A step on one system changes what is found under its handle, and no other.
theorem lookup_stepOn {α : Type} {x : Act ParticleSystem α} {r : Except Fault α}
    (h : stepOn i x systems = some (r, systems')) (id : SystemId) :
    systems'.lookup id =
      if i = id then (systems.lookup id).map (fun s => (x s).2) else systems.lookup id := by
  induction systems generalizing systems' r with
  | nil => simp [stepOn] at h
  | cons entry rest ih =>
      obtain ⟨first, s⟩ := entry
      simp only [stepOn] at h
      split at h
      · rename_i hfirst
        subst hfirst
        obtain ⟨rfl, rfl⟩ := by simpa using h
        by_cases hid : first = id
        · subst hid
          simp
        · have hne : (id == first) = false := beq_eq_false_iff_ne.mpr (Ne.symm hid)
          simp [List.lookup_cons, hne, hid]
      · rename_i hfirst
        obtain ⟨⟨r', rest'⟩, hrest, heq⟩ := Option.map_eq_some_iff.mp h
        obtain ⟨rfl, rfl⟩ := by simpa using heq
        by_cases hid : id = first
        · subst hid
          simp [Ne.symm hfirst]
        · have hne : (id == first) = false := beq_eq_false_iff_ne.mpr hid
          simp only [List.lookup_cons, hne, ih hrest]

theorem lookup_of_stepOn_none {α : Type} {x : Act ParticleSystem α} (h : stepOn i x systems = none) :
    systems.lookup i = none := by
  induction systems with
  | nil => rfl
  | cons entry rest ih =>
      obtain ⟨first, s⟩ := entry
      simp only [stepOn] at h
      split at h
      · cases h
      · rename_i hfirst
        rw [List.lookup_cons, beq_eq_false_iff_ne.mpr (Ne.symm hfirst)]
        exact ih (Option.map_eq_none_iff.mp h)

theorem system?_onSystem {α : Type} (x : Act ParticleSystem α) (e : Engine) (i id : SystemId) :
    (onSystem i x e).2.system? id =
      if i = id then (e.system? id).map (fun s => (x s).2) else e.system? id := by
  simp only [onSystem]
  cases hstep : stepOn i x e.systems with
  | some changed => exact lookup_stepOn hstep id
  | none =>
      have hgone : e.system? i = none := lookup_of_stepOn_none hstep
      by_cases hid : i = id
      · simp [← hid, hgone]
      · simp [hid]

theorem lookup_updateAll (dt : Float) (hs : systems.lookup id = some s) :
    (updateAll dt systems).2.lookup id = some (ParticleSystem.update dt s).2 ∨
    (∃ fault, (updateAll dt systems).1 = .error fault) ∧ (updateAll dt systems).2.lookup id = some s := by
  induction systems with
  | nil => simp at hs
  | cons entry rest ih =>
      obtain ⟨first, t⟩ := entry
      by_cases hid : id = first
      · subst hid
        obtain rfl : t = s := by simpa using hs
        rcases ht : ParticleSystem.update dt t with ⟨r, t'⟩
        cases r <;> simp [updateAll, ht]
      · have hne : (id == first) = false := beq_eq_false_iff_ne.mpr hid
        rw [List.lookup_cons, hne] at hs
        rcases ht : ParticleSystem.update dt t with ⟨r, t'⟩
        cases r with
        | ok _ => simpa only [updateAll, ht, List.lookup_cons, hne] using ih hs
        | error fault => simp [updateAll, ht, List.lookup_cons, hne, hs]

-- A call that takes no step on any system and does not clear them can only add to them.
theorem Change.systems_append {call : Call} (h : Change e call e')
    (hstep : ∀ id, call.operation.stepFor id = none) (hclear : call.clearsParticles = false) :
    ∃ new, e'.systems = e.systems ++ new := by
  cases h with
  | registered _ _ => exact ⟨_, rfl⟩
  | @stepped id step _ _ _ _ =>
      have hown := hstep id
      simp [Operation.stepFor] at hown
  | @updated dt _ _ _ _ => cases hstep ⟨0⟩
  | particlesCleared => cases hclear
  | _ => exact ⟨[], (List.append_nil _).symm⟩

-- What is found under a handle after a call: nothing once the systems have been cleared, else what the
-- call has made of it.
theorem lookup_run {op : Operation} {made : ParticleSystem} (h : op.run e = (answer, e'))
    (hs : e.system? id = some s) (hclear : Call.clearsParticles ⟨op, answer⟩ = false)
    (lineage : Lineage id made calls s) :
    ∃ s', e'.system? id = some s' ∧ Lineage id made (calls ++ [⟨op, answer⟩]) s' := by
  cases op with
  | onSystem i step =>
      rw [Operation.run, Act.run_bind_pure] at h
      obtain ⟨-, rfl⟩ := Prod.mk.inj h
      have hfound := system?_onSystem step.act e i id
      by_cases hid : i = id
      · rw [if_pos hid, hs] at hfound
        exact ⟨_, hfound, lineage.stepped (if_pos hid)⟩
      · rw [if_neg hid, hs] at hfound
        exact ⟨s, hfound, lineage.idle (if_neg hid)⟩
  | update dt =>
      rw [Operation.run, Act.run_bind_pure] at h
      obtain ⟨rfl, rfl⟩ := Prod.mk.inj h
      rcases lookup_updateAll dt hs with hfound | ⟨⟨fault, hfault⟩, hfound⟩
      · exact ⟨((SystemStep.update dt).act s).2, hfound, lineage.stepped rfl⟩
      · have hresult : (Engine.update dt e).1 = .error fault := hfault
        rw [hresult]
        exact ⟨s, hfound, lineage.passedOver⟩
  | clearParticles => cases hclear
  | _ =>
      obtain ⟨new, hsystems⟩ := (Change.of_run h).systems_append (fun _ => rfl) rfl
      refine ⟨s, ?_, lineage.idle rfl⟩
      rw [system?, hsystems, List.lookup_append, ← system?, hs]
      rfl

theorem system?_eq_none (h : id ∉ e.systems.map Prod.fst) : e.system? id = none := by
  rw [system?, List.lookup_eq_none_iff]
  intro entry hentry
  have hne : entry.1 ≠ id := fun heq => h (heq ▸ List.mem_map_of_mem hentry)
  simpa using Ne.symm hne

theorem lookup_concat_self (h : systems.lookup id = none) (s : ParticleSystem) :
    (systems ++ [(id, s)]).lookup id = some s := by
  simp [List.lookup_append, h]

theorem Change.nextId_eq {call : Call} (h : Change e call e') :
    e'.nextId = e.nextId + call.handle?.toList.length := by
  cases h with
  | accepted hp => simp [(asks_only _ hp).2.1]
  | requestRefused hr => simp [(asks_only _ hr).2.1]
  | _ => simp [Call.handle?]

theorem Change.handle_eq {call : Call} (h : Change e call e') (hid : call.handle? = some id) :
    id = ⟨e.nextId⟩ := by
  cases h with
  | registered _ _ => exact (Option.some.inj hid).symm
  | accepted hp => rw [(asks_only _ hp).2.1] at hid; cases hid
  | requestRefused hr => rw [(asks_only _ hr).2.1] at hid; cases hid
  | _ => simp [Call.handle?] at hid

namespace Run

variable {seed : UInt64} {place : Nat}

-- The handles of a run, in the order they are given out, are the numbers up to the next one.
theorem handed_out (run : Run (.ofSeed seed) calls e) :
    calls.filterMap Call.handle? = (List.range e.nextId).map SystemId.mk := by
  induction run with
  | nil => rfl
  | @snoc calls e e' op answer _ h ih =>
      have change : Change e ⟨op, answer⟩ e' := .of_run h
      rw [List.filterMap_append, ih, change.nextId_eq]
      cases hid : Call.handle? ⟨op, answer⟩ with
      | none => simp [hid]
      | some id =>
          rw [change.handle_eq hid] at hid
          simp [hid, List.range_succ]

theorem handle_lt (run : Run (.ofSeed seed) calls e) (hid : calls[place]?.bind Call.handle? = some id) :
    id.number < e.nextId := by
  obtain ⟨call, hcall, hhandle⟩ := Option.bind_eq_some_iff.mp hid
  have hmem : id ∈ calls.filterMap Call.handle? :=
    List.mem_filterMap.mpr ⟨call, List.mem_of_getElem? hcall, hhandle⟩
  rw [run.handed_out] at hmem
  obtain ⟨number, hnumber, rfl⟩ := List.mem_map.mp hmem
  exact List.mem_range.mp hnumber

theorem handle_ne {other : Nat} (run : Run (.ofSeed seed) calls e)
    (hplace : calls[place]?.bind Call.handle? = some id) (hlt : other < place) :
    calls[other]?.bind Call.handle? ≠ some id := by
  intro hother
  obtain ⟨call, hcall, hhandle⟩ := Option.bind_eq_some_iff.mp hplace
  obtain ⟨mid, after, before, hrun⟩ := run.exists_before hcall
  have change : Change mid call after := .of_run hrun
  have hearlier : (calls.take place)[other]?.bind Call.handle? = some id := by
    rw [List.getElem?_take_of_lt hlt]
    exact hother
  have hbound := before.handle_lt hearlier
  rw [change.handle_eq hhandle] at hbound
  exact Nat.lt_irrefl _ hbound

theorem handle_place_unique {other : Nat} (run : Run (.ofSeed seed) calls e)
    (hplace : calls[place]?.bind Call.handle? = some id)
    (hother : calls[other]?.bind Call.handle? = some id) : place = other := by
  rcases Nat.lt_trichotomy place other with hlt | heq | hgt
  · exact absurd hplace (run.handle_ne hother hlt)
  · exact heq
  · exact absurd hother (run.handle_ne hplace hgt)

theorem handles_sorted (run : Run (.ofSeed seed) calls e) :
    (e.systems.map Prod.fst).Pairwise (fun i j => i.number < j.number) ∧
      ∀ id ∈ e.systems.map Prod.fst, id.number < e.nextId := by
  induction run with
  | nil => simp [ofSeed]
  | @snoc calls e e' op answer _ h ih =>
      obtain ⟨hsorted, hbound⟩ := ih
      have change : Change e ⟨op, answer⟩ e' := .of_run h
      have hnew : ∀ id ∈ (Call.handle? ⟨op, answer⟩).toList, id = ⟨e.nextId⟩ := by
        intro id hid
        exact change.handle_eq (Option.mem_toList.mp hid)
      rw [change.handles, change.nextId_eq]
      refine ⟨List.pairwise_append.mpr ⟨hsorted.filter _, ?_, ?_⟩, ?_⟩
      · cases Call.handle? ⟨op, answer⟩ <;> simp
      · intro i hi j hj
        rw [hnew j hj]
        exact hbound i (List.mem_filter.mp hi).1
      · intro id hid
        rcases List.mem_append.mp hid with hold | hlast
        · exact Nat.lt_add_right _ (hbound id (List.mem_filter.mp hold).1)
        · have hone : 0 < (Call.handle? ⟨op, answer⟩).toList.length := List.length_pos_of_mem hlast
          rw [hnew id hlast]
          exact Nat.lt_add_of_pos_right hone

theorem handle_gone {k : Nat} (run : Run (.ofSeed seed) calls e)
    (hid : calls[place]?.bind Call.handle? = some id) (hk : place < k)
    (hclear : calls[k]?.any Call.clearsParticles = true) : e.system? id = none := by
  have hnot : id ∉ e.systems.map Prod.fst := by
    rw [run.handles_eq]
    intro hmem
    obtain ⟨⟨n, i⟩, hstanding, hi⟩ := List.mem_map.mp hmem
    obtain rfl : i = id := hi
    obtain ⟨n', rfl, hmade, hkept⟩ := mem_standing_iff.mp hstanding
    obtain rfl := run.handle_place_unique hid hmade
    cases hcall : calls[k]? with
    | none => simp [hcall] at hclear
    | some call =>
        have hlasts := hkept k call hk hcall
        simp_all
  exact system?_eq_none hnot

theorem lineage {config : SystemConfig} (run : Run (.ofSeed seed) calls e)
    (hplace : calls[place]? = some ⟨.addSystem config, .ok (.handle id)⟩)
    (hkept : NoneBetween calls place calls.length Call.clearsParticles) :
    ∃ mid source made s, Run (.ofSeed seed) (calls.take (place + 1)) mid ∧
      ParticleSystem.make config source = .ok made ∧ mid.system? id = some made ∧
      e.system? id = some s ∧ Lineage id made (calls.drop (place + 1)) s := by
  induction run with
  | nil => simp at hplace
  | @snoc calls e e' op answer run h ih =>
      by_cases hlt : place < calls.length
      · rw [List.getElem?_append_left hlt] at hplace
        have hkept' : NoneBetween calls place calls.length Call.clearsParticles := by
          intro k hk hlen
          have hnone := hkept k hk (by simp; omega)
          rwa [List.getElem?_append_left hlen] at hnone
        have hlast : Call.clearsParticles ⟨op, answer⟩ = false := by
          simpa using hkept calls.length hlt (by simp)
        obtain ⟨mid, source, made, s, before, hmade, hmid, hs, lineage⟩ := ih hplace hkept'
        obtain ⟨s', hs', lineage'⟩ := lookup_run h hs hlast lineage
        rw [List.take_append_of_le_length hlt, List.drop_append_of_le_length hlt]
        exact ⟨mid, source, made, s', before, hmade, hmid, hs', lineage'⟩
      · have hlen := (List.getElem?_eq_some_iff.mp hplace).1
        rw [List.length_append, List.length_singleton] at hlen
        obtain rfl : place = calls.length := by omega
        obtain ⟨rfl, rfl⟩ : op = .addSystem config ∧ answer = .ok (.handle id) := by simpa using hplace
        have longer := run.snoc h
        have change := Change.of_run h
        rw [List.take_of_length_le (by simp), List.drop_of_length_le (by simp)]
        cases change with
        | registered source hc =>
            have hfresh : (⟨e.nextId⟩ : SystemId) ∉ e.systems.map Prod.fst := by
              intro hmem
              exact Nat.lt_irrefl _ (run.handles_sorted.2 _ hmem)
            have hmade : ParticleSystem.make config source =
                .ok { config, emitter := config.position, particles := #[], sinceEmit := 0, source } := by
              rw [ParticleSystem.make, hc]
              rfl
            have hfound := lookup_concat_self (system?_eq_none hfresh)
            exact ⟨_, source, _, _, longer, hmade, hfound _, hfound _, .nil⟩

end Run

theorem onSystem_frame {α : Type} (x : Act ParticleSystem α) (e : Engine) (i : SystemId) :
    ∃ systems, (onSystem i x e).2 = { e with systems } ∧
      systems.map Prod.fst = e.systems.map Prod.fst := by
  simp only [onSystem]
  cases hstep : stepOn i x e.systems with
  | none => exact ⟨e.systems, rfl, rfl⟩
  | some changed =>
      obtain ⟨r, systems⟩ := changed
      obtain ⟨before, s, s', after, hbefore, _, hafter⟩ := stepOn_eq_some hstep
      exact ⟨systems, rfl, by simp [hbefore, hafter]⟩

-- Handles are numbered as they are given out, and none is given out twice. What is found under one is
-- the system it was given out for, as the calls since then have left it, until the systems are
-- cleared, and nothing from then on. A step through one handle shows nowhere else.
theorem handles_are_stable {seed : UInt64} (run : Run (.ofSeed seed) calls e) :
    (e.systems.map Prod.fst).Pairwise (fun i j => i.number < j.number) ∧
    (∀ id ∈ e.systems.map Prod.fst, id.number < e.nextId) ∧
    e.nextId = (calls.filterMap Call.handle?).length ∧
    (∀ (j k : Nat) id, calls[j]?.bind Call.handle? = some id → calls[k]?.bind Call.handle? = some id →
      j = k) ∧
    (∀ (j : Nat) config id, calls[j]? = some ⟨.addSystem config, .ok (.handle id)⟩ →
      (NoneBetween calls j calls.length Call.clearsParticles →
        ∃ mid source made s, Run (.ofSeed seed) (calls.take (j + 1)) mid ∧
          ParticleSystem.make config source = .ok made ∧ mid.system? id = some made ∧
          e.system? id = some s ∧ s.config = config ∧ Lineage id made (calls.drop (j + 1)) s) ∧
      ∀ k, j < k → calls[k]?.any Call.clearsParticles = true → e.system? id = none) ∧
    ∀ (α : Type) id (x : Act ParticleSystem α),
      (∃ systems, (onSystem id x e).2 = { e with systems } ∧
        systems.map Prod.fst = e.systems.map Prod.fst) ∧
      ∀ other, other ≠ id → (onSystem id x e).2.system? other = e.system? other := by
  obtain ⟨hsorted, hbound⟩ := run.handles_sorted
  refine ⟨hsorted, hbound, ?_, fun j k id => run.handle_place_unique, ?_, ?_⟩
  · simp [run.handed_out]
  · intro j config id hj
    refine ⟨fun hkept => ?_, fun k hk hclear => ?_⟩
    · obtain ⟨mid, source, made, s, before, hmade, hmid, hs, lineage⟩ := run.lineage hj hkept
      have hconfig : made.config = config := ParticleSystem.config_of_make hmade
      exact ⟨mid, source, made, s, before, hmade, hmid, hs, lineage.config_eq.trans hconfig, lineage⟩
    · exact run.handle_gone (by rw [hj]; rfl) hk hclear
  · intro α id x
    refine ⟨onSystem_frame x e id, fun other hne => ?_⟩
    rw [system?_onSystem, if_neg (Ne.symm hne)]

-- A system that is cleared and one that is registered after it, which is moved and updated.
theorem handles_are_stable_afterClear : ∃ calls e, Run (.ofSeed 0) calls e ∧
    calls[0]? = some ⟨.addSystem {}, .ok (.handle ⟨0⟩)⟩ ∧
    calls[2]? = some ⟨.addSystem { rate := 0 }, .ok (.handle ⟨1⟩)⟩ ∧
    e.system? ⟨0⟩ = none ∧ ∃ s, e.system? ⟨1⟩ = some s ∧ s.config = { rate := 0 } := by
  have start : Run (.ofSeed 0) [] (.ofSeed 0) := .nil
  have cleared := (start.perform (.addSystem {})).perform .clearParticles
  have again := cleared.perform (.addSystem { rate := 0 })
  have run := (again.perform (.onSystem ⟨1⟩ (.moveTo ⟨1, 2⟩))).perform (.update 0.5)
  obtain ⟨_, _, _, _, hstable, _⟩ := handles_are_stable run
  obtain ⟨_, hgone⟩ := hstable 0 {} ⟨0⟩ rfl
  obtain ⟨hkept, _⟩ := hstable 2 { rate := 0 } ⟨1⟩ rfl
  obtain ⟨_, _, _, s, _, _, _, hs, hconfig, _⟩ := hkept (by
    intro k hk hlen
    obtain rfl | rfl : k = 3 ∨ k = 4 := by simp at hlen; omega
    · rfl
    · rfl)
  exact ⟨_, _, run, rfl, rfl, hgone 1 (by decide) rfl, s, hs, hconfig⟩

end Engine

end ParticleFx
