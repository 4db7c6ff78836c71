import Mathlib.Data.List.Basic
import ParticleFx.Proofs.Engine.Calls

namespace ParticleFx.Engine

variable {calls : List Call} {call : Call} {e e' : Engine}

namespace Call

def accepted? (call : Call) : Option PendingEffect :=
  match call.answer with
  | .ok _ => call.operation.request?.bind Except.toOption
  | .error _ => none

def picture? : Call → Option Frame
  | ⟨.render _, .ok (.picture frame)⟩ => some frame
  | _ => none

def handle? : Call → Option SystemId
  | ⟨.addSystem _, .ok (.handle id)⟩ => some id
  | _ => none

-- A render that succeeds.
def renders (call : Call) : Bool :=
  call.picture?.isSome

def clearsEffects : Call → Bool
  | ⟨.clearEffects, _⟩ => true
  | _ => false

def clearsParticles : Call → Bool
  | ⟨.clearParticles, _⟩ => true
  | _ => false

end Call

-- What calls have brought about and no later call has ended, in order, each with the place of its call.
def standing {α : Type} (made : Call → Option α) (outlasts : α → Call → Bool) :
    Nat → List Call → List (Nat × α)
  | _, [] => []
  | place, call :: later =>
    let rest := standing made outlasts (place + 1) later
    match made call with
    | some a => if later.all (outlasts a) then (place, a) :: rest else rest
    | none => rest

-- A request is over once the queue is cleared, and a one-shot one also once it has been rendered.
def outlasts (p : PendingEffect) (call : Call) : Bool :=
  !call.clearsEffects && (p.lifetime = .persistent || !call.renders)

-- The requests accepted since the queue was last cleared, less the one-shot ones that a successful
-- render came after.
def queue (calls : List Call) : List (Nat × PendingEffect) :=
  standing Call.accepted? outlasts 0 calls

def registered (calls : List Call) : List (Nat × SystemId) :=
  standing Call.handle? (fun _ call => !call.clearsParticles) 0 calls

def lastPicture (calls : List Call) : Option Frame :=
  (calls.filterMap Call.picture?).getLast?

section Standing

variable {α : Type} {made : Call → Option α} {outlasts : α → Call → Bool}

theorem standing_concat (place : Nat) (calls : List Call) (call : Call) :
    standing made outlasts place (calls ++ [call]) =
      (standing made outlasts place calls).filter (fun (_, a) => outlasts a call) ++
        ((made call).map (place + calls.length, ·)).toList := by
  induction calls generalizing place with
  | nil => cases h : made call <;> simp [standing, h]
  | cons first later ih =>
      have hplace : place + 1 + later.length = place + (first :: later).length := by
        rw [List.length_cons]
        omega
      rw [List.cons_append]
      simp only [standing, ih, hplace]
      cases made first with
      | none => rfl
      | some a =>
          by_cases hlater : later.all (outlasts a) = true <;>
            by_cases hlast : outlasts a call = true <;> simp [hlater, hlast]

theorem map_standing_concat (calls : List Call) (call : Call) :
    (standing made outlasts 0 (calls ++ [call])).map Prod.snd =
      ((standing made outlasts 0 calls).map Prod.snd).filter (fun a => outlasts a call) ++
        (made call).toList := by
  rw [standing_concat, List.map_append, List.filter_map]
  congr 1
  cases made call <;> rfl

theorem mem_standing_cons {i place : Nat} {a : α} {first : Call} {later : List Call} :
    (i, a) ∈ standing made outlasts place (first :: later) ↔
      i = place ∧ made first = some a ∧ later.all (outlasts a) = true ∨
      (i, a) ∈ standing made outlasts (place + 1) later := by
  simp only [standing]
  cases made first with
  | none => simp
  | some b =>
      by_cases hba : b = a
      · subst hba
        by_cases hlater : later.all (outlasts b) = true <;> simp [hlater]
      · by_cases hlater : later.all (outlasts b) = true <;> simp [hlater, hba, Ne.symm hba]

theorem mem_standing_iff {i place : Nat} {a : α} :
    (i, a) ∈ standing made outlasts place calls ↔
      ∃ n, i = place + n ∧ calls[n]?.bind made = some a ∧
        ∀ k call, n < k → calls[k]? = some call → outlasts a call = true := by
  induction calls generalizing place with
  | nil => simp [standing]
  | cons first later ih =>
      rw [mem_standing_cons, ih]
      constructor
      · rintro (⟨rfl, hmade, hall⟩ | ⟨n, rfl, hmade, hlater⟩)
        · refine ⟨0, rfl, hmade, ?_⟩
          intro k call hk hcall
          cases k with
          | zero => omega
          | succ k => exact List.all_eq_true.mp hall call (List.mem_of_getElem? hcall)
        · refine ⟨n + 1, by omega, hmade, ?_⟩
          intro k call hk hcall
          cases k with
          | zero => omega
          | succ k => exact hlater k call (by omega) hcall
      · rintro ⟨n, rfl, hmade, hlater⟩
        cases n with
        | zero =>
            refine .inl ⟨rfl, hmade, List.all_eq_true.mpr ?_⟩
            intro call hmem
            obtain ⟨k, hk⟩ := List.getElem?_of_mem hmem
            exact hlater (k + 1) call (by omega) hk
        | succ n =>
            refine .inr ⟨n, by omega, hmade, ?_⟩
            intro k call hk hcall
            exact hlater (k + 1) call (by omega) hcall

end Standing

-- An operation that asks for an effect does nothing else.
theorem asks_only {op : Operation} {r : Except Fault PendingEffect} (answer : Except Fault Answer)
    (hr : op.request? = some r) :
    Call.picture? ⟨op, answer⟩ = none ∧ Call.handle? ⟨op, answer⟩ = none ∧
      Call.clearsEffects ⟨op, answer⟩ = false ∧ Call.clearsParticles ⟨op, answer⟩ = false := by
  cases op with
  | addEffect | addOneShot | pushEffect | addByKind => exact ⟨rfl, rfl, rfl, rfl⟩
  | _ => cases hr

theorem filter_outlasts_eq_self (hclear : call.clearsEffects = false) (hpicture : call.picture? = none)
    (effects : List PendingEffect) : effects.filter (fun p => outlasts p call) = effects := by
  refine List.filter_eq_self.mpr fun p _ => ?_
  simp [outlasts, Call.renders, hclear, hpicture]

theorem accepted?_eq_none (hr : call.operation.request? = none) : call.accepted? = none := by
  rw [Call.accepted?, hr]
  split <;> rfl

theorem Change.effects (h : Change e call e') :
    e'.effects = e.effects.filter (fun p => outlasts p call) ++ call.accepted?.toList := by
  have hidle (hclear : call.clearsEffects = false) (hpicture : call.picture? = none)
      (hr : call.operation.request? = none) :
      e.effects = e.effects.filter (fun p => outlasts p call) ++ call.accepted?.toList := by
    rw [filter_outlasts_eq_self hclear hpicture, accepted?_eq_none hr]
    simp
  cases h with
  | accepted hp =>
      obtain ⟨hpicture, _, hclear, _⟩ := asks_only (.ok .done) hp
      rw [filter_outlasts_eq_self hclear hpicture]
      simp [Call.accepted?, hp, Except.toOption]
  | @requestRefused op r fault hr =>
      obtain ⟨hpicture, _, hclear, _⟩ := asks_only (.error fault) hr
      rw [filter_outlasts_eq_self hclear hpicture]
      simp [Call.accepted?]
  | effectsCleared => simp [outlasts, Call.accepted?, Call.clearsEffects, Operation.request?]
  | rendered _ _ =>
      simp [outlasts, Call.accepted?, Call.clearsEffects, Call.renders, Call.picture?,
        Operation.request?]
  | _ => exact hidle rfl rfl rfl

theorem Change.previous (h : Change e call e') : e'.previous = call.picture?.or e.previous := by
  cases h with
  | accepted hp => rw [(asks_only _ hp).1]; rfl
  | requestRefused hr => rw [(asks_only _ hr).1]; rfl
  | _ => rfl

theorem Change.handles (h : Change e call e') :
    e'.systems.map Prod.fst =
      (e.systems.map Prod.fst).filter (fun _ => !call.clearsParticles) ++ call.handle?.toList := by
  cases h with
  | accepted hp =>
      obtain ⟨_, hhandle, _, hclear⟩ := asks_only (.ok .done) hp
      simp [hhandle, hclear]
  | @requestRefused op r fault hr =>
      obtain ⟨_, hhandle, _, hclear⟩ := asks_only (.error fault) hr
      simp [hhandle, hclear]
  | stepped hhandles _ => simp [Call.clearsParticles, Call.handle?, hhandles]
  | updated hhandles _ => simp [Call.clearsParticles, Call.handle?, hhandles]
  | _ => simp [Call.clearsParticles, Call.handle?]

theorem lastPicture_concat (calls : List Call) (call : Call) :
    lastPicture (calls ++ [call]) = call.picture?.or (lastPicture calls) := by
  rw [lastPicture, List.filterMap_append]
  cases hp : call.picture? with
  | none => simp [hp, lastPicture]
  | some frame => simp [hp]

namespace Run

variable {seed : UInt64}

theorem effects_eq (run : Run (.ofSeed seed) calls e) : e.effects = (queue calls).map Prod.snd := by
  induction run with
  | nil => rfl
  | snoc _ h ih => rw [(Change.of_run h).effects, ih, queue, queue, map_standing_concat]

theorem previous_eq (run : Run (.ofSeed seed) calls e) : e.previous = lastPicture calls := by
  induction run with
  | nil => rfl
  | snoc _ h ih => rw [(Change.of_run h).previous, ih, lastPicture_concat]

theorem handles_eq (run : Run (.ofSeed seed) calls e) :
    e.systems.map Prod.fst = (registered calls).map Prod.snd := by
  induction run with
  | nil => rfl
  | snoc _ h ih => rw [(Change.of_run h).handles, ih, registered, registered, map_standing_concat]

theorem render_eq {j : Nat} {base frame : Frame} (run : Run (.ofSeed seed) calls e)
    (hj : calls[j]? = some ⟨.render base, .ok (.picture frame)⟩) :
    ∃ mid drawn source, Run (.ofSeed seed) (calls.take j) mid ∧
      mid.systems.map Prod.fst = (registered (calls.take j)).map Prod.snd ∧
      mid.systems.foldlM (fun frame (_, s) => s.draw frame) base = .ok drawn ∧
      ((queue (calls.take j)).map Prod.snd).foldlM
          (fun frame p => Effect.apply frame (lastPicture (calls.take j)) p.request) drawn mid.source =
        (.ok frame, source) := by
  obtain ⟨mid, after, before, hrender⟩ := run.exists_before hj
  have change : Change mid ⟨.render base, .ok (.picture frame)⟩ after := .of_run hrender
  cases change with
  | @rendered _ drawn _ source hdrawn hrun =>
      rw [applyAll_eq_foldlM, before.previous_eq, before.effects_eq] at hrun
      exact ⟨mid, drawn, source, before, before.handles_eq, hdrawn, hrun⟩

end Run

theorem mem_queue_take_iff {i j : Nat} {p : PendingEffect} :
    (i, p) ∈ queue (calls.take j) ↔ i < j ∧ calls[i]?.bind Call.accepted? = some p ∧
      ∀ k call, i < k → k < j → calls[k]? = some call → outlasts p call = true := by
  have hpast {k : Nat} (hk : ¬k < j) : (calls.take j)[k]? = none :=
    List.getElem?_eq_none (by rw [List.length_take]; omega)
  rw [queue, mem_standing_iff]
  constructor
  · rintro ⟨n, rfl, hmade, hlater⟩
    rw [Nat.zero_add]
    by_cases hn : n < j
    · rw [List.getElem?_take_of_lt hn] at hmade
      refine ⟨hn, hmade, fun k call hik hkj hk => hlater k call hik ?_⟩
      rw [List.getElem?_take_of_lt hkj]
      exact hk
    · rw [hpast hn] at hmade
      cases hmade
  · rintro ⟨hij, hmade, hlater⟩
    refine ⟨i, (Nat.zero_add i).symm, by rw [List.getElem?_take_of_lt hij]; exact hmade, ?_⟩
    intro k call hik hk
    by_cases hkj : k < j
    · rw [List.getElem?_take_of_lt hkj] at hk
      exact hlater k call hik hkj hk
    · rw [hpast hkj] at hk
      cases hk

-- The render at place `j` succeeds, and the request accepted at place `i` is among those it applies.
def AppliedBy (calls : List Call) (i j : Nat) (p : PendingEffect) : Prop :=
  calls[j]?.any Call.renders = true ∧ (i, p) ∈ queue (calls.take j)

def NoneBetween (calls : List Call) (i j : Nat) (kind : Call → Bool) : Prop :=
  ∀ k, i < k → k < j → calls[k]?.any kind = false

theorem noneBetween_iff {i j : Nat} {kind : Call → Bool} :
    NoneBetween calls i j kind ↔
      ∀ k call, i < k → k < j → calls[k]? = some call → kind call = false := by
  constructor
  · intro h k call hik hkj hk
    simpa [hk] using h k hik hkj
  · intro h k hik hkj
    cases hk : calls[k]? with
    | none => rfl
    | some call => exact h k call hik hkj hk

theorem appliedBy_iff_of_persistent {i j : Nat} {p : PendingEffect} (hp : p.lifetime = .persistent) :
    AppliedBy calls i j p ↔ calls[i]?.bind Call.accepted? = some p ∧ i < j ∧
      calls[j]?.any Call.renders = true ∧ NoneBetween calls i j Call.clearsEffects := by
  rw [AppliedBy, mem_queue_take_iff, noneBetween_iff]
  have hlasts (call : Call) : outlasts p call = true ↔ call.clearsEffects = false := by
    simp [outlasts, hp]
  simp only [hlasts]
  constructor
  · rintro ⟨hrenders, hij, hmade, hlater⟩
    exact ⟨hmade, hij, hrenders, hlater⟩
  · rintro ⟨hmade, hij, hrenders, hlater⟩
    exact ⟨hrenders, hij, hmade, hlater⟩

theorem appliedBy_iff_of_oneShot {i j : Nat} {p : PendingEffect} (hp : p.lifetime = .oneShot) :
    AppliedBy calls i j p ↔ calls[i]?.bind Call.accepted? = some p ∧ i < j ∧
      calls[j]?.any Call.renders = true ∧ NoneBetween calls i j Call.clearsEffects ∧
      NoneBetween calls i j Call.renders := by
  rw [AppliedBy, mem_queue_take_iff, noneBetween_iff, noneBetween_iff]
  have hlasts (call : Call) :
      outlasts p call = true ↔ call.clearsEffects = false ∧ call.renders = false := by
    simp [outlasts, hp]
  simp only [hlasts]
  constructor
  · rintro ⟨hrenders, hij, hmade, hlater⟩
    exact ⟨hmade, hij, hrenders, fun k call hik hkj hk => (hlater k call hik hkj hk).1,
      fun k call hik hkj hk => (hlater k call hik hkj hk).2⟩
  · rintro ⟨hmade, hij, hrenders, hclears, hothers⟩
    exact ⟨hrenders, hij, hmade, fun k call hik hkj hk =>
      ⟨hclears k call hik hkj hk, hothers k call hik hkj hk⟩⟩

theorem AppliedBy.unique {i j j' : Nat} {p : PendingEffect} (hp : p.lifetime = .oneShot)
    (h : AppliedBy calls i j p) (h' : AppliedBy calls i j' p) : j = j' := by
  obtain ⟨_, hij, hj, _, hnone⟩ := (appliedBy_iff_of_oneShot hp).mp h
  obtain ⟨_, hij', hj', _, hnone'⟩ := (appliedBy_iff_of_oneShot hp).mp h'
  rcases Nat.lt_trichotomy j j' with hlt | heq | hgt
  · cases hj.symm.trans (hnone' j hij hlt)
  · exact heq
  · cases hj'.symm.trans (hnone j' hij' hgt)

-- The queue, the last picture and what a successful render shows, in terms of the calls before it.
-- So a one-shot request is applied by the first render after it that succeeds, if the queue is not
-- cleared before that, and by no other; a persistent one by all of them until the queue is cleared.
theorem run_accounts_for_queue {seed : UInt64} (run : Run (.ofSeed seed) calls e) :
    e.effects = (queue calls).map Prod.snd ∧ e.previous = lastPicture calls ∧
    (∀ (j : Nat) base frame, calls[j]? = some ⟨.render base, .ok (.picture frame)⟩ →
      ∃ mid drawn source, Run (.ofSeed seed) (calls.take j) mid ∧
        mid.systems.map Prod.fst = (registered (calls.take j)).map Prod.snd ∧
        mid.systems.foldlM (fun frame (_, s) => s.draw frame) base = .ok drawn ∧
        ((queue (calls.take j)).map Prod.snd).foldlM
            (fun frame p => Effect.apply frame (lastPicture (calls.take j)) p.request) drawn mid.source =
          (.ok frame, source)) ∧
    (∀ i j p, p.lifetime = .oneShot → (AppliedBy calls i j p ↔
      calls[i]?.bind Call.accepted? = some p ∧ i < j ∧ calls[j]?.any Call.renders = true ∧
        NoneBetween calls i j Call.clearsEffects ∧ NoneBetween calls i j Call.renders)) ∧
    (∀ i j j' p, p.lifetime = .oneShot → AppliedBy calls i j p → AppliedBy calls i j' p → j = j') ∧
    (∀ i j p, p.lifetime = .persistent → (AppliedBy calls i j p ↔
      calls[i]?.bind Call.accepted? = some p ∧ i < j ∧ calls[j]?.any Call.renders = true ∧
        NoneBetween calls i j Call.clearsEffects)) := by
  refine ⟨run.effects_eq, run.previous_eq, ?_, ?_, ?_, ?_⟩
  · intro j base frame hj
    exact run.render_eq hj
  · intro i j p hp
    exact appliedBy_iff_of_oneShot hp
  · intro i j j' p hp h h'
    exact h.unique hp h'
  · intro i j p hp
    exact appliedBy_iff_of_persistent hp

theorem run_accounts_for_queue_afterRender : ∃ calls e, Run (.ofSeed 0) calls e ∧
    (queue calls).map Prod.snd =
      [⟨.shake { intensity := 0 }, .persistent⟩, ⟨.shake { intensity := 2 }, .oneShot⟩] ∧
    e.effects = (queue calls).map Prod.snd ∧ e.previous = lastPicture calls := by
  have start : Run (.ofSeed 0) [] (.ofSeed 0) := .nil
  have queued := (start.perform (.addOneShot (.shake { intensity := 1 }))).perform
    (.addEffect (.shake { intensity := 0 }))
  have rendered := (queued.perform (.render ⟨1, 1, #[]⟩)).perform (.render (.blank 1 1))
  have run := rendered.perform (.addOneShot (.shake { intensity := 2 }))
  obtain ⟨heffects, hprevious, _⟩ := run_accounts_for_queue run
  exact ⟨_, _, run, by decide +kernel, heffects, hprevious⟩

end ParticleFx.Engine
