import ParticleFx.Engine
import ParticleFx.Proofs.Action

namespace ParticleFx

open Act (Keeps)

-- A source from which the seeds of that many systems have been drawn.
def Source.afterForks (s : Source) (count : Nat) : Source :=
  ⟨s.key, s.position + 2 * count⟩

theorem Source.snd_fork (s : Source) : (fork s).2 = s.afterForks 1 := rfl

@[simp] theorem Source.afterForks_zero (s : Source) : s.afterForks 0 = s := rfl

theorem Source.afterForks_add (s : Source) (a b : Nat) :
    (s.afterForks a).afterForks b = s.afterForks (a + b) := by
  simp only [afterForks, Nat.mul_add, Nat.add_assoc]

namespace ParticleSystem

-- What a system does not change by itself: its configuration and the place of its emitter.
def station (s : ParticleSystem) : SystemConfig × Vec2 :=
  (s.config, s.emitter)

-- There can be memory for that many more particles.
def HasRoom (s : ParticleSystem) (count : Nat) : Prop :=
  count = 0 ∨ (s.particles.size + count) * Particle.footprint ≤ Word.mostBytes

instance (s : ParticleSystem) (count : Nat) : Decidable (s.HasRoom count) :=
  inferInstanceAs (Decidable (count = 0 ∨ (s.particles.size + count) * Particle.footprint ≤ Word.mostBytes))

theorem hasRoom_zero (s : ParticleSystem) : s.HasRoom 0 := .inl rfl

theorem run_bind_reserve {α : Type} (count : Nat) (x : Act ParticleSystem α) (s : ParticleSystem) :
    (reserve count >>= fun _ => x) s = if s.HasRoom count then x s else (.error .aborted, s) := by
  have hreserve : reserve count s = (if s.HasRoom count then .ok () else .error .aborted, s) := by
    unfold reserve HasRoom Word.allocate
    split <;> simp [*]
  split
  · rw [if_pos ‹_›] at hreserve
    exact Act.run_bind_ok _ hreserve
  · rw [if_neg ‹_›] at hreserve
    exact Act.run_bind_error _ hreserve

-- What is emitted after there is room for it.
theorem eq_ok_of_bind_reserve {α : Type} {count : Nat} {x : Act ParticleSystem α} {s t : ParticleSystem}
    {a : α} (h : (reserve count >>= fun _ => x) s = (.ok a, t)) : x s = (.ok a, t) := by
  rw [run_bind_reserve] at h
  split at h
  · exact h
  · cases h

section

variable {γ : Type} {view : ParticleSystem → γ}

theorem keeps_reserve (count : Nat) : Keeps view (reserve count) := fun _ => rfl

variable (hview : ∀ s particles source, view { s with particles, source } = view s)
include hview

theorem keeps_draws {α : Type} (x : ParticleSystem → Act Source α) : Keeps view (draws x) :=
  fun s => hview s s.particles _

theorem keeps_push (p : Particle) : Keeps view (push p) := .modify fun s => hview s _ s.source

theorem keeps_emitEach (n : Nat) : Keeps view (emitEach n) := by
  induction n with
  | zero => exact .pure ()
  | succ n ih => exact .bind (keeps_draws hview _) fun p => .bind (keeps_push hview p) fun _ => ih

-- New particles show in the particles and in the source, and nowhere else.
theorem keeps_emit (n : Nat) : Keeps view (emit n) :=
  .bind (keeps_reserve n) fun _ => keeps_emitEach hview n

theorem keeps_emitRadialFrom (count left : Nat) : Keeps view (emitRadialFrom count left) := by
  induction left with
  | zero => exact .pure ()
  | succ left ih =>
      exact .bind (keeps_draws hview _) fun _ => .bind (keeps_draws hview _) fun _ =>
        .bind (keeps_push hview _) fun _ => ih

theorem keeps_emitRadial (count : Nat) : Keeps view (emitRadial count) :=
  .bind (keeps_reserve count) fun _ => keeps_emitRadialFrom hview count count

end

theorem keeps_emitDue (dt : Float) : Keeps station (emitDue dt) := by
  refine .bind .get fun s => ?_
  cases s.config.interval? with
  | none => exact .pure ()
  | some interval =>
      refine .bind .get fun s => .bind (.modify fun _ => rfl) fun _ => ?_
      split
      · exact .bind (keeps_emit (fun _ _ _ => rfl) 1) fun _ => .modify fun _ => rfl
      · exact .pure ()

theorem keeps_update (dt : Float) : Keeps station (update dt) := by
  unfold update
  split
  · exact .fail _
  · exact .bind (keeps_emitDue dt) fun _ => .modify fun _ => rfl

end ParticleSystem

namespace Engine

variable {α γ : Type}

-- The systems with what they do not change by themselves.
def roster (e : Engine) : List (SystemId × SystemConfig × Vec2) :=
  e.systems.map fun (id, s) => (id, s.station)

theorem stepOn_station {id : SystemId} {x : Act ParticleSystem α} (hx : Keeps ParticleSystem.station x)
    {systems systems' : List (SystemId × ParticleSystem)} {r : Except Fault α}
    (h : stepOn id x systems = some (r, systems')) :
    systems'.map (fun (i, s) => (i, s.station)) = systems.map (fun (i, s) => (i, s.station)) := by
  induction systems generalizing systems' r with
  | nil => simp [stepOn] at h
  | cons entry rest ih =>
      obtain ⟨i, s⟩ := entry
      simp only [stepOn] at h
      split at h
      · obtain ⟨rfl, rfl⟩ := by simpa using h
        simp [hx s]
      · obtain ⟨⟨r', rest'⟩, hrest, heq⟩ := Option.map_eq_some_iff.mp h
        obtain ⟨rfl, rfl⟩ := by simpa using heq
        simp [ih hrest]

-- A step on one system shows at most in the systems.
theorem keeps_onSystem {view : Engine → γ} (hview : ∀ e systems, view { e with systems } = view e)
    (id : SystemId) (x : Act ParticleSystem α) : Keeps view (onSystem id x) := by
  intro e
  simp only [onSystem]
  split
  · rfl
  · exact hview e _

theorem keeps_roster_onSystem (id : SystemId) {x : Act ParticleSystem α}
    (hx : Keeps ParticleSystem.station x) : Keeps roster (onSystem id x) := by
  intro e
  simp only [onSystem]
  split
  · rfl
  · rename_i r systems h
    exact stepOn_station hx h

theorem updateAll_station (dt : Float) (systems : List (SystemId × ParticleSystem)) :
    (updateAll dt systems).2.map (fun (i, s) => (i, s.station)) =
      systems.map (fun (i, s) => (i, s.station)) := by
  induction systems with
  | nil => rfl
  | cons entry rest ih =>
      obtain ⟨id, s⟩ := entry
      have hs := ParticleSystem.keeps_update dt s
      simp only [updateAll]
      split
      · rename_i s' h
        rw [h] at hs
        simp [ih, hs]
      · rename_i e s' h
        rw [h] at hs
        simp [hs]

theorem keeps_roster_update (dt : Float) : Keeps roster (update dt) :=
  fun e => updateAll_station dt e.systems

theorem keeps_update {view : Engine → γ} (hview : ∀ e systems, view { e with systems } = view e)
    (dt : Float) : Keeps view (update dt) :=
  fun e => hview e _

theorem draws_fork (e : Engine) :
    ∃ source, draws Source.fork e = (.ok source, { e with source := e.source.afterForks 1 }) := by
  rcases hfork : Source.fork e.source with ⟨r, after⟩
  cases r with
  | error fault => cases hfork
  | ok source =>
      have hafter : after = e.source.afterForks 1 := by
        rw [← e.source.snd_fork, hfork]
      exact ⟨source, by simp only [draws, Act.focus, hfork, hafter]⟩

-- A configuration that passes its checks is always registered, under a handle of its own.
theorem addSystem_eq {config : SystemConfig} (hc : config.validate = .ok ()) (e : Engine) :
    ∃ source, addSystem config e = (.ok ⟨e.nextId⟩,
      { e with
        systems := e.systems ++ [(⟨e.nextId⟩,
          { config, emitter := config.position, particles := #[], sinceEmit := 0, source })]
        nextId := e.nextId + 1
        source := e.source.afterForks 1 }) := by
  obtain ⟨source, hdraw⟩ := draws_fork e
  refine ⟨source, ?_⟩
  rw [addSystem, Act.run_bind_ok _ hdraw]
  simp only [ParticleSystem.make, hc]
  rfl

-- One that does not pass is refused, but the seed of its system has been drawn by then.
theorem addSystem_eq_error {config : SystemConfig} {fault : Fault} (hc : config.validate = .error fault)
    (e : Engine) :
    addSystem config e = (.error fault, { e with source := e.source.afterForks 1 }) := by
  obtain ⟨source, hdraw⟩ := draws_fork e
  rw [addSystem, Act.run_bind_ok _ hdraw]
  simp only [ParticleSystem.make, hc]
  rfl

theorem head_ne_of_nodup {systems : List (SystemId × ParticleSystem)} {i id : SystemId}
    {first s : ParticleSystem} {j : Nat} (hnd : (((i, first) :: systems).map Prod.fst).Nodup)
    (hj : systems[j]? = some (id, s)) : i ≠ id := by
  rintro rfl
  exact (List.nodup_cons.mp hnd).1 (List.mem_map.mpr ⟨(i, s), List.mem_of_getElem? hj, rfl⟩)

-- Handles differ, so a step reaches the system at its place and no other.
theorem stepOn_eq_set {systems : List (SystemId × ParticleSystem)} {j : Nat} {id : SystemId}
    {s : ParticleSystem} (hnd : (systems.map Prod.fst).Nodup) (hj : systems[j]? = some (id, s))
    (x : Act ParticleSystem α) :
    stepOn id x systems = some ((x s).1, systems.set j (id, (x s).2)) := by
  induction systems generalizing j with
  | nil => simp at hj
  | cons entry rest ih =>
      obtain ⟨i, first⟩ := entry
      cases j with
      | zero =>
          obtain ⟨rfl, rfl⟩ := by simpa using hj
          simp [stepOn]
      | succ j =>
          have hrest : rest[j]? = some (id, s) := by simpa using hj
          have hne := head_ne_of_nodup hnd hrest
          simp [stepOn, hne, ih (List.nodup_cons.mp hnd).2 hrest]

theorem system?_eq {e : Engine} {j : Nat} {id : SystemId} {s : ParticleSystem}
    (hnd : (e.systems.map Prod.fst).Nodup) (hj : e.systems[j]? = some (id, s)) :
    e.system? id = some s := by
  rw [system?]
  generalize e.systems = systems at hnd hj
  induction systems generalizing j with
  | nil => simp at hj
  | cons entry rest ih =>
      obtain ⟨i, first⟩ := entry
      cases j with
      | zero =>
          obtain ⟨rfl, rfl⟩ := by simpa using hj
          simp
      | succ j =>
          have hrest : rest[j]? = some (id, s) := by simpa using hj
          have hne := head_ne_of_nodup hnd hrest
          rw [List.lookup_cons, beq_eq_false_iff_ne.mpr (Ne.symm hne)]
          exact ih (List.nodup_cons.mp hnd).2 hrest

theorem onSystem_eq {e : Engine} {j : Nat} {id : SystemId} {s : ParticleSystem}
    (hnd : (e.systems.map Prod.fst).Nodup) (hj : e.systems[j]? = some (id, s))
    (x : Act ParticleSystem α) :
    onSystem id x e = ((x s).1.map some, { e with systems := e.systems.set j (id, (x s).2) }) := by
  simp only [onSystem, stepOn_eq_set hnd hj x]

theorem applyAll_eq_foldlM (previous : Option Frame) (pending : List PendingEffect) (f : Frame) :
    applyAll previous pending f =
      pending.foldlM (fun f p => Effect.apply f previous p.request) f := by
  induction pending generalizing f with
  | nil => rfl
  | cons p rest ih =>
      rw [applyAll, List.foldlM_cons]
      congr 1
      funext f'
      exact ih f'

-- A render that succeeds has drawn the systems and applied every request, forgets the one-shot ones and
-- remembers the frame.
theorem render_eq_ok {base frame : Frame} {e e' : Engine} (h : render base e = (.ok frame, e')) :
    base.validate = .ok () ∧ ∃ drawn source, drawAll e.systems base = .ok drawn ∧
      applyAll e.previous e.effects drawn e.source = (.ok frame, source) ∧
      e' = { e with
        source
        effects := e.effects.filter fun p => p.lifetime = .persistent
        previous := some frame } := by
  obtain ⟨_, _, hbase, h⟩ := Act.run_bind_eq_ok.mp h
  obtain ⟨hvalid, rfl⟩ := Prod.mk.inj hbase
  obtain ⟨_, _, hget, h⟩ := Act.run_bind_eq_ok.mp h
  obtain ⟨rfl, rfl⟩ := by simpa using hget
  obtain ⟨drawn, _, hdraw, h⟩ := Act.run_bind_eq_ok.mp h
  obtain ⟨hdrawn, rfl⟩ := Prod.mk.inj hdraw
  obtain ⟨f, mid, heffects, h⟩ := Act.run_bind_eq_ok.mp h
  obtain ⟨happly, rfl⟩ := Prod.mk.inj heffects
  obtain ⟨rfl, rfl⟩ := by simpa using h
  exact ⟨hvalid, drawn, _, hdrawn, Prod.ext happly rfl, rfl⟩

-- One that fails has refused its base or could not draw a system, or else has drawn for the requests before
-- one that fails.
theorem render_eq_error {base : Frame} {fault : Fault} {e e' : Engine}
    (h : render base e = (.error fault, e')) :
    (base.validate = .error fault ∨ drawAll e.systems base = .error fault) ∧ e' = e ∨
    base.validate = .ok () ∧ ∃ drawn source, drawAll e.systems base = .ok drawn ∧
      applyAll e.previous e.effects drawn e.source = (.error fault, source) ∧
      e' = { e with source } := by
  rcases Act.run_bind_eq_error.mp h with hbase | ⟨_, _, hbase, h⟩
  · obtain ⟨hrefused, rfl⟩ := Prod.mk.inj hbase
    exact .inl ⟨.inl hrefused, rfl⟩
  obtain ⟨hvalid, rfl⟩ := Prod.mk.inj hbase
  rcases Act.run_bind_eq_error.mp h with hget | ⟨_, _, hget, h⟩
  · cases hget
  obtain ⟨rfl, rfl⟩ := by simpa using hget
  rcases Act.run_bind_eq_error.mp h with hdraw | ⟨drawn, _, hdraw, h⟩
  · obtain ⟨hfault, rfl⟩ := Prod.mk.inj hdraw
    exact .inl ⟨.inr hfault, rfl⟩
  obtain ⟨hdrawn, rfl⟩ := Prod.mk.inj hdraw
  rcases Act.run_bind_eq_error.mp h with heffects | ⟨_, _, _, h⟩
  · obtain ⟨hfault, rfl⟩ := Prod.mk.inj heffects
    exact .inr ⟨hvalid, drawn, _, hdrawn, Prod.ext hfault rfl, rfl⟩
  · cases h

end Engine

end ParticleFx
