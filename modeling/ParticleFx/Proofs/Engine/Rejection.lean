import ParticleFx.Proofs.Engine.Calls

namespace ParticleFx.Engine

variable {e e' : Engine} {op : Operation} {fault : Fault}

-- A call that is rejected changes nothing but the engine's own source.
theorem Change.eq_of_rejected (h : Change e ⟨op, .error fault⟩ e') (hreturned : ¬fault.Aborts) :
    e' = { e with source := e'.source } := by
  cases h with
  | configRefused _ => rfl
  | stepped _ kept => rw [kept fault rfl hreturned]
  | requestRefused _ => rfl
  | updated _ kept => rw [kept fault rfl hreturned]
  | notDrawn _ => rfl
  | effectFailed _ _ _ => rfl

theorem rejected_call_keeps_data (op : Operation) (e : Engine)
    (h : op.run e = (.error fault, e')) (hreturned : ¬fault.Aborts) :
    e'.systems = e.systems ∧ e'.effects = e.effects ∧ e'.previous = e.previous ∧
      e'.nextId = e.nextId := by
  rw [(Change.of_run h).eq_of_rejected hreturned]
  exact ⟨rfl, rfl, rfl, rfl⟩

-- A queue whose second request is accepted but too strong to be applied.
def overshaken : Engine :=
  { Engine.ofSeed 0 with
    effects := [⟨.shake { intensity := 1 }, .oneShot⟩, ⟨.shake { intensity := 0x80000000 }, .oneShot⟩] }

theorem render_overshaken : (Operation.render (.blank 1 1)).run overshaken =
    (.error .shakeOutOfRange, ((Operation.render (.blank 1 1)).run overshaken).2) :=
  Prod.ext (by rfl) rfl

theorem rejected_call_keeps_data_overshaken :
    ((Operation.render (.blank 1 1)).run overshaken).1 = .error .shakeOutOfRange ∧
    ((Operation.render (.blank 1 1)).run overshaken).2.effects = overshaken.effects := by
  have hkept := rejected_call_keeps_data _ overshaken render_overshaken (by decide)
  exact ⟨congrArg Prod.fst render_overshaken, hkept.2.1⟩

theorem afterForks_one_ne (s : Source) : s.afterForks 1 ≠ s := by
  intro heq
  have hposition := congrArg Source.position heq
  simp [Source.afterForks] at hposition

theorem Change.source_eq_iff (h : Change e ⟨op, .error fault⟩ e') :
    e'.source = e.source ↔ (∀ config, op ≠ .addSystem config) ∧
      ∀ base drawn, op = .render base → base.validate = .ok () → drawAll e.systems base = .ok drawn →
        (applyAll e.previous e.effects drawn e.source).2 = e.source := by
  cases h with
  | @configRefused config _ _ =>
      constructor
      · intro heq
        exact absurd heq (afterForks_one_ne e.source)
      · rintro ⟨hop, _⟩
        exact absurd rfl (hop config)
  | stepped _ _ => exact ⟨fun _ => ⟨nofun, nofun⟩, fun _ => rfl⟩
  | requestRefused hr =>
      refine ⟨fun _ => ⟨?_, ?_⟩, fun _ => rfl⟩
      · rintro config rfl
        cases hr
      · rintro base _ rfl
        cases hr
  | updated _ _ => exact ⟨fun _ => ⟨nofun, nofun⟩, fun _ => rfl⟩
  | notDrawn hbase =>
      refine ⟨fun _ => ⟨nofun, ?_⟩, fun _ => rfl⟩
      rintro base drawn ⟨⟩ hvalid hdrawn
      rcases hbase with hrefused | hfailed
      · cases hrefused.symm.trans hvalid
      · cases hfailed.symm.trans hdrawn
  | effectFailed hbase hdrawn hrun =>
      constructor
      · rintro heq
        refine ⟨nofun, ?_⟩
        rintro base drawn' ⟨⟩ _ hdrawn'
        obtain rfl := Except.ok.inj (hdrawn.symm.trans hdrawn')
        rw [hrun]
        exact heq
      · rintro ⟨_, hsource⟩
        have heq := hsource _ _ rfl hbase hdrawn
        rw [hrun] at heq
        exact heq

theorem Change.eq_of_source_eq (h : Change e ⟨op, .error fault⟩ e') (hreturned : ¬fault.Aborts)
    (hsource : e'.source = e.source) : e' = e := by
  rw [h.eq_of_rejected hreturned, hsource]

-- What may have been drawn from the engine's source by the time that an operation is rejected: a seed
-- for the system, or draws for the requests before one that fails.
def Operation.drawsFirst : Operation → Bool
  | .addSystem _ => true
  | .render base => base.validate.isOk
  | _ => false

def Call.isIdle : Call → Bool
  | ⟨op, .error fault⟩ => !op.drawsFirst && !decide fault.Aborts
  | _ => false

theorem Change.eq_of_not_drawsFirst (h : Change e ⟨op, .error fault⟩ e') (hreturned : ¬fault.Aborts)
    (hop : op.drawsFirst = false) : e' = e := by
  refine h.eq_of_source_eq hreturned (h.source_eq_iff.mpr ⟨?_, ?_⟩)
  · rintro config rfl
    cases hop
  · rintro base _ rfl hbase
    rw [Operation.drawsFirst, hbase] at hop
    cases hop

theorem Run.without_idle {start : Engine} {calls : List Call} (run : Run start calls e) :
    Run start (calls.filter fun call => !call.isIdle) e := by
  induction run with
  | nil => exact .nil
  | @snoc calls e e' op answer _ h ih =>
      rw [List.filter_append, List.filter_cons, List.filter_nil]
      split
      · exact ih.snoc h
      · rename_i hidle
        rw [List.append_nil]
        cases answer with
        | ok a => simp [Call.isIdle] at hidle
        | error fault =>
            obtain ⟨hop, hreturned⟩ : op.drawsFirst = false ∧ ¬fault.Aborts := by
              simpa [Call.isIdle] using hidle
            rw [(Change.of_run h).eq_of_not_drawsFirst hreturned hop]
            exact ih

-- A rejected call keeps to itself unless it has drawn first. It always has when it was to register a
-- system, and when it was to render if a request before the one that fails has drawn. All others can
-- be left out of a run.
theorem rejected_calls_left_out {start : Engine} {calls : List Call} (run : Run start calls e) :
    Run start (calls.filter fun call => !call.isIdle) e ∧
    ∀ op fault e', Operation.run op e = (.error fault, e') → ¬fault.Aborts →
      (e'.source = e.source ↔ (∀ config, op ≠ .addSystem config) ∧
        ∀ base drawn, op = .render base → base.validate = .ok () → drawAll e.systems base = .ok drawn →
          (applyAll e.previous e.effects drawn e.source).2 = e.source) ∧
      (e'.source = e.source → e' = e) := by
  refine ⟨run.without_idle, ?_⟩
  intro op fault e' h hreturned
  have change : Change e ⟨op, .error fault⟩ e' := .of_run h
  exact ⟨change.source_eq_iff, change.eq_of_source_eq hreturned⟩

theorem rejected_calls_left_out_badStep : ∃ calls e, Run (.ofSeed 0) calls e ∧
    (calls.filter fun call => !call.isIdle).length < calls.length ∧
    Run (.ofSeed 0) (calls.filter fun call => !call.isIdle) e ∧
    (Operation.update (-1)).run e = (.error .badTimeStep, e) := by
  have start : Run (.ofSeed 0) [] (.ofSeed 0) := .nil
  have run := (start.perform (.addSystem {})).perform (.update (-1))
  obtain ⟨hwithout, hrejected⟩ := rejected_calls_left_out run
  obtain ⟨hiff, hkept⟩ := hrejected (.update (-1)) .badTimeStep _ rfl (by decide)
  exact ⟨_, _, run, by decide +kernel, hwithout, congrArg _ (hkept (hiff.mpr ⟨nofun, nofun⟩))⟩

theorem rejected_config_moves_source :
    (∃ e', (Operation.addSystem { rate := -1 }).run (.ofSeed 0) =
        (.error (.notFiniteOrNegative "rate"), e') ∧
      e'.source ≠ (Engine.ofSeed 0).source ∧
      ((Operation.addSystem {}).run e').2.systems ≠
        ((Operation.addSystem {}).run (.ofSeed 0)).2.systems) ∧
    (∃ calls, Run (.ofSeed 0) calls overshaken) ∧
    ∃ e', (Operation.render (.blank 1 1)).run overshaken = (.error .shakeOutOfRange, e') ∧
      e'.source ≠ overshaken.source := by
  have start : Run (.ofSeed 0) [] (.ofSeed 0) := .nil
  have queued := (start.perform (.addOneShot (.shake { intensity := 1 }))).perform
    (.addOneShot (.shake { intensity := 0x80000000 }))
  refine ⟨⟨_, rfl, by decide +kernel, by decide +kernel⟩, ⟨_, queued⟩, _, render_overshaken, ?_⟩
  decide +kernel

end ParticleFx.Engine
