import Mathlib.Algebra.Order.Floor.Ring
import Mathlib.Data.List.Induction
import Mathlib.Data.Rat.Floor
import Mathlib.Tactic.Linarith
import Mathlib.Tactic.FieldSimp
import ParticleFx.Proofs.Particle.Histories

namespace ParticleFx

namespace TimeArithmetic

-- What the clock of an emitter shows: the time since the last emission, and how many there were.
structure Reading (τ : Type) where
  since : τ
  emitted : Nat
deriving DecidableEq

section

variable {τ : Type} (t : TimeArithmetic τ)

def tick (interval : τ) (c : Reading τ) (dt : τ) : Reading τ :=
  let elapsed := t.add c.since dt
  if t.due interval elapsed then ⟨t.carry interval elapsed, c.emitted + 1⟩
  else ⟨elapsed, c.emitted⟩

-- The clock of a fresh emitter after steps of the given times.
def reading (interval : τ) (steps : List τ) : Reading τ :=
  steps.foldl (t.tick interval) ⟨t.zero, 0⟩

theorem reading_concat (interval dt : τ) (steps : List τ) :
    t.reading interval (steps ++ [dt]) = t.tick interval (t.reading interval steps) dt := by
  rw [reading, List.foldl_concat, reading]

end

-- Exact times. Remainders are only taken of times that are not negative.
def rational : TimeArithmetic ℚ where
  zero := 0
  add := (· + ·)
  sub := (· - ·)
  remainder x y := x - y * ⌊x / y⌋
  positive x := if x > 0 then x else 0
  slack interval := interval / 10 ^ 9
  le x y := decide (x ≤ y)

section

variable {interval elapsed : ℚ}

theorem remainder_nonneg (h : 0 < interval) (x : ℚ) : 0 ≤ rational.remainder x interval := by
  have hfloor : (⌊x / interval⌋ : ℚ) * interval ≤ x := (le_div_iff₀ h).mp (Int.floor_le _)
  simp only [rational]
  linarith

theorem remainder_le (h : 0 < interval) {x : ℚ} (hx : 0 ≤ x) : rational.remainder x interval ≤ x := by
  have hfloor : (0 : ℚ) ≤ ⌊x / interval⌋ := by exact_mod_cast Int.floor_nonneg.mpr (by positivity)
  have hproduct : 0 ≤ interval * ⌊x / interval⌋ := mul_nonneg h.le hfloor
  simp only [rational]
  linarith

theorem remainder_of_lt (h : 0 < interval) {x : ℚ} (hx : 0 ≤ x) (hlt : x < interval) :
    rational.remainder x interval = x := by
  have hfloor : ⌊x / interval⌋ = 0 :=
    Int.floor_eq_zero_iff.mpr ⟨by positivity, (div_lt_one h).mpr hlt⟩
  simp [rational, hfloor]

theorem positive_eq (x : ℚ) : rational.positive x = max x 0 := by
  simp only [rational]
  split
  · rw [max_eq_left (le_of_lt ‹_›)]
  · rw [max_eq_right (not_lt.mp ‹_›)]

theorem due_iff : rational.due interval elapsed = true ↔ interval ≤ elapsed + interval / 10 ^ 9 := by
  simp [due, rational]

theorem carry_eq (interval elapsed : ℚ) :
    rational.carry interval elapsed =
      let left := rational.remainder (max (elapsed - interval) 0) interval
      if interval - left ≤ interval / 10 ^ 9 then 0 else left := by
  rw [← positive_eq]
  simp [carry, rational]

-- What is kept is a time, and far enough from the next emission.
theorem carry_mem (h : 0 < interval) (elapsed : ℚ) :
    0 ≤ rational.carry interval elapsed ∧
      rational.carry interval elapsed + interval / 10 ^ 9 < interval := by
  have hnonneg := remainder_nonneg h (max (elapsed - interval) 0)
  rw [carry_eq]
  dsimp only
  split
  · exact ⟨le_refl _, by linarith⟩
  · exact ⟨hnonneg, by linarith⟩

-- No more is kept than the time beyond one interval.
theorem carry_le (h : 0 < interval) (elapsed : ℚ) :
    rational.carry interval elapsed ≤ max (elapsed - interval) 0 := by
  have hnonneg : 0 ≤ max (elapsed - interval) 0 := le_max_right _ _
  have hle := remainder_le h hnonneg
  rw [carry_eq]
  dsimp only
  split
  · exact hnonneg
  · exact hle

-- All of it is kept if it is less than another interval.
theorem carry_of_lt (h : 0 < interval) (hle : interval ≤ elapsed)
    (hlt : elapsed + interval / 10 ^ 9 < 2 * interval) :
    rational.carry interval elapsed = elapsed - interval := by
  have hslack : 0 < interval / 10 ^ 9 := by positivity
  have hbeyond : max (elapsed - interval) 0 = elapsed - interval := max_eq_left (by linarith)
  have hleft := remainder_of_lt h (x := elapsed - interval) (by linarith) (by linarith)
  rw [carry_eq, hbeyond, hleft]
  dsimp only
  rw [if_neg (by linarith)]

end

-- The clock after a total time: it shows a time that is not yet due, and the emissions, each of an
-- interval less the slack, have not run ahead.
structure Steady (interval total : ℚ) (c : Reading ℚ) : Prop where
  nonneg : 0 ≤ c.since
  notDue : c.since + interval / 10 ^ 9 < interval
  notAhead : c.emitted * (interval - interval / 10 ^ 9) + c.since ≤ total

-- No time has been dropped.
def Lossless (interval total : ℚ) (c : Reading ℚ) : Prop :=
  total ≤ c.emitted * interval + c.since

section

variable {interval total dt : ℚ} {c : Reading ℚ} {steps : List ℚ}

theorem Steady.tick (h : 0 < interval) (hc : Steady interval total c) (hdt : 0 ≤ dt) :
    Steady interval (total + dt) (rational.tick interval c dt) := by
  obtain ⟨hnonneg, hnotDue, hnotAhead⟩ := hc
  have hslack : 0 < interval / 10 ^ 9 := by positivity
  unfold TimeArithmetic.tick
  dsimp only
  rw [show rational.add c.since dt = c.since + dt from rfl]
  split
  · rename_i hdue
    have hdue := due_iff.mp hdue
    obtain ⟨hkept, hnext⟩ := carry_mem h (c.since + dt)
    have hle := carry_le h (c.since + dt)
    refine ⟨hkept, hnext, ?_⟩
    -- An emission in the slack keeps nothing, and any other pays for a whole interval.
    have hpaid : rational.carry interval (c.since + dt) + (interval - interval / 10 ^ 9) ≤
        c.since + dt := by
      rcases le_total (c.since + dt) interval with hearly | hwhole
      · rw [max_eq_right (by linarith)] at hle
        linarith
      · rw [max_eq_left (by linarith)] at hle
        linarith
    push_cast
    linarith
  · rename_i hdue
    have hdue := mt due_iff.mpr hdue
    exact ⟨by dsimp only; linarith, by dsimp only; linarith, by dsimp only; linarith⟩

theorem Lossless.tick (h : 0 < interval) (hc : Steady interval total c)
    (hlossless : Lossless interval total c) (hdt : dt ≤ interval) :
    Lossless interval (total + dt) (rational.tick interval c dt) := by
  unfold Lossless TimeArithmetic.tick at *
  have hnotDue := hc.notDue
  rw [show rational.add c.since dt = c.since + dt from rfl]
  dsimp only
  split
  · rename_i hdue
    push_cast
    by_cases hwhole : interval ≤ c.since + dt
    · rw [carry_of_lt h hwhole (by linarith)]
      linarith
    · have hkept := (carry_mem h (c.since + dt)).1
      linarith
  · dsimp only
    linarith

theorem steady_reading (h : 0 < interval) (hsteps : ∀ dt ∈ steps, 0 ≤ dt) :
    Steady interval steps.sum (rational.reading interval steps) := by
  induction steps using List.reverseRecOn with
  | nil =>
      refine ⟨le_refl _, ?_, ?_⟩
      · show 0 + interval / 10 ^ 9 < interval
        linarith
      · show (0 : ℕ) * (interval - interval / 10 ^ 9) + 0 ≤ ([] : List ℚ).sum
        simp
  | append_singleton steps dt ih =>
      obtain ⟨hbefore, hdt⟩ := List.forall_mem_append.mp hsteps
      rw [reading_concat, List.sum_append, List.sum_singleton]
      exact (ih hbefore).tick h (hdt dt (List.mem_singleton_self dt))

theorem lossless_reading (h : 0 < interval) (hsteps : ∀ dt ∈ steps, 0 ≤ dt)
    (hshort : ∀ dt ∈ steps, dt ≤ interval) :
    Lossless interval steps.sum (rational.reading interval steps) := by
  induction steps using List.reverseRecOn with
  | nil =>
      show ([] : List ℚ).sum ≤ (0 : ℕ) * interval + 0
      simp
  | append_singleton steps dt ih =>
      obtain ⟨hbefore, _⟩ := List.forall_mem_append.mp hsteps
      obtain ⟨hshorter, hdt⟩ := List.forall_mem_append.mp hshort
      rw [reading_concat, List.sum_append, List.sum_singleton]
      exact .tick h (steady_reading h hbefore) (ih hbefore hshorter) (hdt dt (List.mem_singleton_self dt))

end

end TimeArithmetic

namespace ParticleSystem

open TimeArithmetic (Reading)

variable {s t first : ParticleSystem} {interval dt : Float} {moments : List Moment}

-- The particles that a call emitted because time had passed.
def Moment.emitted (m : Moment) : Nat :=
  match m.step with
  | .update _ => m.born.length
  | _ => 0

-- The clock of a system, after the calls that it has had.
def clock (s : ParticleSystem) (moments : List Moment) : Reading Float :=
  ⟨s.sinceEmit, (moments.map Moment.emitted).sum⟩

theorem clock_concat (past : List Moment) (m : Moment) :
    clock s (past ++ [m]) = ⟨s.sinceEmit, (clock s past).emitted + m.emitted⟩ := by
  simp [clock]

theorem emitDue_since (hinterval : s.config.interval? = some interval)
    (h : emitDue dt s = (.ok (), t)) (n : Nat) :
    t.sinceEmit = (TimeArithmetic.float.tick interval ⟨s.sinceEmit, n⟩ dt).since := by
  obtain ⟨_, _, hget, h⟩ := Act.run_bind_eq_ok.mp h
  cases hget
  rw [hinterval] at h
  obtain ⟨_, _, hget, h⟩ := Act.run_bind_eq_ok.mp h
  cases hget
  obtain ⟨_, _, hwaited, h⟩ := Act.run_bind_eq_ok.mp h
  cases hwaited
  unfold TimeArithmetic.tick
  rw [show TimeArithmetic.float.add s.sinceEmit dt = s.sinceEmit + dt from rfl]
  dsimp only at h ⊢
  split at h
  · rename_i hdue
    obtain ⟨_, mid, _, hrest⟩ := Act.run_bind_eq_ok.mp h
    obtain ⟨_, rfl⟩ := Prod.mk.inj hrest
    rw [if_pos hdue]
  · rename_i hdue
    obtain ⟨_, rfl⟩ := Prod.mk.inj h
    rw [if_neg hdue]

-- An update that succeeds is a tick of the clock.
theorem update_tick (hinterval : s.config.interval? = some interval) (h : update dt s = (.ok (), t))
    (n : Nat) :
    TimeArithmetic.float.tick interval ⟨s.sinceEmit, n⟩ dt =
      ⟨t.sinceEmit, n + (s.born (.update dt)).length⟩ := by
  obtain ⟨mid, hbrings, _⟩ := update_brings h trivial
  have hgood : ¬(!dt.isFinite || dt < 0) = true := by
    intro hbad
    cases (update_of_bad hbad s).symm.trans h
  have hborn : (s.born (.update dt)).length = if s.emitsAfter dt then 1 else 0 := by
    rw [hbrings.length_born, litter, Bool.eq_false_iff.mpr hgood]
    cases s.emitsAfter dt <;> rfl
  rw [update, if_neg hgood] at h
  obtain ⟨_, mid, hemit, hrest⟩ := Act.run_bind_eq_ok.mp h
  obtain ⟨_, rfl⟩ := Prod.mk.inj hrest
  have hsince : (advance dt mid).sinceEmit = mid.sinceEmit := rfl
  rw [hborn, hsince, emitDue_since hinterval hemit n]
  unfold emitsAfter TimeArithmetic.tick
  rw [hinterval]
  dsimp only
  rw [show TimeArithmetic.float.add s.sinceEmit dt = s.sinceEmit + dt from rfl]
  split <;> rfl

-- Nothing but an update that succeeds moves the clock.
theorem clock_of_idle {step : SystemStep} {answer : Except Fault Unit}
    (h : step.act s = (answer, t)) (hreturned : Returned answer)
    (hidle : Moment.passes ⟨step, answer, s.born step⟩ = none) :
    t.sinceEmit = s.sinceEmit ∧ Moment.emitted ⟨step, answer, s.born step⟩ = 0 := by
  cases step with
  | moveTo position =>
      obtain ⟨_, rfl⟩ := Prod.mk.inj h
      exact ⟨rfl, rfl⟩
  | emit count =>
      have hkeeps : Act.Keeps sinceEmit (emit count) := keeps_emit (fun _ _ _ => rfl) count
      have hkept := hkeeps s
      rw [show emit count s = (answer, t) from h] at hkept
      exact ⟨hkept, rfl⟩
  | emitRadial count =>
      have hkeeps : Act.Keeps sinceEmit (emitRadial count) := keeps_emitRadial (fun _ _ _ => rfl) count
      have hkept := hkeeps s
      rw [show emitRadial count s = (answer, t) from h] at hkept
      exact ⟨hkept, rfl⟩
  | update dt =>
      cases answer with
      | ok _ => cases hidle
      | error fault =>
          by_cases hbad : (!dt.isFinite || dt < 0) = true
          · obtain ⟨_, rfl⟩ := Prod.mk.inj ((update_of_bad hbad s).symm.trans h)
            have hlitter : s.litter (.update dt) = [] := by rw [litter, hbad]; rfl
            refine ⟨rfl, ?_⟩
            simp only [Moment.emitted, born, hlitter]
            rfl
          · exact (hreturned (update_aborts hbad s fault t h)).elim

-- The clock of a system goes by the time of its updates, whatever else is done to it.
theorem Life.clock_eq (life : Life first moments s) (hinterval : first.config.interval? = some interval)
    (hfresh : first.sinceEmit = 0) :
    clock s moments = TimeArithmetic.float.reading interval (moments.filterMap Moment.passes) := by
  induction life with
  | start => simp [clock, hfresh, TimeArithmetic.reading, TimeArithmetic.float]
  | @call past mid t step answer life h hreturned ih =>
      rw [List.filterMap_append, clock_concat]
      cases hpasses : Moment.passes ⟨step, answer, mid.born step⟩ with
      | none =>
          obtain ⟨hsince, hemitted⟩ := clock_of_idle h hreturned hpasses
          rw [List.filterMap_cons_none hpasses, List.filterMap_nil, List.append_nil, ← ih, hsince,
            hemitted]
          rfl
      | some dt =>
          obtain ⟨rfl, rfl⟩ : step = .update dt ∧ answer = .ok () := by
            unfold Moment.passes at hpasses
            split at hpasses <;> simp_all
          have htick := update_tick (life.config_eq ▸ hinterval) h (clock mid past).emitted
          rw [List.filterMap_cons_some hpasses, List.filterMap_nil, TimeArithmetic.reading_concat, ← ih]
          exact htick.symm

theorem sinceEmit_of_make {config : SystemConfig} {source : Source}
    (h : make config source = .ok first) : first.sinceEmit = 0 := by
  obtain ⟨_, _, hmade⟩ := bind_eq_ok_iff.mp h
  obtain rfl := Except.ok.inj hmade
  rfl

end ParticleSystem

end ParticleFx
