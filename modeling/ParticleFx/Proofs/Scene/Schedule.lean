import Mathlib.Algebra.Order.Floor.Semiring
import Mathlib.Data.List.Sort
import Mathlib.Data.Nat.PSub
import Mathlib.Data.Rat.Floor
import ParticleFx.Scene

namespace ParticleFx

-- A remainder after division by zero is not there.
def remainder? (n divisor : Nat) : Option Nat :=
  if divisor = 0 then none else some (n % divisor)

namespace ScheduledEffect

variable {s : ScheduledEffect} {frame duration j : Nat}

-- The same decision with arithmetic that can fail. Each condition is looked at only if those before it hold.
def isActive? (s : ScheduledEffect) (frame : Nat) : Option Bool :=
  pure (s.range.contains frame) <&&> pure (decide (0 < s.every)) <&&> do
    let passed ← Nat.psub frame s.range.start
    let rest ← remainder? passed s.every
    return decide (rest = 0)

-- Inside the range the difference is there, and a step that is not zero has remainders.
theorem isActive?_eq (s : ScheduledEffect) (frame : Nat) : s.isActive? frame = some (s.isActive frame) := by
  rw [isActive?, isActive]
  cases hrange : s.range.contains frame with
  | false => rfl
  | true =>
      cases hevery : decide (0 < s.every) with
      | false => rfl
      | true =>
          have hstart : s.range.start ≤ frame := by
            simp only [FrameRange.contains, Bool.and_eq_true, decide_eq_true_eq] at hrange
            exact hrange.1
          have hstep : s.every ≠ 0 := (of_decide_eq_true hevery).ne'
          rw [Nat.psub_eq_sub hstart, Option.bind_eq_bind, Option.bind_some, remainder?, if_neg hstep]
          rfl

theorem isActive_iff (hevery : 1 ≤ s.every) :
    s.isActive frame = true ↔ ∃ j, frame = s.range.start + j * s.every ∧ frame < s.range.stop := by
  simp only [isActive, FrameRange.contains, Bool.and_eq_true, decide_eq_true_eq]
  constructor
  · rintro ⟨⟨⟨hstart, hstop⟩, _⟩, hrest⟩
    refine ⟨(frame - s.range.start) / s.every, ?_, hstop⟩
    rw [Nat.div_mul_cancel (Nat.dvd_of_mod_eq_zero hrest)]
    omega
  · rintro ⟨j, rfl, hstop⟩
    refine ⟨⟨⟨Nat.le_add_right _ _, hstop⟩, hevery⟩, ?_⟩
    rw [Nat.add_sub_cancel_left, Nat.mul_mod_left]

theorem isActive_eq_false (h : s.every = 0 ∨ s.range.stop ≤ s.range.start) (frame : Nat) :
    s.isActive frame = false := by
  simp only [isActive, FrameRange.contains, Bool.and_eq_false_iff, decide_eq_false_iff_not]
  omega

-- How many steps begin before the range ends.
theorem lt_ceil_iff (hevery : 1 ≤ s.every) :
    j < ⌈((s.range.stop : ℚ) - s.range.start) / s.every⌉₊ ↔ s.range.start + j * s.every < s.range.stop := by
  have hpos : (0 : ℚ) < s.every := Nat.cast_pos.mpr hevery
  rw [Nat.lt_ceil, lt_div_iff₀ hpos, lt_sub_iff_add_lt']
  exact_mod_cast Iff.rfl

-- Both sides are in order, so it is enough that they have the same members.
theorem filter_isActive (hstop : s.range.stop ≤ duration) (hevery : 1 ≤ s.every) :
    (List.range duration).filter s.isActive =
      (List.range ⌈((s.range.stop : ℚ) - s.range.start) / s.every⌉₊).map
        fun j => s.range.start + j * s.every := by
  have hfired : ((List.range duration).filter s.isActive).Pairwise (· < ·) := List.pairwise_lt_range.filter _
  have hsteps : ((List.range ⌈((s.range.stop : ℚ) - s.range.start) / s.every⌉₊).map
      fun j => s.range.start + j * s.every).Pairwise (· < ·) := by
    refine List.pairwise_map.mpr (List.pairwise_lt_range.imp fun hlt => ?_)
    exact Nat.add_lt_add_left (Nat.mul_lt_mul_of_pos_right hlt hevery) _
  apply hfired.eq_of_mem_iff hsteps
  intro frame
  simp only [List.mem_filter, List.mem_range, List.mem_map, isActive_iff hevery, lt_ceil_iff hevery]
  constructor
  · rintro ⟨_, j, rfl, hlt⟩
    exact ⟨j, hlt, rfl⟩
  · rintro ⟨j, hlt, rfl⟩
    exact ⟨by omega, j, rfl, hlt⟩

-- An effect fires at the start of its range and then at every step of it that is still inside, and never
-- if it has no step or no range. Telling whether it fires always succeeds.
theorem firings_are_steps (s : ScheduledEffect) :
    (∀ frame, s.isActive? frame = some (s.isActive frame)) ∧
    (∀ duration, s.range.start ≤ s.range.stop → s.range.stop ≤ duration → 1 ≤ s.every →
      (∀ frame < duration, s.isActive frame = true ↔
        ∃ j, frame = s.range.start + j * s.every ∧ frame < s.range.stop) ∧
      (List.range duration).filter s.isActive =
        (List.range ⌈((s.range.stop : ℚ) - s.range.start) / s.every⌉₊).map
          (fun j => s.range.start + j * s.every) ∧
      (List.range duration).countP s.isActive = ⌈((s.range.stop : ℚ) - s.range.start) / s.every⌉₊) ∧
    (s.every = 0 ∨ s.range.stop ≤ s.range.start → ∀ frame, s.isActive frame = false) := by
  refine ⟨s.isActive?_eq, fun duration _ hstop hevery => ?_, isActive_eq_false⟩
  have hfilter := filter_isActive hstop hevery
  refine ⟨fun frame _ => isActive_iff hevery, hfilter, ?_⟩
  rw [List.countP_eq_length_filter, hfilter, List.length_map, List.length_range]

-- Seven frames in steps of three.
def tremor : ScheduledEffect := ⟨.shake {}, ⟨2, 9⟩, 3⟩

-- The last step is cut short, and still fires. Without a step nothing does, and nothing is divided by it.
theorem firings_are_steps_tremor :
    tremor.range.start ≤ tremor.range.stop ∧ tremor.range.stop ≤ 10 ∧ 1 ≤ tremor.every ∧
    ⌈((9 : ℚ) - 2) / 3⌉₊ = 3 ∧
    (List.range 10).filter tremor.isActive = [2, 5, 8] ∧ (List.range 10).countP tremor.isActive = 3 ∧
    isActive? { tremor with every := 0 } 5 = some false := by
  have hstart : tremor.range.start ≤ tremor.range.stop := by decide
  have hstop : tremor.range.stop ≤ 10 := by decide
  have hevery : 1 ≤ tremor.every := by decide
  have hceil : ⌈((9 : ℚ) - 2) / 3⌉₊ = 3 := by
    rw [Nat.ceil_eq_iff (by decide)]
    norm_num
  obtain ⟨_, hsteps, _⟩ := firings_are_steps tremor
  obtain ⟨_, hfired, hcount⟩ := hsteps 10 hstart hstop hevery
  obtain ⟨hdecided, _, hnever⟩ := firings_are_steps { tremor with every := 0 }
  refine ⟨hstart, hstop, hevery, hceil, ?_, ?_, ?_⟩
  · rw [hfired]
    simp only [tremor]
    push_cast
    rw [hceil]
    rfl
  · rw [hcount]
    simp only [tremor]
    push_cast
    exact hceil
  · rw [hdecided, hnever (.inl rfl)]

end ScheduledEffect

end ParticleFx
