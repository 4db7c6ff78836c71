import ParticleFx.Scene

namespace ParticleFx

-- A check passes only if the one before it does.
theorem andThen_eq_ok_iff {x : Except Fault Unit} {y : Unit → Except Fault Unit} :
    (x >>= y) = .ok () ↔ x = .ok () ∧ y () = .ok () := by
  cases x with
  | error e => simp [bind, Except.bind]
  | ok _ => simp [bind, Except.bind]

theorem guarded_eq_ok_iff {c : Prop} [Decidable c] {e : Fault} {y : Except Fault Unit} :
    (if c then (.error e >>= fun (_ : Unit) => y) else y) = .ok () ↔ ¬c ∧ y = .ok () := by
  by_cases hc : c
  · simp [hc, bind, Except.bind]
  · simp [hc]

theorem checkEach_eq_ok_iff {α : Type} {check : Nat → α → Except Fault Unit} {p : α → Prop}
    (h : ∀ i a, check i a = .ok () ↔ p a) (i : Nat) (l : List α) :
    checkEach check i l = .ok () ↔ ∀ a ∈ l, p a := by
  induction l generalizing i with
  | nil => simp [checkEach]
  | cons a rest ih =>
      simp only [checkEach, List.forall_mem_cons]
      rw [andThen_eq_ok_iff, h, ih]

theorem Fps.validate_eq_ok_iff (fps : Fps) : fps.validate = .ok () ↔ fps.den ≠ 0 ∧ fps.num ≠ 0 := by
  by_cases hd : fps.den = 0 <;> by_cases hn : fps.num = 0 <;> simp [Fps.validate, hd, hn]

namespace Scene

-- The frame of a burst lies within the scene and not before its emitter starts.
def BurstFits (s : Scene) (b : BurstDef) : Prop :=
  ∃ d, s.emitters[b.emitter]? = some d ∧ b.frame < s.duration ∧ d.start ≤ b.frame

-- The range of an effect lies within the scene.
def EffectFits (s : Scene) (e : ScheduledEffect) : Prop :=
  e.effect.validate = .ok () ∧ e.range.start ≤ e.range.stop ∧ e.range.stop ≤ s.duration ∧ 0 < e.every

-- What playing a scene relies on.
structure Valid (s : Scene) : Prop where
  canvas : s.canvas.width ≠ 0 ∧ s.canvas.height ≠ 0
  fps : s.fps.den ≠ 0 ∧ s.fps.num ≠ 0
  duration : s.duration ≠ 0
  emitters : ∀ d ∈ s.emitters, d.config.validate = .ok () ∧ d.motion.isFinite = true
  bursts : ∀ b ∈ s.bursts, s.BurstFits b
  effects : ∀ e ∈ s.effects, s.EffectFits e

theorem checkEmitter_eq_ok_iff (i : Nat) (d : EmitterDef) :
    checkEmitter i d = .ok () ↔ d.config.validate = .ok () ∧ d.motion.isFinite = true := by
  cases hc : d.config.validate with
  | error e => simp [checkEmitter, hc]
  | ok _ => by_cases hm : d.motion.isFinite = true <;> simp [checkEmitter, hc, hm]

theorem checkBurst_eq_ok_iff (s : Scene) (i : Nat) (b : BurstDef) :
    s.checkBurst i b = .ok () ↔ s.BurstFits b := by
  cases he : s.emitters[b.emitter]? with
  | none => simp [checkBurst, BurstFits, he]
  | some d =>
      simp only [checkBurst, BurstFits, he, Option.some.injEq, exists_eq_left']
      by_cases hd : s.duration ≤ b.frame
      · have hnot : ¬b.frame < s.duration := by omega
        simp [hd, hnot]
      · have hlt : b.frame < s.duration := by omega
        by_cases hb : b.frame < d.start
        · simp [hd, hb]
        · simp [hd, hb, hlt, Nat.le_of_not_lt hb]

theorem checkScheduled_eq_ok_iff (s : Scene) (i : Nat) (e : ScheduledEffect) :
    s.checkScheduled i e = .ok () ↔ s.EffectFits e := by
  cases hr : e.effect.validate with
  | error cause => simp [checkScheduled, EffectFits, hr]
  | ok _ =>
      simp only [checkScheduled, EffectFits, hr, true_and]
      by_cases hrange : e.range.stop < e.range.start ∨ s.duration < e.range.stop
      · have hnot : ¬(e.range.start ≤ e.range.stop ∧ e.range.stop ≤ s.duration ∧ 0 < e.every) := by
          omega
        simp [hrange, hnot]
      · have hle : e.range.start ≤ e.range.stop ∧ e.range.stop ≤ s.duration := by omega
        by_cases hevery : e.every = 0
        · simp [hrange, hevery]
        · simp [hrange, hevery, hle, Nat.pos_of_ne_zero hevery]

-- The checks accept exactly the scenes that can be relied on.
theorem validate_iff_valid (s : Scene) : s.validate = .ok () ↔ s.Valid := by
  simp only [validate, guarded_eq_ok_iff, andThen_eq_ok_iff, Fps.validate_eq_ok_iff,
    checkEach_eq_ok_iff checkEmitter_eq_ok_iff, checkEach_eq_ok_iff s.checkBurst_eq_ok_iff,
    checkEach_eq_ok_iff s.checkScheduled_eq_ok_iff, not_or]
  constructor
  · rintro ⟨hcanvas, hfps, hduration, hemitters, hbursts, heffects⟩
    exact ⟨hcanvas, hfps, hduration, hemitters, hbursts, heffects⟩
  · rintro ⟨hcanvas, hfps, hduration, hemitters, hbursts, heffects⟩
    exact ⟨hcanvas, hfps, hduration, hemitters, hbursts, heffects⟩

end Scene

end ParticleFx
