import ParticleFx.Proofs.Action
import ParticleFx.Timeline

namespace ParticleFx.Timeline

theorem getElem?_concat_eq_some_iff {α : Type} {l : List α} {a b : α} {i : Nat} :
    (l ++ [a])[i]? = some b ↔ l[i]? = some b ∨ i = l.length ∧ a = b := by
  rcases Nat.lt_trichotomy i l.length with hlt | heq | hgt
  · rw [List.getElem?_append_left hlt]
    simp [Nat.ne_of_lt hlt]
  · subst heq
    simp
  · have hold : l[i]? = none := List.getElem?_eq_none (by omega)
    have hnew : (l ++ [a])[i]? = none := List.getElem?_eq_none (by simp; omega)
    simp [hold, hnew, Nat.ne_of_gt hgt]

variable {scene : Scene} {pictures others : List Frame} {picture : Frame} {t u : Timeline} {e : Fault}

-- There can be memory for the background.
def BackgroundFits (scene : Scene) : Prop :=
  scene.canvas.width * scene.canvas.height * 4 ≤ Word.mostBytes

instance (scene : Scene) : Decidable (BackgroundFits scene) :=
  inferInstanceAs (Decidable (scene.canvas.width * scene.canvas.height * 4 ≤ Word.mostBytes))

-- The first frames of a scene with the pictures they show, all of them having succeeded, and the
-- timeline they leave. Only a valid scene whose background fits can be started.
inductive Trace (scene : Scene) : List Frame → Timeline → Prop
  | start {t : Timeline} (h : Timeline.start scene = .ok t) : Trace scene [] t
  | step {pictures : List Frame} {picture : Frame} {t u : Timeline} (trace : Trace scene pictures t)
      (h : Timeline.step scene pictures.length t = (.ok picture, u)) :
      Trace scene (pictures ++ [picture]) u

-- Every frame before `n` succeeds, and the step of frame `n` gives the result.
def StepGives (scene : Scene) (n : Nat) (result : Except Fault Frame) : Prop :=
  ∃ pictures t, Trace scene pictures t ∧ pictures.length = n ∧ (Timeline.step scene n t).1 = result

theorem start_eq_ok_iff :
    Timeline.start scene = .ok t ↔
      scene.validate = .ok () ∧ BackgroundFits scene ∧
        t = ⟨.ofSeed scene.seed, scene.emitters.map fun _ => none⟩ := by
  constructor
  · intro h
    obtain ⟨_, hv, h⟩ := bind_eq_ok_iff.mp h
    obtain ⟨_, hfits, h⟩ := bind_eq_ok_iff.mp h
    exact ⟨hv, Word.allocate_eq_ok_iff.mp hfits, (Except.ok.inj h).symm⟩
  · rintro ⟨hv, hfits, rfl⟩
    exact bind_eq_ok_iff.mpr ⟨(), hv, bind_eq_ok_iff.mpr ⟨(), Word.allocate_of_le hfits, rfl⟩⟩

theorem start_eq_error_iff :
    Timeline.start scene = .error e ↔
      scene.validate = .error e ∨ scene.validate = .ok () ∧ ¬BackgroundFits scene ∧ e = .aborted := by
  cases hv : scene.validate with
  | error e' => simp [Timeline.start, hv, bind, Except.bind]
  | ok _ =>
      unfold BackgroundFits
      by_cases hfits : scene.canvas.width * scene.canvas.height * 4 ≤ Word.mostBytes
      · simp [Timeline.start, hv, hfits, Word.allocate_of_le, bind, Except.bind, pure, Except.pure]
      · simp [Timeline.start, hv, hfits, Word.allocate_of_lt (Nat.not_le.mp hfits), bind, Except.bind, eq_comm]

namespace Trace

theorem exists_start (h : Trace scene pictures t) : ∃ first, Timeline.start scene = .ok first := by
  induction h with
  | start h => exact ⟨_, h⟩
  | step _ _ ih => exact ih

theorem validate (h : Trace scene pictures t) : scene.validate = .ok () := by
  obtain ⟨_, hs⟩ := h.exists_start
  exact (start_eq_ok_iff.mp hs).1

-- Playing a scene leaves nothing to chance: the number of frames decides all the rest.
theorem unique (h : Trace scene pictures t) (h' : Trace scene others u)
    (hlen : pictures.length = others.length) : pictures = others ∧ t = u := by
  induction h generalizing others u with
  | start hs =>
      cases h' with
      | start hs' => exact ⟨rfl, Except.ok.inj (hs.symm.trans hs')⟩
      | step _ _ => simp at hlen
  | step _ hs ih =>
      cases h' with
      | start _ => simp at hlen
      | step before hs' =>
          obtain ⟨rfl, rfl⟩ := ih before (by simpa using hlen)
          rw [hs, Prod.mk.injEq, Except.ok.injEq] at hs'
          obtain ⟨rfl, rfl⟩ := hs'
          exact ⟨rfl, rfl⟩

theorem stepGives (h : Trace scene pictures t) {i : Nat} (hi : pictures[i]? = some picture) :
    StepGives scene i (.ok picture) := by
  induction h with
  | start _ => simp at hi
  | @step before last t u trace hs ih =>
      rcases getElem?_concat_eq_some_iff.mp hi with hold | ⟨rfl, rfl⟩
      · exact ih hold
      · exact ⟨before, t, trace, rfl, by rw [hs]⟩

end Trace

theorem StepGives.exists_start {n : Nat} {r : Except Fault Frame} (h : StepGives scene n r) :
    ∃ first, Timeline.start scene = .ok first := by
  obtain ⟨_, _, trace, _⟩ := h
  exact trace.exists_start

theorem StepGives.unique {n : Nat} {r r' : Except Fault Frame} (h : StepGives scene n r)
    (h' : StepGives scene n r') : r = r' := by
  obtain ⟨pictures, t, trace, rfl, rfl⟩ := h
  obtain ⟨others, u, trace', hlen, rfl⟩ := h'
  obtain ⟨rfl, rfl⟩ := trace.unique trace' hlen.symm
  rfl

-- No trace gets past a frame that fails.
theorem Trace.length_le (h : Trace scene pictures t) {n : Nat} {e : Fault}
    (he : StepGives scene n (.error e)) : pictures.length ≤ n := by
  rcases Nat.lt_or_ge n pictures.length with hlt | hge
  · have hp := h.stepGives (List.getElem?_eq_getElem hlt)
    have hne := he.unique hp
    cases hne
  · exact hge

theorem StepGives.exists_trace {n : Nat} (h : StepGives scene n (.ok picture)) :
    ∃ pictures t, Trace scene (pictures ++ [picture]) t ∧ pictures.length = n := by
  obtain ⟨pictures, t, trace, rfl, hs⟩ := h
  exact ⟨pictures, _, trace.step (Prod.ext hs rfl), rfl⟩

theorem StepGives.lt_of_error {n m : Nat} {e : Fault} (h : StepGives scene n (.ok picture))
    (he : StepGives scene m (.error e)) : n < m := by
  obtain ⟨pictures, t, trace, rfl⟩ := h.exists_trace
  have hle := trace.length_le he
  rwa [List.length_append, List.length_singleton] at hle

-- Only one frame can be the first to fail.
theorem StepGives.error_unique {n m : Nat} {e e' : Fault} (h : StepGives scene n (.error e))
    (h' : StepGives scene m (.error e')) : n = m ∧ e = e' := by
  have hnm : n = m := by
    obtain ⟨pictures, t, trace, rfl, _⟩ := id h
    obtain ⟨others, u, trace', rfl, _⟩ := id h'
    have hle := trace.length_le h'
    have hge := trace'.length_le h
    omega
  subst hnm
  exact ⟨rfl, Except.error.inj (h.unique h')⟩

-- Playing on from a trace shows the frame asked for, unless one on the way to it fails.
theorem playFrom_cases (h : Trace scene pictures t) (left : Nat) :
    (∃ p, scene.playFrom left pictures.length t = .ok p ∧
      StepGives scene (pictures.length + left) (.ok p)) ∨
    ∃ e n, scene.playFrom left pictures.length t = .error e ∧ n ≤ pictures.length + left ∧
      StepGives scene n (.error e) := by
  induction left generalizing pictures t with
  | zero =>
      have hs : StepGives scene pictures.length (Timeline.step scene pictures.length t).1 :=
        ⟨pictures, t, h, rfl, rfl⟩
      cases hr : (Timeline.step scene pictures.length t).1 with
      | ok p => exact .inl ⟨p, by simp only [Scene.playFrom, hr], hr ▸ hs⟩
      | error e =>
          exact .inr ⟨e, pictures.length, by simp only [Scene.playFrom, hr], Nat.le_refl _, hr ▸ hs⟩
  | succ left ih =>
      rcases hs : Timeline.step scene pictures.length t with ⟨r, u⟩
      cases r with
      | ok p =>
          have hplay : scene.playFrom (left + 1) pictures.length t =
              scene.playFrom left (pictures ++ [p]).length u := by
            simp only [Scene.playFrom, hs, List.length_append, List.length_singleton]
          have hlen : pictures.length + (left + 1) = (pictures ++ [p]).length + left := by
            simp only [List.length_append, List.length_singleton]
            omega
          rw [hplay, hlen]
          exact ih (h.step hs)
      | error e =>
          refine .inr ⟨e, pictures.length, by simp only [Scene.playFrom, hs], by omega, ?_⟩
          exact ⟨pictures, t, h, rfl, by rw [hs]⟩

-- A valid scene has one reason not to be started.
theorem of_start_error (hv : scene.validate = .ok ()) (hs : Timeline.start scene = .error e) :
    ¬BackgroundFits scene ∧ e = .aborted := by
  rcases start_eq_error_iff.mp hs with hrefused | ⟨_, hlarge⟩
  · cases hv.symm.trans hrefused
  · exact hlarge

theorem renderFrame_of_start_error {i : Nat} (hs : Timeline.start scene = .error e)
    (hi : i < scene.duration) : scene.renderFrame i = .error e := by
  simp only [Scene.renderFrame, hs, Nat.not_le.mpr hi, bind, Except.bind, if_false]

theorem renderFrame_cases {i : Nat} (hs : Timeline.start scene = .ok t) (hi : i < scene.duration) :
    (∃ p, scene.renderFrame i = .ok p ∧ StepGives scene i (.ok p)) ∨
    ∃ e n, scene.renderFrame i = .error e ∧ n ≤ i ∧ StepGives scene n (.error e) := by
  have hplay : scene.renderFrame i = scene.playFrom i 0 t := by
    simp only [Scene.renderFrame, hs, Nat.not_le.mpr hi, bind, Except.bind, if_false]
  rw [hplay]
  simpa only [List.length_nil, Nat.zero_add] using playFrom_cases (.start hs) i

-- A single frame shows what its step shows in the course of the whole scene.
theorem renderFrame_eq_ok {i : Nat} (hi : i < scene.duration)
    (hp : StepGives scene i (.ok picture)) : scene.renderFrame i = .ok picture := by
  obtain ⟨t, hs⟩ := hp.exists_start
  rcases renderFrame_cases hs hi with ⟨p, hok, hs⟩ | ⟨e, n, _, hn, hs⟩
  · rw [hok, hs.unique hp]
  · have hlt := hp.lt_of_error hs
    omega

theorem renderFrame_eq_error {i n : Nat} {e : Fault} (hi : i < scene.duration) (hn : n ≤ i)
    (he : StepGives scene n (.error e)) : scene.renderFrame i = .error e := by
  obtain ⟨t, hs⟩ := he.exists_start
  rcases renderFrame_cases hs hi with ⟨p, _, hs⟩ | ⟨e', m, herr, _, hs⟩
  · have hlt := hs.lt_of_error he
    omega
  · rw [herr, (he.error_unique hs).2]

-- Two frames, with an emitter that moves from the first on and one that starts and fires on the
-- second, and an effect on both.
def lateBurst : Scene where
  canvas := ⟨1, 1⟩
  fps := ⟨1, 1⟩
  duration := 2
  emitters := [{ config := { rate := 0 }, start := 1 }, { config := { rate := 0 }, motion := ⟨1, 0⟩ }]
  bursts := [{ frame := 1, emitter := 0, count := 1 }]
  effects := [{ effect := .shake { intensity := 0 }, range := ⟨0, 2⟩ }]

theorem validate_lateBurst : lateBurst.validate = .ok () := rfl

theorem exists_start_lateBurst : ∃ t, Timeline.start lateBurst = .ok t := ⟨_, rfl⟩

theorem exists_stepGives_lateBurst : ∃ p, StepGives lateBurst 1 (.ok p) := by
  have hok : (lateBurst.renderFrame 1).isOk = true := by decide +kernel
  obtain ⟨t, hs⟩ := exists_start_lateBurst
  rcases renderFrame_cases hs (by decide : 1 < 2) with ⟨p, _, hs⟩ | ⟨e, n, hfail, _⟩
  · exact ⟨p, hs⟩
  · rw [hfail] at hok
    cases hok

end ParticleFx.Timeline
