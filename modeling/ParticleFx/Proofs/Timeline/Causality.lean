import Mathlib.Data.List.Forall2
import ParticleFx.Proofs.Timeline.Layout

namespace ParticleFx

-- Two scenes that have the same past on frame `f`. Their durations may differ, and so may all that
-- only a later frame can show.
structure Scene.SameUntil (f : Nat) (a b : Scene) : Prop where
  canvas : a.canvas = b.canvas
  fps : a.fps = b.fps
  seed : a.seed = b.seed
  background : a.background = b.background
  -- as many emitters in both, and the same one wherever either has started
  emitters : List.Forall₂ (fun d d' => d.start ≤ f ∨ d'.start ≤ f → d = d') a.emitters b.emitters
  bursts : a.bursts.filter (fun x => x.frame ≤ f) = b.bursts.filter (fun x => x.frame ≤ f)
  effects : ∀ g ≤ f, (a.effects.filter fun s => s.isActive g).map ScheduledEffect.effect =
    (b.effects.filter fun s => s.isActive g).map ScheduledEffect.effect

namespace Timeline

variable {a b : Scene} {f n : Nat} {slots : List (Option SystemId)} {pictures : List Frame}
  {t : Timeline}

-- An emitter that starts later has no system yet, and its turn leaves it so whatever it is.
theorem stepEmitter_congr {d d' : EmitterDef} (dt : Float) (hn : n ≤ f)
    (hagree : d.start ≤ f ∨ d'.start ≤ f → d = d') {slot : Option SystemId}
    (hslot : slot.isSome = true → d.start ≤ f) :
    stepEmitter dt n d slot = stepEmitter dt n d' slot := by
  by_cases hstarted : d.start ≤ f ∨ d'.start ≤ f
  · rw [hagree hstarted]
  · have hd : d.start ≠ n := by omega
    have hd' : d'.start ≠ n := by omega
    cases slot with
    | some id => exact absurd (.inl (hslot rfl)) hstarted
    | none => simp only [stepEmitter, hd, hd', if_false]

theorem stepEmitters_congr {ds ds' : List EmitterDef} (dt : Float) (hn : n ≤ f)
    (hagree : List.Forall₂ (fun d d' => d.start ≤ f ∨ d'.start ≤ f → d = d') ds ds')
    (hslots : ∀ (k : Nat) d id, ds[k]? = some d → slots[k]? = some (some id) → d.start ≤ f) :
    stepEmitters dt n ds slots = stepEmitters dt n ds' slots := by
  induction hagree generalizing slots with
  | nil => rfl
  | @cons d d' ds ds' hhead _ ih =>
      cases slots with
      | nil => rfl
      | cons slot slots =>
          have hslot : slot.isSome = true → d.start ≤ f := by
            intro hsome
            obtain ⟨id, rfl⟩ := Option.isSome_iff_exists.mp hsome
            exact hslots 0 d id rfl rfl
          have htail := ih fun k d id hd hid => hslots (k + 1) d id hd hid
          rw [stepEmitters, stepEmitters, stepEmitter_congr dt hn hhead hslot, htail]

theorem burstsOn_congr (same : Scene.SameUntil f a b) (hn : n ≤ f) : burstsOn a n = burstsOn b n := by
  have hpast (bursts : List BurstDef) : bursts.filter (fun x => x.frame = n) =
      (bursts.filter fun x => x.frame ≤ f).filter fun x => x.frame = n := by
    rw [List.filter_filter]
    refine List.filter_congr fun x _ => ?_
    by_cases hx : x.frame = n
    · simp [hx, hn]
    · simp [hx]
  rw [burstsOn, burstsOn, hpast a.bursts, hpast b.bursts, same.bursts]

theorem queueAll_congr {l l' : List ScheduledEffect}
    (h : l.map ScheduledEffect.effect = l'.map ScheduledEffect.effect) : queueAll l = queueAll l' := by
  induction l generalizing l' with
  | nil =>
      obtain rfl : l' = [] := by simpa using h.symm
      rfl
  | cons s rest ih =>
      cases l' with
      | nil => simp at h
      | cons s' rest' =>
          obtain ⟨hhead, htail⟩ := List.cons.inj h
          rw [queueAll, queueAll, hhead, ih htail]

theorem step_congr (same : Scene.SameUntil f a b) (hn : n ≤ f)
    (hslots : ∀ (k : Nat) d id, a.emitters[k]? = some d → t.slots[k]? = some (some id) →
      d.start ≤ f) : step a n t = step b n t := by
  have hemitters := stepEmitters_congr b.fps.frameSeconds hn same.emitters hslots
  have hbursts := burstsOn_congr same hn
  have heffects := queueAll_congr (same.effects n hn)
  have hbase : a.baseFrame = b.baseFrame := by
    rw [Scene.baseFrame, Scene.baseFrame, same.canvas, same.background]
  rw [burstsOn, burstsOn] at hbursts
  have hengine : stepEngine a n t.slots = stepEngine b n t.slots := by
    simp only [stepEngine, same.fps, hemitters, hbursts, heffects, hbase]
  rw [step, step, hengine]

theorem Layout.start_lt_of_slot {scene : Scene} {order : List Nat} {e : Engine} {d : EmitterDef}
    {id : SystemId} {k : Nat} (h : Layout scene n 0 order slots e) (hd : scene.emitters[k]? = some d)
    (hid : slots[k]? = some (some id)) : d.start < n := by
  have hmem := List.mem_of_getElem? ((h.slot_iff k id.number).mp hid)
  obtain ⟨d', hd', hstarted⟩ := (h.mem_iff k).mp hmem
  obtain rfl : d = d' := Option.some.inj (hd.symm.trans hd')
  omega

theorem Trace.step_congr (trace : Trace a pictures t) (same : Scene.SameUntil f a b)
    (hlen : pictures.length ≤ f) :
    Timeline.step a pictures.length t = Timeline.step b pictures.length t := by
  obtain ⟨order, layout⟩ := trace.layout
  refine Timeline.step_congr same hlen fun k d id hd hid => ?_
  have hlt := layout.start_lt_of_slot hd hid
  omega

theorem backgroundFits_congr (same : Scene.SameUntil f a b) : BackgroundFits a ↔ BackgroundFits b := by
  unfold BackgroundFits
  rw [same.canvas]

theorem start_congr (same : Scene.SameUntil f a b) (hb : b.validate = .ok ())
    (hs : start a = .ok t) : start b = .ok t := by
  obtain ⟨-, hfits, rfl⟩ := start_eq_ok_iff.mp hs
  have hnone : a.emitters.map (fun _ => (none : Option SystemId)) = b.emitters.map fun _ => none := by
    simp [List.map_const', same.emitters.length_eq]
  exact start_eq_ok_iff.mpr ⟨hb, (backgroundFits_congr same).mp hfits, by rw [same.seed, hnone]⟩

theorem Trace.transfer (trace : Trace a pictures t) (same : Scene.SameUntil f a b)
    (hb : b.validate = .ok ()) (hlen : pictures.length ≤ f + 1) : Trace b pictures t := by
  induction trace with
  | start hs => exact .start (start_congr same hb hs)
  | step before hs ih =>
      rw [List.length_append, List.length_singleton] at hlen
      have hstep := before.step_congr same (by omega)
      exact (ih (by omega)).step (hstep ▸ hs)

theorem StepGives.transfer {result : Except Fault Frame} (h : StepGives a n result)
    (same : Scene.SameUntil f a b) (hb : b.validate = .ok ()) (hn : n ≤ f) :
    StepGives b n result := by
  obtain ⟨pictures, t, trace, rfl, hs⟩ := h
  refine ⟨pictures, t, trace.transfer same hb (by omega), rfl, ?_⟩
  rw [← trace.step_congr same hn]
  exact hs

-- What comes after a frame never shows on it, be it a longer duration, an emitter that starts later,
-- a burst or an effect.
theorem renderFrame_ignores_future (ha : a.validate = .ok ()) (hb : b.validate = .ok ())
    (hfa : f < a.duration) (hfb : f < b.duration) (same : Scene.SameUntil f a b) :
    a.renderFrame f = b.renderFrame f := by
  cases hstart : start a with
  | error e =>
      obtain ⟨hlarge, rfl⟩ := of_start_error ha hstart
      have hstart' : start b = .error .aborted :=
        start_eq_error_iff.mpr (.inr ⟨hb, (backgroundFits_congr same).not.mp hlarge, rfl⟩)
      rw [renderFrame_of_start_error hstart hfa, renderFrame_of_start_error hstart' hfb]
  | ok t =>
      rcases renderFrame_cases hstart hfa with ⟨p, hok, hs⟩ | ⟨e, n, herror, hn, hs⟩
      · rw [hok, renderFrame_eq_ok hfb (hs.transfer same hb (Nat.le_refl f))]
      · rw [herror, renderFrame_eq_error hfb hn (hs.transfer same hb hn)]

def cutShort : Scene :=
  { lateBurst with emitters := lateBurst.emitters ++ [{ config := { rate := 0 }, start := 9 }] }

-- The same two frames and another one, on which the third emitter starts and fires and the frame glows.
def goesOn : Scene :=
  { lateBurst with
    duration := 3
    emitters := lateBurst.emitters ++ [{ config := { rate := 7 }, motion := ⟨0, 1⟩, start := 2 }]
    bursts := { frame := 2, emitter := 2, count := 5, radial := true } :: lateBurst.bursts
    effects :=
      [{ effect := .glow {}, range := ⟨2, 3⟩ }, { effect := .shake { intensity := 0 }, range := ⟨0, 3⟩ }] }

theorem sameUntil_goesOn : Scene.SameUntil 1 cutShort goesOn where
  canvas := rfl
  fps := rfl
  seed := rfl
  background := rfl
  emitters := .cons (fun _ => rfl) (.cons (fun _ => rfl) (.cons (by decide) .nil))
  bursts := by decide
  effects := by decide

theorem renderFrame_ignores_future_goesOn :
    cutShort.validate = .ok () ∧ goesOn.validate = .ok () ∧ Scene.SameUntil 1 cutShort goesOn ∧
      cutShort.renderFrame 1 = goesOn.renderFrame 1 :=
  ⟨rfl, rfl, sameUntil_goesOn,
    renderFrame_ignores_future rfl rfl (by decide) (by decide) sameUntil_goesOn⟩

end Timeline

end ParticleFx
