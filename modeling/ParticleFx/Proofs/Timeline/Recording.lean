import ParticleFx.Proofs.Scene.Validity
import ParticleFx.Proofs.Timeline.Outcome

namespace ParticleFx.Timeline

variable {scene : Scene} {pictures others : List Frame} {fault fault' : Option Fault} {t : Timeline}

-- How far a scene can be played: to its last frame, or to the first one that fails.
inductive Run (scene : Scene) (pictures : List Frame) : Option Fault → Prop
  | whole {t : Timeline} (trace : Trace scene pictures t) (hlen : pictures.length = scene.duration) :
      Run scene pictures none
  | cut {t : Timeline} {e : Fault} (trace : Trace scene pictures t)
      (hlt : pictures.length < scene.duration) (h : StepGives scene pictures.length (.error e)) :
      Run scene pictures (some e)

theorem Run.unique (h : Run scene pictures fault) (h' : Run scene others fault') :
    pictures = others ∧ fault = fault' := by
  cases h with
  | whole trace hlen =>
      cases h' with
      | whole trace' hlen' => exact ⟨(trace.unique trace' (hlen.trans hlen'.symm)).1, rfl⟩
      | cut _ hlt he =>
          have hle := trace.length_le he
          omega
  | cut trace hlt he =>
      cases h' with
      | whole trace' hlen' =>
          have hle := trace'.length_le he
          omega
      | cut trace' _ he' =>
          obtain ⟨hlen, rfl⟩ := he.error_unique he'
          exact ⟨(trace.unique trace' hlen).1, rfl⟩

theorem Run.exists_start (h : Run scene pictures fault) : ∃ t, start scene = .ok t := by
  cases h with
  | whole trace _ => exact trace.exists_start
  | cut trace _ _ => exact trace.exists_start

def recorded (scene : Scene) (pictures : List Frame) : Recording :=
  ⟨some scene.sinkConfig, (pictures.mapIdx Prod.mk).toArray, false⟩

theorem answers_accepted (trace : Trace scene pictures t) (r : Recording) :
    Recording.sink.Answers r (accepted scene pictures) (recorded scene pictures) := by
  induction trace with
  | start _ =>
      have hstart : Recording.sink.call (.start scene.sinkConfig) r = (.ok (), recorded scene []) := rfl
      exact Sink.Answers.nil.snoc hstart
  | step _ _ ih =>
      rw [accepted_append]
      refine ih.snoc ?_
      simp [recorded, Sink.call, Recording.sink, List.mapIdx_concat]

-- What a render reports once it has got as far as it can.
def Reports (scene : Scene) (result : Except Fault RenderStats) : Option Fault → Prop
  | none => ∃ peak, result = .ok ⟨scene.duration, peak⟩ ∧ IsGreatest (counts scene scene.duration) peak
  | some e => result = .error e

theorem exists_run (hs : start scene = .ok t) (r : Recording) :
    ∃ pictures fault, Run scene pictures fault ∧ Reports scene (scene.render Recording.sink r).1 fault ∧
      (scene.render Recording.sink r).2 = { recorded scene pictures with finished := fault.isNone } := by
  obtain ⟨calls, answers, outcome⟩ := render_outcome scene Recording.sink r
  have hok := Recording.answer_ok answers
  generalize hresult : (scene.render Recording.sink r).1 = result at outcome
  cases outcome with
  | notStarted hs' => cases hs.symm.trans hs'
  | startRefused _ => cases hok _ (List.mem_singleton_self _)
  | pushRefused _ _ | finishRefused _ _ =>
      cases hok _ (List.mem_append_right _ (List.mem_singleton_self _))
  | stepFailed trace hlt he =>
      exact ⟨_, _, .cut trace hlt he, rfl, answers.unique (answers_accepted trace r)⟩
  | @finished pictures t stats trace hlen tally =>
      have hpos : 0 < pictures.length := by
        have hduration := (scene.validate_iff_valid.mp trace.validate).duration
        omega
      have hgreatest := tally.isGreatest trace hpos
      have hframes := tally.frames
      rw [hlen] at hgreatest hframes
      have hfinish : Recording.sink.call .finish (recorded scene pictures) =
        (.ok (), { recorded scene pictures with finished := true }) := rfl
      exact ⟨pictures, none, .whole trace hlen, ⟨stats.peakParticles, hframes ▸ rfl, hgreatest⟩,
        answers.unique ((answers_accepted trace r).snoc hfinish)⟩

-- The whole render and the single frames are one and the same course of steps. With `k` pictures
-- before the first fault, the recording holds these `k`, in order, and each single frame is its
-- picture or the fault. If there is no memory for the background, neither gets as far as the first step.
theorem render_agrees_with_renderFrame (scene : Scene) (hv : scene.validate = .ok ()) (r : Recording) :
    (BackgroundFits scene → ∃ pictures fault, Run scene pictures fault) ∧
    (∀ pictures fault, Run scene pictures fault →
      (scene.render Recording.sink r).2 =
        ⟨some scene.sinkConfig, (pictures.mapIdx Prod.mk).toArray, fault.isNone⟩ ∧
      Reports scene (scene.render Recording.sink r).1 fault ∧
      (∀ i p, pictures[i]? = some p → scene.renderFrame i = .ok p) ∧
      ∀ i e, fault = some e → pictures.length ≤ i → i < scene.duration →
        scene.renderFrame i = .error e) ∧
    (¬BackgroundFits scene → scene.render Recording.sink r = (.error .aborted, r) ∧
      ∀ i < scene.duration, scene.renderFrame i = .error .aborted) := by
  refine ⟨fun hfits => ?_, fun pictures fault run' => ?_, fun hlarge => ?_⟩
  · obtain ⟨pictures, fault, run, _⟩ := exists_run (start_eq_ok_iff.mpr ⟨hv, hfits, rfl⟩) r
    exact ⟨pictures, fault, run⟩
  · obtain ⟨t, hs⟩ := run'.exists_start
    obtain ⟨all, fault', run, hreports, hrecording⟩ := exists_run hs r
    obtain ⟨rfl, rfl⟩ := run.unique run'
    refine ⟨hrecording, hreports, ?_, ?_⟩
    · intro i p hp
      have hi : i < all.length := (List.getElem?_eq_some_iff.mp hp).1
      cases run with
      | whole trace hlen => exact renderFrame_eq_ok (by omega) (trace.stepGives hp)
      | cut trace hlt _ => exact renderFrame_eq_ok (by omega) (trace.stepGives hp)
    · rintro i e rfl hle hi
      cases run with
      | cut trace hlt he => exact renderFrame_eq_error hi hle he
  · have hs : start scene = .error .aborted := start_eq_error_iff.mpr (.inr ⟨hv, hlarge, rfl⟩)
    exact ⟨Act.run_bind_error _ (Prod.ext hs rfl), fun i => renderFrame_of_start_error hs⟩

theorem render_agrees_with_renderFrame_lateBurst :
    lateBurst.validate = .ok () ∧ ∃ pictures fault, Run lateBurst pictures fault ∧
      (lateBurst.render Recording.sink {}).2.frames = (pictures.mapIdx Prod.mk).toArray ∧
      ∀ i p, pictures[i]? = some p → lateBurst.renderFrame i = .ok p := by
  obtain ⟨hexists, hall, _⟩ := render_agrees_with_renderFrame lateBurst validate_lateBurst {}
  obtain ⟨pictures, fault, run⟩ := hexists (by decide)
  obtain ⟨hrecording, _, hframes, _⟩ := hall pictures fault run
  exact ⟨validate_lateBurst, pictures, fault, run, by rw [hrecording], hframes⟩

end ParticleFx.Timeline
