import Mathlib.Order.Bounds.Basic
import ParticleFx.Proofs.Sink.Log
import ParticleFx.Proofs.Timeline.Trace

namespace ParticleFx.Timeline

variable {σ : Type} {scene : Scene} {pictures : List Frame} {picture : Frame} {t u : Timeline}
  {stats : RenderStats} {sink : Sink σ} {s₀ s : σ} {e : Fault}

-- How many particles there are after each of the first `n` frames.
def counts (scene : Scene) (n : Nat) : Set Nat :=
  { c | ∃ pictures t, Trace scene pictures t ∧ 0 < pictures.length ∧ pictures.length ≤ n ∧
    t.engine.particleCount = c }

theorem counts_zero : counts scene 0 = ∅ := by
  ext c
  simp only [counts, Set.mem_ofPred_eq, Set.mem_empty_iff_false, iff_false]
  rintro ⟨pictures, t, _, hpos, hle, _⟩
  omega

-- One more frame adds its own count and no other, since it can only be played in one way.
theorem counts_succ (h : Trace scene (pictures ++ [picture]) u) :
    counts scene (pictures.length + 1) =
      insert u.engine.particleCount (counts scene pictures.length) := by
  ext c
  constructor
  · rintro ⟨seen, v, trace, hpos, hle, rfl⟩
    by_cases hlast : seen.length = pictures.length + 1
    · obtain ⟨-, rfl⟩ := trace.unique h (by simpa using hlast)
      exact .inl rfl
    · exact .inr ⟨seen, v, trace, hpos, by omega, rfl⟩
  · rintro (rfl | ⟨seen, v, trace, hpos, hle, rfl⟩)
    · exact ⟨_, u, h, by simp, by simp, rfl⟩
    · exact ⟨seen, v, trace, hpos, by omega, rfl⟩

-- The statistics of the first `n` frames. A peak of nothing is zero.
structure Tally (scene : Scene) (n : Nat) (stats : RenderStats) : Prop where
  frames : stats.frames = n
  peak : IsGreatest (insert 0 (counts scene n)) stats.peakParticles

theorem Tally.zero : Tally scene 0 {} where
  frames := rfl
  peak := by simp [counts_zero]

theorem Tally.count (h : Tally scene pictures.length stats)
    (trace : Trace scene (pictures ++ [picture]) u) :
    Tally scene (pictures.length + 1) (stats.count u.engine.particleCount) where
  frames := by simp [RenderStats.count, h.frames]
  peak := by
    have hpeak := h.peak.insert u.engine.particleCount
    rw [counts_succ trace, Set.insert_comm, RenderStats.count, max_comm]
    exact hpeak

-- Once a frame has been counted, the peak is one of the counts.
theorem Tally.isGreatest (h : Tally scene pictures.length stats) (trace : Trace scene pictures t)
    (hpos : 0 < pictures.length) : IsGreatest (counts scene pictures.length) stats.peakParticles := by
  have hbound := h.peak.2
  have hlast : t.engine.particleCount ∈ counts scene pictures.length :=
    ⟨pictures, t, trace, hpos, Nat.le_refl _, rfl⟩
  refine ⟨?_, fun c hc => hbound (Set.mem_insert_of_mem 0 hc)⟩
  rcases h.peak.1 with hzero | hmem
  · have hle := hbound (Set.mem_insert_of_mem 0 hlast)
    rwa [show stats.peakParticles = t.engine.particleCount by omega]
  · exact hmem

-- The start and the pictures in order, as a sink is called with them.
def offered (scene : Scene) (pictures : List Frame) : List Sink.Event :=
  .start scene.sinkConfig :: pictures.mapIdx .push

-- The calls of a sink that has refused none of them.
def accepted (scene : Scene) (pictures : List Frame) : Sink.Log :=
  (offered scene pictures).map fun event => (event, .ok ())

theorem offered_append : offered scene (pictures ++ [picture]) =
    offered scene pictures ++ [.push pictures.length picture] := by
  simp [offered, List.mapIdx_concat]

theorem accepted_append : accepted scene (pictures ++ [picture]) =
    accepted scene pictures ++ [(.push pictures.length picture, .ok ())] := by
  simp [accepted, offered_append]

@[simp] theorem length_accepted : (accepted scene pictures).length = pictures.length + 1 := by
  simp [accepted, offered]

@[simp] theorem map_fst_accepted : (accepted scene pictures).map Prod.fst = offered scene pictures := by
  simp [accepted, Function.comp_def]

theorem ok_of_mem_accepted {call : Sink.Event × Except Fault Unit}
    (h : call ∈ accepted scene pictures) : call.2 = .ok () := by
  obtain ⟨event, _, rfl⟩ := List.mem_map.mp h
  rfl

-- Everything that a render can come to, with the calls it has made by then.
inductive Outcome (scene : Scene) : Sink.Log → Except Fault RenderStats → Prop
  | notStarted {e : Fault} (h : Timeline.start scene = .error e) : Outcome scene [] (.error e)
  | startRefused {t : Timeline} {e : Fault} (h : Timeline.start scene = .ok t) :
      Outcome scene [(.start scene.sinkConfig, .error e)] (.error e)
  | stepFailed {pictures : List Frame} {t : Timeline} {e : Fault} (trace : Trace scene pictures t)
      (hlt : pictures.length < scene.duration) (h : StepGives scene pictures.length (.error e)) :
      Outcome scene (accepted scene pictures) (.error e)
  | pushRefused {pictures : List Frame} {picture : Frame} {t : Timeline} {e : Fault}
      (trace : Trace scene (pictures ++ [picture]) t) (hlt : pictures.length < scene.duration) :
      Outcome scene (accepted scene pictures ++ [(.push pictures.length picture, .error e)]) (.error e)
  | finishRefused {pictures : List Frame} {t : Timeline} {e : Fault} (trace : Trace scene pictures t)
      (hlen : pictures.length = scene.duration) :
      Outcome scene (accepted scene pictures ++ [(.finish, .error e)]) (.error e)
  | finished {pictures : List Frame} {t : Timeline} {stats : RenderStats}
      (trace : Trace scene pictures t) (hlen : pictures.length = scene.duration)
      (tally : Tally scene pictures.length stats) :
      Outcome scene (accepted scene pictures ++ [(.finish, .ok ())]) (.ok stats)

-- A loop over the frames that are left ends with all of them accepted or with the first failure.
-- The invariant ties the sink, the statistics and the timeline to the pictures so far.
theorem renderFrom_cases (left : Nat) (trace : Trace scene pictures t)
    (tally : Tally scene pictures.length stats)
    (answers : sink.Answers s₀ (accepted scene pictures) s)
    (hlen : pictures.length + left = scene.duration) :
    (∃ all t' stats' s', scene.renderFrom sink left pictures.length t stats s = (.ok stats', s') ∧
      Trace scene all t' ∧ all.length = scene.duration ∧ Tally scene all.length stats' ∧
      sink.Answers s₀ (accepted scene all) s') ∨
    ∃ e calls s', scene.renderFrom sink left pictures.length t stats s = (.error e, s') ∧
      sink.Answers s₀ calls s' ∧ Outcome scene calls (.error e) := by
  induction left generalizing pictures t stats s with
  | zero => exact .inl ⟨pictures, t, stats, s, rfl, trace, hlen, tally, answers⟩
  | succ left ih =>
      have hlt : pictures.length < scene.duration := by omega
      rcases hs : Timeline.step scene pictures.length t with ⟨r, u⟩
      cases r with
      | error e =>
          have hgives : StepGives scene pictures.length (.error e) :=
            ⟨pictures, t, trace, rfl, by rw [hs]⟩
          refine .inr ⟨e, _, s, ?_, answers, .stepFailed trace hlt hgives⟩
          simp only [Scene.renderFrom, hs]
          exact Act.run_bind_error _ rfl
      | ok picture =>
          have longer := trace.step hs
          have hpush : scene.renderFrom sink (left + 1) pictures.length t stats =
              (do
                sink.push pictures.length picture
                scene.renderFrom sink left (pictures.length + 1) u
                  (stats.count u.engine.particleCount)) := by
            simp only [Scene.renderFrom, hs]
            rfl
          rw [hpush]
          rcases hr : sink.push pictures.length picture s with ⟨r, v⟩
          have answers' : sink.Answers s₀
              (accepted scene pictures ++ [(.push pictures.length picture, r)]) v := answers.snoc hr
          cases r with
          | error e => exact .inr ⟨e, _, v, Act.run_bind_error _ hr, answers', .pushRefused longer hlt⟩
          | ok _ =>
              have hnext : (pictures ++ [picture]).length = pictures.length + 1 := by simp
              rw [← accepted_append] at answers'
              rw [Act.run_bind_ok _ hr, ← hnext]
              exact ih longer (hnext ▸ tally.count longer) answers' (by omega)

-- What is left of a render once the sink has been started.
theorem started_outcome (ht : Timeline.start scene = .ok t)
    (answers : sink.Answers s₀ (accepted scene []) s) :
    ∃ calls result s', (do
        let stats ← scene.renderFrom sink scene.duration 0 t {}
        sink.finish
        return stats : Act σ RenderStats) s = (result, s') ∧
      sink.Answers s₀ calls s' ∧ Outcome scene calls result := by
  rcases renderFrom_cases scene.duration (.start ht) .zero answers (by simp) with
    ⟨all, t', stats, w, hloop, trace, hlen, tally, answers⟩ | ⟨e, calls, w, hloop, answers, h⟩
  · rw [List.length_nil] at hloop
    rw [Act.run_bind_ok _ hloop]
    rcases hfinish : sink.finish w with ⟨r, x⟩
    have answers' : sink.Answers s₀ (accepted scene all ++ [(.finish, r)]) x := answers.snoc hfinish
    cases r with
    | error e => exact ⟨_, _, x, Act.run_bind_error _ hfinish, answers', .finishRefused trace hlen⟩
    | ok _ => exact ⟨_, _, x, Act.run_bind_ok _ hfinish, answers', .finished trace hlen tally⟩
  · rw [List.length_nil] at hloop
    exact ⟨calls, _, w, Act.run_bind_error _ hloop, answers, h⟩

-- Whatever the sink, a render comes to one of the outcomes, with these very calls.
theorem render_outcome (scene : Scene) (sink : Sink σ) (s : σ) :
    ∃ calls, sink.Answers s calls (scene.render sink s).2 ∧
      Outcome scene calls (scene.render sink s).1 := by
  cases ht : Timeline.start scene with
  | error e =>
      have hrun : scene.render sink s = (.error e, s) := Act.run_bind_error _ (Prod.ext ht rfl)
      rw [hrun]
      exact ⟨[], .nil, .notStarted ht⟩
  | ok t =>
      have hrun : scene.render sink s = (do
          sink.start scene.sinkConfig
          let stats ← scene.renderFrom sink scene.duration 0 t {}
          sink.finish
          return stats : Act σ RenderStats) s := by
        simp only [Scene.render, ht]
        rfl
      rcases hstart : sink.start scene.sinkConfig s with ⟨r, v⟩
      have answers : sink.Answers s [(.start scene.sinkConfig, r)] v := Sink.Answers.nil.snoc hstart
      cases r with
      | error e =>
          rw [hrun, Act.run_bind_error _ hstart]
          exact ⟨_, answers, .startRefused ht⟩
      | ok _ =>
          obtain ⟨calls, result, w, hrest, answers', h⟩ := started_outcome ht answers
          rw [hrun, Act.run_bind_ok _ hstart, hrest]
          exact ⟨calls, answers', h⟩

end ParticleFx.Timeline
