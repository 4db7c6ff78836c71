import ParticleFx.Proofs.Timeline.Outcome

namespace ParticleFx.Timeline

variable {σ : Type} {scene : Scene} {pictures : List Frame} {t : Timeline} {calls : Sink.Log}
  {result : Except Fault RenderStats} {e : Fault}

-- The calls of a whole render: the start, every frame in order, and the end.
def script (scene : Scene) (frames : Nat → Frame) : List Sink.Event :=
  .start scene.sinkConfig :: (List.range scene.duration).map (fun i => .push i (frames i)) ++ [.finish]

-- The calls of a render, and what it returns, as a sink may rely on them.
structure Protocol (scene : Scene) (calls : Sink.Log) (result : Except Fault RenderStats) : Prop where
  scripted : ∃ frames, calls.map Prod.fst <+: script scene frames
  shown : ∀ i frame, .push i frame ∈ calls.map Prod.fst → StepGives scene i (.ok frame)
  silent : ∀ e, scene.validate = .error e → calls = [] ∧ result = .error e
  -- a background that does not fit is found out before the first call
  unmade : scene.validate = .ok () → ¬BackgroundFits scene → calls = [] ∧ result = .error .aborted
  -- no call follows one that failed
  answered : ∀ call ∈ calls.dropLast, call.2 = .ok ()
  -- the start and the frames before it are all that comes before a frame that fails
  halted : ∀ n < scene.duration, ∀ e, StepGives scene n (.error e) → calls.length ≤ n + 1
  finish : ∀ r, (.finish, r) ∈ calls →
    ∃ pictures, pictures.length = scene.duration ∧ calls = accepted scene pictures ++ [(.finish, r)]
  ok_iff : (∃ stats, result = .ok stats) ↔
    (∃ frames, calls.map Prod.fst = script scene frames) ∧ ∀ call ∈ calls, call.2 = .ok ()
  -- the scene is not valid or its background does not fit, or the last call failed, or all went well up to a
  -- frame that fails
  error : ∀ e, result = .error e →
    scene.validate = .error e ∨ (¬BackgroundFits scene ∧ e = .aborted) ∨
    (∃ event, calls.getLast? = some (event, .error e)) ∨
    (∀ call ∈ calls, call.2 = .ok ()) ∧
      ∃ n < scene.duration, calls.length = n + 1 ∧ StepGives scene n (.error e)

theorem finish_notMem_offered : .finish ∉ offered scene pictures := by
  intro h
  rcases List.mem_cons.mp h with h | h
  · cases h
  · obtain ⟨i, hi, h⟩ := List.mem_mapIdx.mp h
    cases h

-- The pictures of the script are those of the list, and past its end they do not matter.
theorem offered_eq : offered scene pictures = .start scene.sinkConfig ::
    (List.range pictures.length).map fun i => .push i (pictures.getD i (.blank 0 0)) := by
  rw [offered]
  congr 1
  apply List.ext_getElem
  · simp
  · intro i h _
    simp at h
    simp [h]

theorem exists_offered_isPrefix (hle : pictures.length ≤ scene.duration) :
    ∃ frames, offered scene pictures <+: script scene frames := by
  have htake : List.range pictures.length = (List.range scene.duration).take pictures.length := by
    rw [List.take_range, Nat.min_eq_left hle]
  have hrange : List.range pictures.length <+: List.range scene.duration :=
    htake ▸ List.take_prefix _ _
  refine ⟨fun i => pictures.getD i (.blank 0 0), ?_⟩
  rw [offered_eq, script, List.cons_append]
  exact (List.prefix_cons_inj _).mpr ((hrange.map _).trans (List.prefix_append _ _))

theorem exists_offered_finish_eq (hlen : pictures.length = scene.duration) :
    ∃ frames, offered scene pictures ++ [.finish] = script scene frames := by
  refine ⟨fun i => pictures.getD i (.blank 0 0), ?_⟩
  rw [offered_eq, script, hlen]

namespace Outcome

theorem scripted (h : Outcome scene calls result) :
    ∃ frames, calls.map Prod.fst <+: script scene frames := by
  cases h with
  | notStarted _ => exact ⟨fun _ => .blank 0 0, List.nil_prefix⟩
  | startRefused _ => exact ⟨fun _ => .blank 0 0, _, rfl⟩
  | stepFailed trace hlt _ => simpa using exists_offered_isPrefix (Nat.le_of_lt hlt)
  | @pushRefused pictures picture t e trace hlt =>
      have hle : (pictures ++ [picture]).length ≤ scene.duration := by simp; omega
      simpa [offered_append] using exists_offered_isPrefix hle
  | finishRefused _ hlen | finished _ hlen _ =>
      obtain ⟨frames, heq⟩ := exists_offered_finish_eq hlen
      refine ⟨frames, ?_⟩
      rw [List.map_append, map_fst_accepted]
      exact heq ▸ List.prefix_refl _

theorem answered (h : Outcome scene calls result) : ∀ call ∈ calls.dropLast, call.2 = .ok () := by
  cases h with
  | notStarted _ => simp
  | startRefused _ => simp
  | stepFailed trace hlt _ =>
      intro call hmem
      exact ok_of_mem_accepted (List.dropLast_subset _ hmem)
  | pushRefused _ _ | finishRefused _ _ | finished _ _ _ =>
      intro call hmem
      rw [List.dropLast_concat] at hmem
      exact ok_of_mem_accepted hmem

theorem shown (h : Outcome scene calls result) {i : Nat} {frame : Frame}
    (hmem : .push i frame ∈ calls.map Prod.fst) : StepGives scene i (.ok frame) := by
  have hoffered {pictures : List Frame} {t : Timeline} (trace : Trace scene pictures t)
      (hmem : .push i frame ∈ offered scene pictures) : StepGives scene i (.ok frame) := by
    rcases List.mem_cons.mp hmem with hstart | hpush
    · cases hstart
    · obtain ⟨j, hj, heq⟩ := List.mem_mapIdx.mp hpush
      obtain ⟨rfl, rfl⟩ := Sink.Event.push.inj heq
      exact trace.stepGives (List.getElem?_eq_getElem hj)
  cases h with
  | notStarted _ => simp at hmem
  | startRefused _ => simp at hmem
  | stepFailed trace _ _ => exact hoffered trace (by simpa using hmem)
  | pushRefused trace _ => exact hoffered trace (by simpa [offered_append] using hmem)
  | finishRefused trace _ | finished trace _ _ => exact hoffered trace (by simpa using hmem)

theorem silent (h : Outcome scene calls result) (hs : Timeline.start scene = .error e) :
    calls = [] ∧ result = .error e := by
  have hnone {pictures : List Frame} {t : Timeline} (trace : Trace scene pictures t) : False := by
    obtain ⟨_, hs'⟩ := trace.exists_start
    cases hs.symm.trans hs'
  cases h with
  | notStarted hs' => exact ⟨rfl, by rw [Except.error.inj (hs.symm.trans hs')]⟩
  | startRefused hs' => cases hs.symm.trans hs'
  | stepFailed trace _ _ => exact (hnone trace).elim
  | pushRefused trace _ => exact (hnone trace).elim
  | finishRefused trace _ => exact (hnone trace).elim
  | finished trace _ _ => exact (hnone trace).elim

theorem halted (h : Outcome scene calls result) {n : Nat} (hn : n < scene.duration)
    (he : StepGives scene n (.error e)) : calls.length ≤ n + 1 := by
  cases h with
  | notStarted _ => simp
  | startRefused _ => simp
  | stepFailed trace _ _ => simpa using trace.length_le he
  | pushRefused trace _ => simpa using trace.length_le he
  | finishRefused trace hlen | finished trace hlen _ =>
      have hle := trace.length_le he
      omega

theorem finish (h : Outcome scene calls result) {r : Except Fault Unit} (hmem : (.finish, r) ∈ calls) :
    ∃ pictures, pictures.length = scene.duration ∧
      calls = accepted scene pictures ++ [(.finish, r)] := by
  have hnot {pictures : List Frame} : (.finish, r) ∉ accepted scene pictures := fun hm =>
    finish_notMem_offered (map_fst_accepted ▸ List.mem_map_of_mem hm)
  cases h with
  | notStarted _ => simp at hmem
  | startRefused _ => simp at hmem
  | stepFailed _ _ _ => exact (hnot hmem).elim
  | pushRefused _ _ =>
      rcases List.mem_append.mp hmem with hm | hm
      · exact (hnot hm).elim
      · simp at hm
  | finishRefused _ hlen | finished _ hlen _ =>
      rcases List.mem_append.mp hmem with hm | hm
      · exact (hnot hm).elim
      · obtain ⟨-, rfl⟩ := Prod.mk.inj (List.mem_singleton.mp hm)
        exact ⟨_, hlen, rfl⟩

-- A script ends with a call of its own, which is refused or missing whenever something has failed.
theorem ok_iff (h : Outcome scene calls result) : (∃ stats, result = .ok stats) ↔
    (∃ frames, calls.map Prod.fst = script scene frames) ∧ ∀ call ∈ calls, call.2 = .ok () := by
  constructor
  · rintro ⟨stats, rfl⟩
    cases h with
    | finished trace hlen tally =>
        refine ⟨by simpa using exists_offered_finish_eq hlen, fun call hmem => ?_⟩
        rcases List.mem_append.mp hmem with hm | hm
        · exact ok_of_mem_accepted hm
        · rw [List.mem_singleton.mp hm]
  · rintro ⟨⟨frames, hscript⟩, hok⟩
    have hfinish : .finish ∈ calls.map Prod.fst := by simp [hscript, script]
    cases h with
    | notStarted _ => simp at hfinish
    | startRefused _ => simp at hfinish
    | stepFailed _ _ _ => exact (finish_notMem_offered (by simpa using hfinish)).elim
    | pushRefused _ _ | finishRefused _ _ =>
        have hlast := hok _ (List.mem_append_right _ (List.mem_singleton_self _))
        cases hlast
    | finished _ _ _ => exact ⟨_, rfl⟩

theorem error (h : Outcome scene calls (.error e)) :
    scene.validate = .error e ∨ (¬BackgroundFits scene ∧ e = .aborted) ∨
    (∃ event, calls.getLast? = some (event, .error e)) ∨
    (∀ call ∈ calls, call.2 = .ok ()) ∧
      ∃ n < scene.duration, calls.length = n + 1 ∧ StepGives scene n (.error e) := by
  cases h with
  | notStarted hs =>
      rcases start_eq_error_iff.mp hs with hv | ⟨_, hlarge⟩
      · exact .inl hv
      · exact .inr (.inl hlarge)
  | startRefused _ => exact .inr (.inr (.inl ⟨_, rfl⟩))
  | stepFailed _ hlt he =>
      exact .inr (.inr (.inr ⟨fun _ => ok_of_mem_accepted, _, hlt, length_accepted, he⟩))
  | pushRefused _ _ | finishRefused _ _ => exact .inr (.inr (.inl ⟨_, List.getLast?_concat⟩))

theorem protocol (h : Outcome scene calls result) : Protocol scene calls result where
  scripted := h.scripted
  shown _ _ := h.shown
  silent _ hv := h.silent (start_eq_error_iff.mpr (.inl hv))
  unmade hv hlarge := h.silent (start_eq_error_iff.mpr (.inr ⟨hv, hlarge, rfl⟩))
  answered := h.answered
  halted _ hn _ := h.halted hn
  finish _ := h.finish
  ok_iff := h.ok_iff
  error _ he := (he ▸ h).error

end Outcome

theorem mirrors_renderFrom (scene : Scene) (sink : Sink σ) (left frame : Nat) (t : Timeline)
    (stats : RenderStats) :
    Act.Mirrors Prod.fst (scene.renderFrom sink.logged left frame t stats)
      (scene.renderFrom sink left frame t stats) := by
  induction left generalizing frame t stats with
  | zero => exact .pure stats
  | succ left ih =>
      refine .bind (.check _) fun picture => .bind (Sink.mirrors_note (.push frame picture)) fun _ => ?_
      exact ih _ _ _

-- Writing the calls down changes neither what a render returns nor what it does to the sink.
theorem mirrors_render (scene : Scene) (sink : Sink σ) :
    Act.Mirrors Prod.fst (scene.render sink.logged) (scene.render sink) := by
  refine .bind (.check _) fun t => .bind (Sink.mirrors_note (.start _)) fun _ => ?_
  refine .bind (mirrors_renderFrom scene sink _ _ t _) fun stats => ?_
  exact .bind (Sink.mirrors_note .finish) fun _ => .pure stats

-- Whatever the sink does, the calls it gets and what the render returns follow the protocol.
theorem render_follows_protocol (scene : Scene) (sink : Sink σ) (s : σ) :
    ∃ calls, scene.render sink.logged (s, []) =
        ((scene.render sink s).1, (scene.render sink s).2, calls) ∧
      Protocol scene calls (scene.render sink s).1 := by
  obtain ⟨calls, answers, outcome⟩ := render_outcome scene sink.logged (s, [])
  have hmirror := mirrors_render scene sink (s, [])
  rcases hrun : scene.render sink.logged (s, []) with ⟨r, u, log⟩
  rw [hrun] at answers outcome hmirror
  have hlog : log = calls := by simpa using answers.log_eq
  have hplain : scene.render sink s = (r, u) := hmirror
  rw [hplain]
  exact ⟨calls, by rw [hlog], outcome.protocol⟩

end ParticleFx.Timeline
