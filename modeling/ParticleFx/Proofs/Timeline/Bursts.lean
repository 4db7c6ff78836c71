import ParticleFx.Proofs.Timeline.Layout
import ParticleFx.Proofs.Timeline.Outcome

namespace ParticleFx.Timeline

variable {scene : Scene} {n : Nat} {order : List Nat} {slots : List (Option SystemId)}
  {e e' : Engine} {t : Timeline} {pictures : List Frame} {fault : Fault}

-- After frame `f`: the slots, the systems behind them, and the order of the systems.
structure Scheduled (scene : Scene) (f : Nat) (t : Timeline) : Prop where
  slots_length : t.slots.length = scene.emitters.length
  slot_iff : ∀ (k : Nat) d, scene.emitters[k]? = some d →
    ((∃ id, t.slots[k]? = some (some id)) ↔ d.start ≤ f)
  distinct : ∀ (k k' : Nat) id, t.slots[k]? = some (some id) → t.slots[k']? = some (some id) → k = k'
  system : ∀ (k : Nat) d id, scene.emitters[k]? = some d → t.slots[k]? = some (some id) →
    ∃ s, t.engine.system? id = some s ∧ s.config = d.config ∧ s.emitter = scene.place d (f - d.start)
  ordered : ∃ order : List Nat, order.Pairwise (StartsBefore scene) ∧
    (∀ k, k ∈ order ↔ ∃ d, scene.emitters[k]? = some d ∧ d.start ≤ f) ∧
    t.engine.systems.map (fun (id, _) => some id) = order.map fun k => t.slots[k]?.join

theorem started_zero_iff {f k : Nat} :
    Started scene (f + 1) 0 k ↔ ∃ d, scene.emitters[k]? = some d ∧ d.start ≤ f := by
  constructor
  · rintro ⟨d, hd, hstarted⟩
    exact ⟨d, hd, by omega⟩
  · rintro ⟨d, hd, hle⟩
    exact ⟨d, hd, by omega⟩

theorem Layout.scheduled {f : Nat} (h : Layout scene (f + 1) 0 order t.slots t.engine) :
    Scheduled scene f t where
  slots_length := h.size
  slot_iff k d hd := by
    have hmem : k ∈ order ↔ d.start ≤ f := by
      rw [h.mem_iff k, started_zero_iff]
      simp [hd]
    rw [← hmem]
    constructor
    · rintro ⟨⟨j⟩, hid⟩
      exact List.mem_of_getElem? ((h.slot_iff k j).mp hid)
    · intro hk
      obtain ⟨j, hj⟩ := List.getElem?_of_mem hk
      exact ⟨⟨j⟩, (h.slot_iff k j).mpr hj⟩
  distinct k k' id hk hk' := by
    have hj := (h.slot_iff k id.number).mp hk
    rw [(h.slot_iff k' id.number).mp hk'] at hj
    exact (Option.some.inj hj).symm
  system k d id hd hk := by
    obtain ⟨s, hs, hconfig, hplace⟩ := h.exists_system ((h.slot_iff k id.number).mp hk) hd
    exact ⟨s, Engine.system?_eq h.nodup hs, hconfig, by simpa [moves] using hplace⟩
  ordered := by
    refine ⟨order, h.sorted, fun k => by rw [h.mem_iff k, started_zero_iff], ?_⟩
    have hhandles : t.engine.systems.map (fun (id, _) => some id) =
        (t.engine.systems.map Prod.fst).map some := by simp
    rw [hhandles, h.handles]
    apply List.ext_getElem?
    intro j
    by_cases hj : j < order.length
    · have hslot := (h.slot_iff _ j).mpr (List.getElem?_eq_getElem hj)
      simp [hj, hslot]
    · simp [hj]

-- The systems are those of the emitters that have started.
theorem Layout.mem_handles_iff {f : Nat} (h : Layout scene (f + 1) 0 order slots e) (id : SystemId) :
    id ∈ e.systems.map Prod.fst ↔
      ∃ (k : Nat) (d : EmitterDef), scene.emitters[k]? = some d ∧ d.start ≤ f ∧
        slots[k]? = some (some id) := by
  have hid : id ∈ e.systems.map Prod.fst ↔ id.number < order.length := by
    rw [h.handles]
    constructor
    · rintro hmem
      obtain ⟨j, hj, rfl⟩ := List.mem_map.mp hmem
      exact List.mem_range.mp hj
    · intro hlt
      exact List.mem_map.mpr ⟨id.number, List.mem_range.mpr hlt, rfl⟩
  rw [hid]
  constructor
  · intro hlt
    have hk := List.getElem?_eq_getElem hlt
    obtain ⟨d, hd, hle⟩ := started_zero_iff.mp ((h.mem_iff _).mp (List.mem_of_getElem? hk))
    exact ⟨_, d, hd, hle, (h.slot_iff _ id.number).mpr hk⟩
  · rintro ⟨k, d, _, _, hslot⟩
    exact (List.getElem?_eq_some_iff.mp ((h.slot_iff k id.number).mp hslot)).1

-- A burst finds the system of its emitter, for that has started by the frame of the burst.
theorem Layout.burst_ready (valid : scene.Valid) (h : Layout scene (n + 1) 0 order slots e)
    {b : BurstDef} (hb : b ∈ burstsOn scene n) :
    ∃ (j : Nat) (s : ParticleSystem), slots[b.emitter]? = some (some ⟨j⟩) ∧
      e.systems[j]? = some (⟨j⟩, s) := by
  obtain ⟨hmem, hframe⟩ := List.mem_filter.mp hb
  obtain ⟨d, hd, _, hstart⟩ := valid.bursts b hmem
  have hstarted : Started scene (n + 1) 0 b.emitter :=
    started_zero_iff.mpr ⟨d, hd, (of_decide_eq_true hframe) ▸ hstart⟩
  obtain ⟨j, hj⟩ := List.getElem?_of_mem ((h.mem_iff _).mpr hstarted)
  obtain ⟨s, hs, _⟩ := h.exists_system hj hd
  exact ⟨j, s, (h.slot_iff _ j).mpr hj, hs⟩

-- So it can fail in its draws, but not for want of a system.
theorem Layout.fire_notEarly (valid : scene.Valid) (h : Layout scene (n + 1) 0 order slots e)
    {b : BurstDef} (hb : b ∈ burstsOn scene n) (hfire : fire slots b e = (.error fault, e')) :
    fault.NotEarly := by
  obtain ⟨j, s, hslot, hsystem⟩ := h.burst_ready valid hb
  have hburst : Act.FailsOnly Fault.NotEarly
      (if b.radial then ParticleSystem.emitRadial b.count else ParticleSystem.emit b.count) := by
    split
    · exact ParticleSystem.failsOnly_emitRadial nofun _
    · exact ParticleSystem.failsOnly_emit nofun _
  have hjoin : slots[b.emitter]?.join = some ⟨j⟩ := by rw [hslot]; rfl
  simp only [fire, hjoin] at hfire
  rw [Act.run_bind_eq_error, Engine.onSystem_eq h.nodup hsystem] at hfire
  generalize hx : (if b.radial then ParticleSystem.emitRadial b.count else
    ParticleSystem.emit b.count) = x at hfire hburst
  rcases hr : x s with ⟨r, s'⟩
  rw [hr] at hfire
  cases r with
  | error fault' =>
      rcases hfire with hfail | ⟨_, _, hok, _⟩
      · cases hfail
        exact hburst s fault s' hr
      · cases hok
  | ok _ =>
      rcases hfire with hfail | ⟨_, _, hok, hrest⟩
      · cases hfail
      · cases hok
        cases hrest

theorem Layout.fireAll_notEarly (valid : scene.Valid) {bursts : List BurstDef}
    (h : Layout scene (n + 1) 0 order slots e) (hsub : ∀ b ∈ bursts, b ∈ burstsOn scene n)
    (hfire : Timeline.fireAll slots bursts e = (.error fault, e')) : fault.NotEarly := by
  induction bursts generalizing e with
  | nil => cases hfire
  | cons b rest ih =>
      have hb := hsub b List.mem_cons_self
      rcases Act.run_bind_eq_error.mp hfire with hfirst | ⟨_, mid, hfirst, hrest⟩
      · exact h.fire_notEarly valid hb hfirst
      · have hone : Timeline.fireAll slots [b] e = (.ok (), mid) := by
          rw [Timeline.fireAll, Act.run_bind_ok _ hfirst]
          rfl
        exact ih (h.fireAll hone) (fun b' hb' => hsub b' (List.mem_cons_of_mem _ hb')) hrest

theorem failsOnly_queueAll (scheduled : List ScheduledEffect) :
    Act.FailsOnly Fault.NotEarly (queueAll scheduled) := by
  induction scheduled with
  | nil => exact .pure ()
  | cons s rest ih => exact .bind (Engine.failsOnly_addOneShot s.effect) fun _ => ih

-- No frame of a valid scene fails because a burst comes before its emitter.
theorem StepGives.notEarly (hs : StepGives scene n (.error fault)) : fault.NotEarly := by
  obtain ⟨pictures, t, trace, rfl, herror⟩ := hs
  have valid := scene.validate_iff_valid.mp trace.validate
  obtain ⟨order, h⟩ := trace.layout
  obtain ⟨slots, e₁, order₁, hemitters, h₁, _⟩ := h.emitters valid
  rcases step_eq_error herror with ⟨_, hfail⟩ | ⟨slots', e', hok, hstages⟩
  · cases hemitters.symm.trans hfail
  obtain ⟨hslots, rfl⟩ := Prod.mk.inj (hemitters.symm.trans hok)
  obtain rfl := Except.ok.inj hslots
  rcases hstages with ⟨_, hbursts⟩ | ⟨e₂, ⟨_, hupdate⟩ | ⟨e₃, ⟨_, hqueue⟩ | ⟨e₄, e₅, hrender⟩⟩⟩
  · exact h₁.fireAll_notEarly valid (fun _ hb => hb) hbursts
  · exact Engine.failsOnly_update _ _ _ _ hupdate
  · exact failsOnly_queueAll _ _ _ _ hqueue
  · exact Engine.failsOnly_render _ _ _ _ hrender

-- A render fails so only if the sink it writes to does.
theorem render_notEarly {σ : Type} {sink : Sink σ} {s : σ} (hv : scene.validate = .ok ())
    (hsink : ∀ event u fault, (sink.call event u).1 = .error fault → fault.NotEarly)
    (herror : (scene.render sink s).1 = .error fault) : fault.NotEarly := by
  obtain ⟨calls, answers, outcome⟩ := render_outcome scene sink s
  rw [herror] at outcome
  have hrefused {event : Sink.Event} (hmem : (event, .error fault) ∈ calls) : fault.NotEarly := by
    obtain ⟨u, hu⟩ := answers.exists_call hmem
    exact hsink event u fault hu
  cases outcome with
  | notStarted hs =>
      rw [(of_start_error hv hs).2]
      exact nofun
  | stepFailed _ _ hs => exact hs.notEarly
  | startRefused _ => exact hrefused (List.mem_singleton_self _)
  | pushRefused _ _ | finishRefused _ _ =>
      exact hrefused (List.mem_append_right _ (List.mem_singleton_self _))

-- Slots, systems and emitters keep to the schedule of a valid scene. On the frame of a burst, after
-- the emitters and the bursts before it, its slot is filled and its system is there.
theorem timeline_keeps_schedule (scene : Scene) (hv : scene.validate = .ok ()) :
    (∀ f pictures t, Trace scene pictures t → pictures.length = f + 1 → Scheduled scene f t) ∧
    (∀ pictures t, Trace scene pictures t → ∀ slots e₁ e₂ fired b rest,
      stepEmitters scene.fps.frameSeconds pictures.length scene.emitters t.slots t.engine =
        (.ok slots, e₁) →
      burstsOn scene pictures.length = fired ++ b :: rest →
      fireAll slots fired e₁ = (.ok (), e₂) →
      ∃ id s, slots[b.emitter]? = some (some id) ∧ e₂.system? id = some s) ∧
    (∀ n frame emitter, ¬StepGives scene n (.error (.burstTooEarly frame emitter))) ∧
    (∀ i < scene.duration, ∀ frame emitter,
      scene.renderFrame i ≠ .error (.burstTooEarly frame emitter)) ∧
    ∀ (σ : Type) (sink : Sink σ) s,
      (∀ event u frame emitter, (sink.call event u).1 ≠ .error (.burstTooEarly frame emitter)) →
      ∀ frame emitter, (scene.render sink s).1 ≠ .error (.burstTooEarly frame emitter) := by
  have valid := scene.validate_iff_valid.mp hv
  have hstep (n frame emitter : Nat) : ¬StepGives scene n (.error (.burstTooEarly frame emitter)) :=
    fun hs => hs.notEarly frame emitter rfl
  refine ⟨?_, ?_, hstep, ?_, ?_⟩
  · intro f pictures t trace hlen
    obtain ⟨order, h⟩ := trace.layout
    rw [hlen] at h
    exact h.scheduled
  · intro pictures t trace slots e₁ e₂ fired b rest hemitters hbursts hfired
    obtain ⟨order, h⟩ := trace.layout
    obtain ⟨slots', e', order', hrun, h', _⟩ := h.emitters valid
    rw [hemitters, Prod.mk.injEq, Except.ok.injEq] at hrun
    obtain ⟨rfl, rfl⟩ := hrun
    have hb : b ∈ burstsOn scene pictures.length := by
      rw [hbursts]
      simp
    have h₂ := h'.fireAll hfired
    obtain ⟨j, s, hslot, hsystem⟩ := h₂.burst_ready valid hb
    exact ⟨⟨j⟩, s, hslot, Engine.system?_eq h₂.nodup hsystem⟩
  · intro i hi frame emitter herror
    cases hstart : start scene with
    | error e =>
        obtain ⟨_, rfl⟩ := of_start_error hv hstart
        cases (renderFrame_of_start_error hstart hi).symm.trans herror
    | ok t =>
        rcases renderFrame_cases hstart hi with ⟨p, hok, _⟩ | ⟨e, n, hfail, _, hs⟩
        · cases hok.symm.trans herror
        · obtain rfl : e = .burstTooEarly frame emitter := Except.error.inj (hfail.symm.trans herror)
          exact hstep n frame emitter hs
  · intro σ sink s hsink frame emitter herror
    have hnot : ∀ event u fault, (sink.call event u).1 = .error fault → fault.NotEarly := by
      rintro event u _ hcall frame emitter rfl
      exact hsink event u frame emitter hcall
    exact render_notEarly hv hnot herror frame emitter rfl

theorem timeline_keeps_schedule_lateBurst :
    lateBurst.validate = .ok () ∧
    ∃ pictures t, Trace lateBurst pictures t ∧ pictures.length = 2 ∧ Scheduled lateBurst 1 t := by
  obtain ⟨p, hs⟩ := exists_stepGives_lateBurst
  obtain ⟨pictures, t, trace, hlen⟩ := hs.exists_trace
  have hlength : (pictures ++ [p]).length = 1 + 1 := by simp [hlen]
  have hschedule := (timeline_keeps_schedule lateBurst validate_lateBurst).1 1 _ t trace hlength
  exact ⟨validate_lateBurst, _, t, trace, hlength, hschedule⟩

end ParticleFx.Timeline
