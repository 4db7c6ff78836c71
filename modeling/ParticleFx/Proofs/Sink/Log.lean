import ParticleFx.Proofs.Action
import ParticleFx.Sink

namespace ParticleFx.Sink

variable {σ : Type} {sink : Sink σ} {s u v : σ}

-- A call with everything the sink is given by it.
inductive Event where
  | start (config : SinkConfig)
  | push (index : Nat) (frame : Frame)
  | finish
deriving DecidableEq

-- Calls in the order they are made, each with its answer.
abbrev Log := List (Event × Except Fault Unit)

def call (sink : Sink σ) : Event → Act σ Unit
  | .start config => sink.start config
  | .push index frame => sink.push index frame
  | .finish => sink.finish

-- Called as the log says, the sink answers as the log says and goes from one state to the other.
inductive Answers (sink : Sink σ) (s : σ) : Log → σ → Prop
  | nil : Answers sink s [] s
  | snoc {log : Log} {u v : σ} {event : Event} {r : Except Fault Unit} (before : Answers sink s log u)
      (h : sink.call event u = (r, v)) : Answers sink s (log ++ [(event, r)]) v

-- A call that writes itself and its answer down after it has been made.
def note (sink : Sink σ) (event : Event) : Act (σ × Log) Unit := fun (s, log) =>
  let (r, s) := sink.call event s
  (r, s, log ++ [(event, r)])

def logged (sink : Sink σ) : Sink (σ × Log) where
  start config := sink.note (.start config)
  push index frame := sink.note (.push index frame)
  finish := sink.note .finish

theorem call_logged (event : Event) : sink.logged.call event = sink.note event := by
  cases event <;> rfl

theorem mirrors_note (event : Event) : Act.Mirrors Prod.fst (sink.note event) (sink.call event) :=
  fun _ => rfl

-- What stands in the log is what the sink was called with.
theorem Answers.log_eq {log log' calls : Log} (h : Answers sink.logged (s, log) calls (u, log')) :
    log' = log ++ calls := by
  generalize hend : (u, log') = state at h
  induction h generalizing u log' with
  | nil =>
      cases hend
      simp
  | @snoc calls mid _ event r before hcall ih =>
      subst hend
      obtain ⟨s', log''⟩ := mid
      have hlog : log'' = log ++ calls := ih rfl
      simp only [call_logged, note, Prod.mk.injEq] at hcall
      obtain ⟨rfl, _, rfl⟩ := hcall
      rw [hlog, List.append_assoc]

theorem Answers.unique {log : Log} (h : Answers sink s log u) (h' : Answers sink s log v) : u = v := by
  generalize hlog : log = log' at h'
  induction h generalizing log' v with
  | nil =>
      cases h' with
      | nil => rfl
      | snoc _ _ => simp at hlog
  | snoc before hcall ih =>
      cases h' with
      | nil => simp at hlog
      | snoc before' hcall' =>
          obtain ⟨rfl, hlast⟩ := List.append_inj' hlog rfl
          obtain ⟨rfl, rfl⟩ := Prod.mk.inj (List.singleton_inj.mp hlast)
          obtain rfl := ih _ rfl before'
          exact (Prod.mk.inj (hcall.symm.trans hcall')).2

theorem Answers.exists_last {log : Log} {event : Event} {r : Except Fault Unit}
    (h : Answers sink s (log ++ [(event, r)]) u) :
    ∃ mid, Answers sink s log mid ∧ sink.call event mid = (r, u) := by
  generalize hlog : log ++ [(event, r)] = log' at h
  cases h with
  | nil => simp at hlog
  | snoc before hcall =>
      obtain ⟨rfl, hlast⟩ := List.append_inj' hlog rfl
      obtain ⟨rfl, rfl⟩ := Prod.mk.inj (List.singleton_inj.mp hlast)
      exact ⟨_, before, hcall⟩

theorem Answers.exists_call {log : Log} (h : Answers sink s log u) {event : Event}
    {r : Except Fault Unit} (hmem : (event, r) ∈ log) : ∃ v, (sink.call event v).1 = r := by
  induction h with
  | nil => simp at hmem
  | @snoc log mid last event' r' before hcall ih =>
      rcases List.mem_append.mp hmem with hold | hnew
      · exact ih hold
      · obtain ⟨rfl, rfl⟩ := Prod.mk.inj (List.mem_singleton.mp hnew)
        exact ⟨mid, by rw [hcall]⟩

end ParticleFx.Sink

namespace ParticleFx.Recording

-- A sink in memory refuses nothing.
theorem answer_ok {r r' : Recording} {calls : Sink.Log} (h : sink.Answers r calls r') :
    ∀ call ∈ calls, call.2 = .ok () := by
  rintro ⟨event, answer⟩ hmem
  obtain ⟨v, rfl⟩ := h.exists_call hmem
  cases event <;> rfl

end ParticleFx.Recording
