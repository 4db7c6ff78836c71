import Mathlib.Data.List.Induction
import ParticleFx.Proofs.Sink.Session

namespace ParticleFx.Encoder

open Sink (Event Log)

variable {o : EncoderOptions} {past : List EncoderRun} {log earlier later : Log} {s : Studio}
  {call x : Event × Except Fault Unit}

-- The last call is the one that is singled out, or comes somewhere after it.
theorem eq_or_exists_of_concat_eq (h : log ++ [call] = earlier ++ x :: later) :
    later = [] ∧ call = x ∧ log = earlier ∨
    ∃ later', later = later' ++ [call] ∧ log = earlier ++ x :: later' := by
  rcases List.eq_nil_or_concat later with rfl | ⟨later', last, hlater⟩
  · obtain ⟨hlog, hlast⟩ := List.append_inj' h rfl
    exact .inl ⟨rfl, List.singleton_inj.mp hlast, hlog⟩
  · rw [List.concat_eq_append] at hlater
    subst hlater
    rw [← List.cons_append, ← List.append_assoc] at h
    obtain ⟨hlog, hlast⟩ := List.append_inj' h rfl
    obtain rfl := List.singleton_inj.mp hlast
    exact .inr ⟨later', rfl, hlog⟩

-- A chapter is a stretch of the log, and the chapters after it are those of the log before it.
theorem exists_of_chapters_eq {c : Chapter} {rest : List Chapter} (h : chapters log = c :: rest) :
    ∃ before, log = before ++ (.start c.config, .ok ()) :: c.calls ∧ chapters before = rest := by
  induction log using List.reverseRecOn generalizing c with
  | nil => cases h
  | append_singleton log call ih =>
      by_cases hcall : ∃ config, call = (.start config, .ok ())
      · obtain ⟨config, rfl⟩ := hcall
        rw [chapters_concat_start] at h
        obtain ⟨rfl, hrest⟩ := List.cons.inj h
        exact ⟨log, rfl, hrest⟩
      · rw [chapters_concat_of_ne fun config heq => hcall ⟨config, heq⟩] at h
        cases hlog : chapters log with
        | nil =>
            rw [hlog] at h
            cases h
        | cons c' rest' =>
            rw [hlog, List.modifyHead_cons] at h
            obtain ⟨rfl, rfl⟩ := List.cons.inj h
            obtain ⟨before, rfl, hrest⟩ := ih hlog
            exact ⟨before, by simp [Chapter.add], hrest⟩

theorem Current.exists_start {c : Chapter} (h : Current log c) :
    ∃ before, log = before ++ (.start c.config, .ok ()) :: c.calls ∧
      ∀ call ∈ c.calls, call.1 ≠ .finish := by
  obtain ⟨rest, hchapters⟩ := List.head?_eq_some_iff.mp h.1
  obtain ⟨before, hlog, _⟩ := exists_of_chapters_eq hchapters
  refine ⟨before, hlog, ?_⟩
  rintro ⟨event, r⟩ hmem rfl
  exact h.2 ⟨r, hmem⟩

namespace Session

-- Every call of a session was made in the session of the calls before it.
theorem exists_before {event : Event} {r : Except Fault Unit} (h : Session o past log s)
    (hlog : log = earlier ++ (event, r) :: later) :
    ∃ u v, Session o past earlier u ∧ (sink o).call event u = (r, v) := by
  induction h generalizing later with
  | fresh _ _ => simp at hlog
  | @call log u v _ _ before hcall ih =>
      rcases eq_or_exists_of_concat_eq hlog with ⟨_, heq, rfl⟩ | ⟨later', _, hlog'⟩
      · obtain ⟨rfl, rfl⟩ := Prod.mk.inj heq
        exact ⟨u, v, before, hcall⟩
      · exact ih hlog'
  | meanwhile _ _ _ ih => exact ih hlog

theorem push_eq_ok_iff {index : Nat} {f : Frame} (h : Session o past log s) :
    (push o index f s).1 = .ok () ↔ ∃ c, (chapters log).head? = some c ∧ c.Takes index f := by
  have account := h.account
  constructor
  · intro hok
    rcases push_cases (Prod.ext hok rfl) with ⟨run, run', hrunning, hwrite, _⟩ | ⟨⟨e, herror⟩, _⟩
    · obtain ⟨c, rest, hchapters, hended, rfl, _⟩ := account.exists_current hrunning
      obtain ⟨⟨hlater, hfits⟩, _⟩ := write_eq_ok_iff.mp hwrite
      have hc := account.inOrder c (hchapters ▸ List.mem_cons_self)
      exact ⟨c, by rw [hchapters]; rfl, hended, hc.last_lt_iff.mp hlater, hfits⟩
    · cases herror
  · rintro ⟨c, hhead, takes⟩
    have hrunning := account.running_eq ⟨hhead, takes.going⟩
    have hc := account.inOrder c (List.mem_of_mem_head? hhead)
    have hwrite : write o.background index f (c.run o) = .ok _ :=
      write_eq_ok_iff.mpr ⟨⟨hc.last_lt_iff.mpr takes.later, takes.fits⟩, rfl⟩
    simp only [push, hrunning, hwrite]

-- A push that fails is as good as one that was never made.
theorem without_refused_push {index : Nat} {f : Frame} {e : Fault} (h : Session o past log s)
    (hlog : log = earlier ++ (.push index f, .error e) :: later) : Session o past (earlier ++ later) s := by
  induction h generalizing later with
  | fresh _ _ => simp at hlog
  | @call log u v _ _ before hcall ih =>
      rcases eq_or_exists_of_concat_eq hlog with ⟨rfl, heq, rfl⟩ | ⟨later', rfl, hlog'⟩
      · obtain ⟨rfl, rfl⟩ := Prod.mk.inj heq
        rcases push_cases hcall with ⟨_, _, _, _, hok, _⟩ | ⟨_, rfl⟩
        · cases hok
        · rwa [List.append_nil]
      · rw [← List.append_assoc]
        exact (ih hlog').call hcall
  | meanwhile _ workspace program ih => exact (ih hlog).meanwhile workspace program

theorem exists_current_of_ok {event : Event} (h : Session o past log s)
    (hcall : ((sink o).call event s).1 = .ok ()) (hevent : ∀ config, event ≠ .start config) :
    ∃ c, Current log c := by
  cases event with
  | start config => exact absurd rfl (hevent config)
  | push index f =>
      obtain ⟨c, hhead, takes⟩ := h.push_eq_ok_iff.mp hcall
      exact ⟨c, hhead, takes.going⟩
  | finish =>
      rcases finish_cases (Prod.ext hcall rfl) with ⟨run, hrunning, _⟩ | ⟨_, herror, _⟩
      · exact h.account.going.mp (by rw [hrunning]; rfl)
      · cases herror

end Session

-- What can be relied on after any calls with any answers.
structure Discipline (o : EncoderOptions) (past : List EncoderRun) (log : Log) (s : Studio) : Prop where
  -- the programs have been fed what their chapters took, the newest first, and nothing else
  fed : s.running.toList ++ s.finished = (chapters log).map (Chapter.run o) ++ past
  rising : ∀ c ∈ chapters log, c.taken.Pairwise fun a b => a.1 < b.1
  whole : ∀ c ∈ chapters log, ∀ entry ∈ c.taken,
    (flatten o.background entry.2.data).size = c.config.width * c.config.height * 4
  -- a program is only started for frames whose bytes memory can be asked for
  memory : ∀ c ∈ chapters log, c.config.width * c.config.height * 4 ≤ Word.mostBytes
  -- frames are taken, and the end succeeds, after a start that succeeded and before the end of it
  between : ∀ earlier event later, log = earlier ++ (event, .ok ()) :: later →
    (∀ config, event ≠ .start config) → ∃ before config since,
      earlier = before ++ (.start config, .ok ()) :: since ∧ ∀ call ∈ since, call.1 ≠ .finish
  taken_iff : ∀ earlier index f r later, log = earlier ++ (.push index f, r) :: later →
    (r = .ok () ↔ ∃ c, (chapters earlier).head? = some c ∧ c.Takes index f)
  stopped : ∀ earlier r, log = earlier ++ [(.finish, r)] → s.running = none
  startRefused : ∀ config e t, start o config s = (.error e, t) →
    t.running = s.running ∧ t.finished = s.finished
  pushRefused : ∀ index f e t, push o index f s = (.error e, t) → t = s
  leftOut : ∀ earlier index f e later, log = earlier ++ (.push index f, .error e) :: later →
    Session o past (earlier ++ later) s

theorem sink_keeps_discipline (h : Session o past log s) : Discipline o past log s where
  fed := h.account.runs
  rising c hc := (h.account.inOrder c hc).rising
  whole c hc entry hentry := by
    rw [size_flatten]
    exact ((h.account.inOrder c hc).fits entry hentry).2.2
  memory c hc := (h.account.inOrder c hc).memory
  between := by
    intro earlier event later hlog hevent
    obtain ⟨u, v, before, hcall⟩ := h.exists_before hlog
    obtain ⟨c, current⟩ := before.exists_current_of_ok (congrArg Prod.fst hcall) hevent
    obtain ⟨start, hstart, hsince⟩ := current.exists_start
    exact ⟨start, c.config, c.calls, hstart, hsince⟩
  taken_iff := by
    intro earlier index f r later hlog
    obtain ⟨u, v, before, hcall⟩ := h.exists_before hlog
    have hr : (push o index f u).1 = r := congrArg Prod.fst hcall
    rw [← hr]
    exact before.push_eq_ok_iff
  stopped := by
    rintro earlier r rfl
    rw [← Option.not_isSome_iff_eq_none, h.account.going]
    rintro ⟨c, current⟩
    exact not_current_finish earlier r c current
  startRefused := by
    intro config e t hstart
    rcases start_cases hstart with ⟨_, _, hok, _⟩ | ⟨_, files, _, rfl⟩
    · cases hok
    · exact ⟨rfl, rfl⟩
  pushRefused := by
    intro index f e t hpush
    rcases push_cases hpush with ⟨_, _, _, _, hok, _⟩ | ⟨_, rfl⟩
    · cases hok
    · rfl
  leftOut _ _ _ _ _ hlog := h.without_refused_push hlog

-- A video of one frame of four pixels, with a frame that comes twice and one that comes too late.
def repeated : Log :=
  [(.start ⟨2, 2, ⟨1, 1⟩⟩, .ok ()), (.push 0 (.blank 2 2), .ok ()),
    (.push 0 (.blank 2 2), .error (.outOfOrder 0 0)), (.finish, .ok ()),
    (.push 1 (.blank 2 2), .error .notRunning)]

theorem admitted_repeated : Admitted { path := "a.mp4" } ⟨2, 2, ⟨1, 1⟩⟩ {} {} where
  valid := rfl
  output := ⟨rfl, .inl rfl, by rw [handOver, if_neg (by simp), if_neg (by decide)]⟩
  available := rfl
  memory := by decide

theorem session_repeated : ∃ s, Session { path := "a.mp4" } [] repeated s := by
  have hstart : (sink { path := "a.mp4" }).call (.start ⟨2, 2, ⟨1, 1⟩⟩) {} = (.ok (), _) :=
    start_eq_ok admitted_repeated
  have started : Session { path := "a.mp4" } [] _ _ := (Session.fresh rfl rfl).call hstart
  exact ⟨_, (((started.call rfl).call rfl).call rfl).call rfl⟩

theorem sink_keeps_discipline_repeated : ∃ s, Session { path := "a.mp4" } [] repeated s ∧
    Discipline { path := "a.mp4" } [] repeated s := by
  obtain ⟨s, session⟩ := session_repeated
  exact ⟨s, session, sink_keeps_discipline session⟩

end ParticleFx.Encoder
