import ParticleFx.Proofs.Action
import ParticleFx.Proofs.Sink.Log
import ParticleFx.Sink.Encoder

namespace ParticleFx.Encoder

open Sink (Event Log)

variable {o : EncoderOptions} {past : List EncoderRun} {log : Log} {s t : Studio}
  {config : SinkConfig} {index : Nat} {f : Frame} {r : Except Fault Unit}

-- The calls of a new sink, with their answers, and the studio they leave. Between two calls files may
-- come and go, and so may the program. `past` are the runs from before the sink was made.
inductive Session (o : EncoderOptions) (past : List EncoderRun) : Log → Studio → Prop
  | fresh {s : Studio} (hrunning : s.running = none) (hpast : s.finished = past) : Session o past [] s
  | call {log : Log} {s t : Studio} {event : Event} {r : Except Fault Unit}
      (before : Session o past log s) (h : (sink o).call event s = (r, t)) :
      Session o past (log ++ [(event, r)]) t
  | meanwhile {log : Log} {s : Studio} (before : Session o past log s) (workspace : Workspace)
      (program : EncoderProgram) : Session o past log { s with workspace, program }

-- A start that succeeds, and the calls after it up to the next one that does.
structure Chapter where
  config : SinkConfig
  calls : Log

def Fits (config : SinkConfig) (f : Frame) : Prop :=
  f.width = config.width ∧ f.height = config.height ∧
    f.data.size = config.width * config.height * 4

namespace Chapter

def add (call : Event × Except Fault Unit) (c : Chapter) : Chapter :=
  { c with calls := c.calls ++ [call] }

-- The newest chapter comes first. Calls before the first start that succeeds are in none.
def note (chapters : List Chapter) : Event × Except Fault Unit → List Chapter
  | (.start config, .ok ()) => ⟨config, []⟩ :: chapters
  | call => chapters.modifyHead (add call)

-- What is pushed by a call that succeeds.
def pushed? : Event × Except Fault Unit → Option (Nat × Frame)
  | (.push index f, .ok ()) => some (index, f)
  | _ => none

def taken (c : Chapter) : List (Nat × Frame) :=
  c.calls.filterMap pushed?

def Ended (c : Chapter) : Prop :=
  ∃ r, (.finish, r) ∈ c.calls

-- The run of a program that has been fed all that was taken, in order, and nothing else.
def run (o : EncoderOptions) (c : Chapter) : EncoderRun where
  arguments := arguments o c.config
  config := c.config
  stream := (c.taken.flatMap fun (_, f) => (flatten o.background f.data).toList).toArray
  last := c.taken.getLast?.map Prod.fst

-- What a frame and its index have to be for the program to be fed with it.
structure Takes (c : Chapter) (index : Nat) (f : Frame) : Prop where
  going : ¬c.Ended
  later : ∀ entry ∈ c.taken, entry.1 < index
  fits : Fits c.config f

-- Indices rise from frame to frame, and every frame has the size that the program was started for, of which
-- one fits in memory.
structure InOrder (c : Chapter) : Prop where
  memory : frameBytes c.config ≤ Word.mostBytes
  rising : c.taken.Pairwise fun a b => a.1 < b.1
  fits : ∀ entry ∈ c.taken, Fits c.config entry.2

end Chapter

def chapters (log : Log) : List Chapter :=
  log.foldl Chapter.note []

-- The program that was started last, unless it has been ended since.
def Current (log : Log) (c : Chapter) : Prop :=
  (chapters log).head? = some c ∧ ¬c.Ended

theorem chapters_concat (log : Log) (call : Event × Except Fault Unit) :
    chapters (log ++ [call]) = Chapter.note (chapters log) call := by
  simp [chapters]

theorem chapters_concat_start (log : Log) (config : SinkConfig) :
    chapters (log ++ [(.start config, .ok ())]) = ⟨config, []⟩ :: chapters log :=
  chapters_concat log _

-- All other calls belong to the chapter they are made in.
theorem chapters_concat_of_ne {call : Event × Except Fault Unit}
    (hcall : ∀ config, call ≠ (.start config, .ok ())) :
    chapters (log ++ [call]) = (chapters log).modifyHead (Chapter.add call) := by
  rw [chapters_concat]
  unfold Chapter.note
  split
  · rename_i config
    exact absurd rfl (hcall config)
  · rfl

@[simp] theorem size_flatten (background : Color) (data : Array UInt8) :
    (flatten background data).size = data.size := by
  simp [flatten]

namespace Chapter

variable {c : Chapter} {call : Event × Except Fault Unit}

theorem taken_add : (c.add call).taken = c.taken ++ (pushed? call).toList := by
  simp only [taken, add, List.filterMap_append, List.filterMap_cons, List.filterMap_nil]
  cases pushed? call <;> rfl

theorem ended_add : (c.add call).Ended ↔ c.Ended ∨ call.1 = .finish := by
  obtain ⟨event, r⟩ := call
  simp only [Ended, add, List.mem_append, List.mem_singleton, exists_or]
  refine or_congr_right ⟨?_, ?_⟩
  · rintro ⟨_, heq⟩
    exact (Prod.mk.inj heq).1.symm
  · rintro rfl
    exact ⟨r, rfl⟩

-- A call that pushes nothing leaves the run as it is.
theorem map_run_modifyHead (hidle : pushed? call = none) (cs : List Chapter) :
    (cs.modifyHead (add call)).map (run o) = cs.map (run o) := by
  cases cs with
  | nil => rfl
  | cons c rest =>
      have htaken : (c.add call).taken = c.taken := by rw [taken_add, hidle]; simp
      simp only [List.modifyHead_cons, List.map_cons, run, htaken]
      rfl

theorem inOrder_modifyHead (hidle : pushed? call = none) {cs : List Chapter} (h : ∀ c ∈ cs, c.InOrder) :
    ∀ c ∈ cs.modifyHead (add call), c.InOrder := by
  cases cs with
  | nil => exact h
  | cons c rest =>
      obtain ⟨hc, hrest⟩ := List.forall_mem_cons.mp h
      have htaken : (c.add call).taken = c.taken := by rw [taken_add, hidle]; simp
      exact List.forall_mem_cons.mpr ⟨⟨hc.memory, htaken ▸ hc.rising, htaken ▸ hc.fits⟩, hrest⟩

theorem run_add_push (c : Chapter) : (c.add (.push index f, .ok ())).run o =
    { c.run o with
      stream := (c.run o).stream ++ flatten o.background f.data
      last := some index } := by
  have htaken : (c.add (.push index f, .ok ())).taken = c.taken ++ [(index, f)] := taken_add
  simp only [run, htaken, List.flatMap_append, List.getLast?_concat]
  simp [add]

theorem inOrder_add_push (h : c.InOrder) (takes : c.Takes index f) :
    (c.add (.push index f, .ok ())).InOrder := by
  have htaken : (c.add (.push index f, .ok ())).taken = c.taken ++ [(index, f)] := taken_add
  refine ⟨h.memory, ?_, ?_⟩
  · rw [htaken, List.pairwise_append]
    refine ⟨h.rising, List.pairwise_singleton _ _, fun entry hentry last hlast => ?_⟩
    obtain rfl := List.mem_singleton.mp hlast
    exact takes.later entry hentry
  · rw [htaken]
    intro entry hentry
    rcases List.mem_append.mp hentry with hold | hnew
    · exact h.fits entry hold
    · obtain rfl := List.mem_singleton.mp hnew
      exact takes.fits

-- Since indices rise, being above the last of them is being above them all.
theorem InOrder.last_lt_iff (h : c.InOrder) :
    (∀ last, (c.run o).last = some last → last < index) ↔ ∀ entry ∈ c.taken, entry.1 < index := by
  rcases List.eq_nil_or_concat c.taken with hnil | ⟨init, last, hlast⟩
  · simp [run, hnil]
  · have hrising := h.rising
    rw [List.concat_eq_append] at hlast
    rw [hlast, List.pairwise_append] at hrising
    simp only [run, hlast, List.getLast?_concat, Option.map_some, Option.some.injEq]
    constructor
    · intro hlt entry hentry
      have hindex := hlt last.1 rfl
      rcases List.mem_append.mp hentry with hinit | hnew
      · have hbelow := hrising.2.2 entry hinit last (List.mem_singleton_self last)
        omega
      · rwa [List.mem_singleton.mp hnew]
    · rintro hall _ rfl
      exact hall last (by simp)

end Chapter

theorem not_current_finish (log : Log) (r : Except Fault Unit) (c : Chapter) :
    ¬Current (log ++ [(.finish, r)]) c := by
  rintro ⟨hhead, hended⟩
  rw [chapters_concat_of_ne (by simp)] at hhead
  cases hlog : chapters log with
  | nil =>
      rw [hlog] at hhead
      cases hhead
  | cons c' rest =>
      rw [hlog] at hhead
      obtain rfl := Option.some.inj hhead
      exact hended (Chapter.ended_add.mpr (.inr rfl))

theorem write_eq_ok_iff {background : Color} {run run' : EncoderRun} :
    write background index f run = .ok run' ↔
      ((∀ last, run.last = some last → last < index) ∧ Fits run.config f) ∧
      run' = { run with stream := run.stream ++ flatten background f.data, last := some index } := by
  cases hlast : run.last.filter fun last => decide (index ≤ last) with
  | some last =>
      obtain ⟨hmem, hle⟩ := Option.filter_eq_some_iff.mp hlast
      have hnot : ¬∀ last, run.last = some last → last < index := fun hall => by
        have hlt := hall last hmem
        have hle := of_decide_eq_true hle
        omega
      simp only [write, hlast, hnot, false_and, reduceCtorEq]
  | none =>
      have hlater : ∀ last, run.last = some last → last < index := fun last hmem => by
        have hle := Option.filter_eq_none_iff.mp hlast last hmem
        simpa using hle
      simp only [write, hlast, Fits, frameBytes]
      by_cases hsize : f.width ≠ run.config.width ∨ f.height ≠ run.config.height
      · have hnot : ¬(f.width = run.config.width ∧ f.height = run.config.height ∧
            f.data.size = run.config.width * run.config.height * 4) := by omega
        simp only [hsize, hnot, if_true, and_false, false_and, reduceCtorEq]
      · have hsame : f.width = run.config.width ∧ f.height = run.config.height := by omega
        by_cases hbytes : f.data.size = run.config.width * run.config.height * 4
        · simpa [hsame, hbytes, eq_comm] using fun _ => hlater
        · simp [hsame, hbytes]

-- A path that a program can be told to write to. `files` are those after its directory has been made.
structure Writable (o : EncoderOptions) (before files : Workspace) : Prop where
  parent : Workspace.makeParent o.path before = (.ok (), files)
  free : o.overwrite = true ∨ files.has o.path = false
  path : handOver o.path = .ok ()

-- What has to hold for a program to be started.
structure Admitted (o : EncoderOptions) (config : SinkConfig) (s : Studio) (files : Workspace) :
    Prop where
  valid : validate config = .ok ()
  output : Writable o s.workspace files
  available : s.program.available = true
  memory : frameBytes config ≤ Word.mostBytes

-- The studio in which a program has been started, and the one before it has been let go.
def started (o : EncoderOptions) (config : SinkConfig) (s : Studio) (files : Workspace) : Studio :=
  { s with
    workspace := files
    running := some { arguments := arguments o config, config }
    finished := s.running.toList ++ s.finished }

-- A start whose configuration passes and whose directory is there.
theorem start_eq {files : Workspace} (hv : validate config = .ok ())
    (hp : Workspace.makeParent o.path s.workspace = (.ok (), files)) :
    start o config s =
      if (!o.overwrite && files.has o.path) = true then
        (.error (.outputExists o.path), { s with workspace := files })
      else if (!s.program.available) = true then (.error .encoderMissing, { s with workspace := files })
      else
        match handOver o.path >>= fun _ => Word.allocate (frameBytes config) with
        | .error e => (.error e, { s with workspace := files })
        | .ok () => (.ok (), started o config s files) := by
  have hfocus : Act.focus Studio.workspace (fun workspace s => { s with workspace })
      (Workspace.makeParent o.path) s = (.ok (), { s with workspace := files }) := by
    simp only [Act.focus, hp]
  rw [start, Act.run_bind_ok _ (by rw [hv]; rfl), Act.run_bind_ok _ hfocus]
  show (if (!o.overwrite && files.has o.path) = true then Act.fail _ else _ : Act Studio Unit) _ = _
  split
  · rfl
  · show (if (!s.program.available) = true then Act.fail _ else _ : Act Studio Unit) _ = _
    split
    · rfl
    · cases hpath : handOver o.path with
      | error e => exact Act.run_bind_error _ rfl
      | ok _ =>
          refine (Act.run_bind_ok _ rfl).trans ?_
          show _ = match Word.allocate (frameBytes config) with | .error e => _ | .ok () => _
          cases Word.allocate (frameBytes config) with
          | error e => exact Act.run_bind_error _ rfl
          | ok _ => exact Act.run_bind_ok _ rfl

theorem start_eq_ok {files : Workspace} (h : Admitted o config s files) :
    start o config s = (.ok (), started o config s files) := by
  have hfree : ¬(!o.overwrite && files.has o.path) = true := by
    rcases h.output.free with hover | hfree
    · simp [hover]
    · simp [hfree]
  rw [start_eq h.valid h.output.parent, if_neg hfree, if_neg (by simp [h.available]), h.output.path]
  show (match Word.allocate (frameBytes config) with | .error e => _ | .ok () => _) = _
  rw [Word.allocate_of_le h.memory]

-- Everything that a start can do. If it fails, no more than directories may have been made.
theorem start_cases (h : start o config s = (r, t)) :
    (∃ files, Admitted o config s files ∧ r = .ok () ∧ t = started o config s files) ∨
    ∃ e files, r = .error e ∧ t = { s with workspace := files } := by
  rcases hv : validate config with e | _
  · rw [start, Act.run_bind_error _ (by rw [hv]; rfl)] at h
    obtain ⟨rfl, rfl⟩ := Prod.mk.inj h
    exact .inr ⟨e, s.workspace, rfl, rfl⟩
  rcases hp : Workspace.makeParent o.path s.workspace with ⟨e | _, files⟩
  · have hfocus : Act.focus Studio.workspace (fun workspace s => { s with workspace })
        (Workspace.makeParent o.path) s = (.error e, { s with workspace := files }) := by
      simp only [Act.focus, hp]
    rw [start, Act.run_bind_ok _ (by rw [hv]; rfl), Act.run_bind_error _ hfocus] at h
    obtain ⟨rfl, rfl⟩ := Prod.mk.inj h
    exact .inr ⟨e, files, rfl, rfl⟩
  rw [start_eq hv hp] at h
  split at h
  · obtain ⟨rfl, rfl⟩ := Prod.mk.inj h
    exact .inr ⟨_, files, rfl, rfl⟩
  split at h
  · obtain ⟨rfl, rfl⟩ := Prod.mk.inj h
    exact .inr ⟨_, files, rfl, rfl⟩
  rename_i hfree havailable
  split at h
  · obtain ⟨rfl, rfl⟩ := Prod.mk.inj h
    exact .inr ⟨_, files, rfl, rfl⟩
  · rename_i hready
    obtain ⟨_, hpath, hmemory⟩ := bind_eq_ok_iff.mp hready
    obtain ⟨rfl, rfl⟩ := Prod.mk.inj h
    refine .inl ⟨files, ⟨hv, ⟨hp, ?_, hpath⟩, by simpa using havailable, Word.allocate_eq_ok_iff.mp hmemory⟩, rfl,
      rfl⟩
    cases hover : o.overwrite with
    | true => exact .inl rfl
    | false => exact .inr (by simpa [hover] using hfree)

theorem push_cases (h : push o index f s = (r, t)) :
    (∃ run run', s.running = some run ∧ write o.background index f run = .ok run' ∧ r = .ok () ∧
      t = { s with running := some run' }) ∨
    (∃ e, r = .error e) ∧ t = s := by
  cases hrunning : s.running with
  | none =>
      simp only [push, hrunning] at h
      obtain ⟨rfl, rfl⟩ := Prod.mk.inj h
      exact .inr ⟨⟨_, rfl⟩, rfl⟩
  | some run =>
      cases hwrite : write o.background index f run with
      | error e =>
          simp only [push, hrunning, hwrite] at h
          obtain ⟨rfl, rfl⟩ := Prod.mk.inj h
          exact .inr ⟨⟨_, rfl⟩, rfl⟩
      | ok run' =>
          simp only [push, hrunning, hwrite] at h
          obtain ⟨rfl, rfl⟩ := Prod.mk.inj h
          exact .inl ⟨run, run', rfl, hwrite, rfl, rfl⟩

-- Whatever the program answers, it is over.
theorem finish_cases (h : finish s = (r, t)) :
    (∃ run, s.running = some run ∧ t = { s with running := none, finished := run :: s.finished }) ∨
    s.running = none ∧ r = .error .notRunning ∧ t = s := by
  cases hrunning : s.running with
  | none =>
      simp only [finish, hrunning] at h
      obtain ⟨rfl, rfl⟩ := Prod.mk.inj h
      exact .inr ⟨rfl, rfl, rfl⟩
  | some run =>
      simp only [finish, hrunning] at h
      split at h
      · obtain ⟨rfl, rfl⟩ := Prod.mk.inj h
        exact .inl ⟨run, rfl, rfl⟩
      · obtain ⟨rfl, rfl⟩ := Prod.mk.inj h
        exact .inl ⟨run, rfl, rfl⟩

-- The studio as the calls and their answers tell it: each chapter has its run, and the newest one is
-- going on unless it has been ended.
structure Account (o : EncoderOptions) (past : List EncoderRun) (log : Log) (s : Studio) : Prop where
  runs : s.running.toList ++ s.finished = (chapters log).map (Chapter.run o) ++ past
  going : s.running.isSome = true ↔ ∃ c, Current log c
  inOrder : ∀ c ∈ chapters log, c.InOrder

namespace Account

theorem exists_current (h : Account o past log s) {run : EncoderRun} (hrunning : s.running = some run) :
    ∃ c rest, chapters log = c :: rest ∧ ¬c.Ended ∧ run = c.run o ∧
      s.finished = rest.map (Chapter.run o) ++ past := by
  obtain ⟨c, hhead, hended⟩ := h.going.mp (by rw [hrunning]; rfl)
  obtain ⟨rest, hchapters⟩ := List.head?_eq_some_iff.mp hhead
  have hruns := h.runs
  rw [hrunning, hchapters] at hruns
  obtain ⟨hrun, hrest⟩ := List.cons.inj hruns
  exact ⟨c, rest, hchapters, hended, hrun, hrest⟩

theorem running_eq {c : Chapter} (h : Account o past log s) (current : Current log c) :
    s.running = some (c.run o) := by
  obtain ⟨run, hrunning⟩ := Option.isSome_iff_exists.mp (h.going.mpr ⟨c, current⟩)
  obtain ⟨c', rest, hchapters, _, rfl, _⟩ := h.exists_current hrunning
  have hhead := current.1
  rw [hchapters, List.head?_cons] at hhead
  rw [hrunning, Option.some.inj hhead]

theorem start (h : Account o past log s) {files : Workspace} (admitted : Admitted o config s files) :
    Account o past (log ++ [(.start config, .ok ())]) (started o config s files) where
  runs := by
    rw [chapters_concat_start, List.map_cons, List.cons_append, ← h.runs]
    rfl
  going := by
    have hcurrent : Current (log ++ [(.start config, .ok ())]) ⟨config, []⟩ :=
      ⟨by rw [chapters_concat_start]; rfl, by rintro ⟨r, hmem⟩; cases hmem⟩
    exact iff_of_true rfl ⟨_, hcurrent⟩
  inOrder := by
    rw [chapters_concat_start]
    exact List.forall_mem_cons.mpr ⟨⟨admitted.memory, .nil, nofun⟩, h.inOrder⟩

-- A call that is refused, and is not the end, changes nothing that is told of.
theorem refused (h : Account o past log s) {event : Event} {e : Fault} (hevent : event ≠ .finish)
    (hrunning : t.running = s.running) (hfinished : t.finished = s.finished) :
    Account o past (log ++ [(event, .error e)]) t := by
  have hidle : Chapter.pushed? (event, .error e) = none := by cases event <;> rfl
  have hchapters : chapters (log ++ [(event, .error e)]) = _ := chapters_concat_of_ne (by simp)
  have hended (c : Chapter) : (c.add (event, .error e)).Ended ↔ c.Ended := by
    rw [Chapter.ended_add]
    exact or_iff_left hevent
  refine ⟨?_, ?_, hchapters ▸ Chapter.inOrder_modifyHead hidle h.inOrder⟩
  · rw [hrunning, hfinished, h.runs, hchapters, Chapter.map_run_modifyHead hidle]
  · rw [hrunning, h.going]
    cases hlog : chapters log with
    | nil => simp [Current, hchapters, hlog]
    | cons c rest => simp [Current, hchapters, hlog, hended]

-- A frame that is taken goes to the program that was started last.
theorem push (h : Account o past log s) {run run' : EncoderRun} (hrunning : s.running = some run)
    (hwrite : write o.background index f run = .ok run') :
    Account o past (log ++ [(.push index f, .ok ())]) { s with running := some run' } := by
  obtain ⟨c, rest, hlog, hended, rfl, hfinished⟩ := h.exists_current hrunning
  obtain ⟨⟨hlater, hfits⟩, rfl⟩ := write_eq_ok_iff.mp hwrite
  have hall := h.inOrder
  rw [hlog] at hall
  obtain ⟨hc, hrest⟩ := List.forall_mem_cons.mp hall
  have takes : c.Takes index f := ⟨hended, hc.last_lt_iff.mp hlater, hfits⟩
  have hchapters : chapters (log ++ [(.push index f, .ok ())]) =
      c.add (.push index f, .ok ()) :: rest := by
    rw [chapters_concat_of_ne (by simp), hlog, List.modifyHead_cons]
  refine ⟨?_, iff_of_true rfl ⟨c.add (.push index f, .ok ()), by rw [hchapters]; rfl, ?_⟩, ?_⟩
  · rw [hchapters, List.map_cons, Chapter.run_add_push, List.cons_append, ← hfinished]
    rfl
  · rw [Chapter.ended_add]
    simpa using hended
  · rw [hchapters]
    exact List.forall_mem_cons.mpr ⟨Chapter.inOrder_add_push hc takes, hrest⟩

theorem finish (h : Account o past log s) (hrunning : t.running = none)
    (hruns : t.finished = s.running.toList ++ s.finished) :
    Account o past (log ++ [(.finish, r)]) t := by
  have hchapters : chapters (log ++ [(.finish, r)]) = _ := chapters_concat_of_ne (by simp)
  refine ⟨?_, ?_, hchapters ▸ Chapter.inOrder_modifyHead rfl h.inOrder⟩
  · rw [hrunning, hruns, hchapters, Chapter.map_run_modifyHead rfl, ← h.runs]
    rfl
  · rw [hrunning]
    exact iff_of_false (by simp) fun ⟨c, current⟩ => not_current_finish log r c current

-- Whatever is called, the account goes on.
theorem call (h : Account o past log s) {event : Event} (hcall : (sink o).call event s = (r, t)) :
    Account o past (log ++ [(event, r)]) t := by
  cases event with
  | start config =>
      rcases start_cases hcall with ⟨files, admitted, rfl, rfl⟩ | ⟨e, files, rfl, rfl⟩
      · exact h.start admitted
      · exact h.refused (by simp) rfl rfl
  | push index f =>
      rcases push_cases hcall with ⟨run, run', hrunning, hwrite, rfl, rfl⟩ | ⟨⟨e, rfl⟩, rfl⟩
      · exact h.push hrunning hwrite
      · exact h.refused (by simp) rfl rfl
  | finish =>
      rcases finish_cases hcall with ⟨run, hrunning, rfl⟩ | ⟨hrunning, rfl, rfl⟩
      · exact h.finish rfl (by rw [hrunning]; rfl)
      · exact h.finish hrunning (by rw [hrunning]; rfl)

end Account

theorem Session.account (h : Session o past log s) : Account o past log s := by
  induction h with
  | fresh hrunning hpast =>
      refine ⟨by rw [hrunning, hpast]; rfl, ?_, nofun⟩
      rw [hrunning]
      refine iff_of_false (by simp) ?_
      rintro ⟨c, hhead, _⟩
      cases hhead
  | call _ hcall ih => exact ih.call hcall
  | meanwhile _ _ _ ih => exact ⟨ih.runs, ih.going, ih.inOrder⟩

-- Calls without anything happening in between.
theorem Session.of_answers (hrunning : s.running = none) (h : (sink o).Answers s log t) :
    Session o s.finished log t := by
  induction h with
  | nil => exact .fresh hrunning rfl
  | snoc _ hcall ih => exact ih.call hcall

end ParticleFx.Encoder
