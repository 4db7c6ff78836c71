import ParticleFx.CommandLine
import ParticleFx.Proofs.Engine.Readiness
import ParticleFx.Proofs.Sink.Discipline
import ParticleFx.Proofs.Timeline.Bursts
import ParticleFx.Proofs.Timeline.Protocol
import ParticleFx.Proofs.Timeline.Simulation

namespace ParticleFx

open Sink (Event Log)

namespace Timeline

variable {scene : Scene} {pictures : List Frame} {picture : Frame} {t : Timeline}

-- Pictures have the size of the canvas, and a machine word can count their bytes.
theorem Trace.sameShape (trace : Trace scene pictures t) :
    ∀ p ∈ pictures, p.SameShape scene.baseFrame := by
  induction trace with
  | start _ => nofun
  | step _ hs ih =>
      obtain ⟨_, _, _, _, _, _, _, _, hrender⟩ := step_eq_ok hs
      intro p hp
      rcases List.mem_append.mp hp with hold | hnew
      · exact ih p hold
      · rw [List.mem_singleton.mp hnew]
        exact (Engine.render_sameShape hrender).2

end Timeline

namespace Encoder

variable {o : EncoderOptions} {scene : Scene} {pictures : List Frame} {picture : Frame} {s u : Studio}

-- As long as no call has been refused there is one chapter, with all the pictures so far.
theorem exists_chapter_accepted (scene : Scene) (pictures : List Frame) :
    ∃ c, chapters (Timeline.accepted scene pictures) = [c] ∧ c.config = scene.sinkConfig ∧ ¬c.Ended ∧
      c.taken = pictures.mapIdx Prod.mk := by
  induction pictures using List.reverseRecOn with
  | nil =>
      refine ⟨⟨scene.sinkConfig, []⟩, rfl, rfl, ?_, rfl⟩
      rintro ⟨r, hmem⟩
      cases hmem
  | append_singleton pictures picture ih =>
      obtain ⟨c, hchapters, hconfig, hended, htaken⟩ := ih
      refine ⟨c.add (.push pictures.length picture, .ok ()), ?_, hconfig, ?_, ?_⟩
      · rw [Timeline.accepted_append, chapters_concat_of_ne (by simp), hchapters]
        rfl
      · rw [Chapter.ended_add]
        simpa using hended
      · rw [Chapter.taken_add, htaken, List.mapIdx_concat]
        rfl

theorem fits_of_sameShape (h : picture.SameShape scene.baseFrame) : Fits scene.sinkConfig picture := by
  refine ⟨h.width, h.height, ?_⟩
  rw [h.bytes]
  exact Frame.size_filled _ _ _

theorem keeps_program_call (o : EncoderOptions) (event : Event) :
    Act.Keeps Studio.program ((sink o).call event) := by
  intro s
  rcases h : (sink o).call event s with ⟨r, t⟩
  cases event with
  | start config =>
      rcases start_cases h with ⟨files, _, _, rfl⟩ | ⟨e, files, _, rfl⟩ <;> rfl
  | push index f =>
      rcases push_cases h with ⟨_, _, _, _, _, rfl⟩ | ⟨_, rfl⟩ <;> rfl
  | finish =>
      rcases finish_cases h with ⟨_, _, rfl⟩ | ⟨_, _, rfl⟩ <;> rfl

theorem program_eq_of_answers {log : Log} (h : (sink o).Answers s log u) : u.program = s.program := by
  induction h with
  | nil => rfl
  | @snoc _ u v event r _ hcall ih =>
      have hkept := keeps_program_call o event u
      rw [hcall] at hkept
      rw [hkept, ih]

-- The bytes of whole pixels, all of them opaque.
def Opaque (bytes : List UInt8) : Prop :=
  bytes.length % 4 = 0 ∧ ∀ k b, k % 4 = 3 → bytes[k]? = some b → b = 255

theorem opaque_flatten (background : Color) {data : Array UInt8} (h : data.size % 4 = 0) :
    Opaque (flatten background data).toList := by
  refine ⟨by simpa using h, ?_⟩
  intro k b hk hb
  obtain ⟨_, rfl⟩ : k < data.size ∧
      ((Frame.colorAt data (k / 4)).flattened background).channel (k % 4) = b := by
    simpa [flatten] using hb
  rw [hk]
  rfl

theorem opaque_flatMap {α : Type} {bytes : α → List UInt8} (l : List α)
    (h : ∀ a ∈ l, Opaque (bytes a)) : Opaque (l.flatMap bytes) := by
  induction l with
  | nil => exact ⟨rfl, by simp⟩
  | cons a rest ih =>
      obtain ⟨⟨hlen, hhead⟩, hrest⟩ := List.forall_mem_cons.mp h
      obtain ⟨hlen', htail⟩ := ih hrest
      rw [List.flatMap_cons]
      refine ⟨by rw [List.length_append]; omega, ?_⟩
      intro k b hk hb
      by_cases hlt : k < (bytes a).length
      · rw [List.getElem?_append_left hlt] at hb
        exact hhead k b hk hb
      · rw [List.getElem?_append_right (by omega)] at hb
        exact htail _ b (by omega) hb

section

variable {α : Type} {bytes : α → List UInt8} {n : Nat} {l : List α}

theorem length_flatMap_of_length_eq (h : ∀ a ∈ l, (bytes a).length = n) :
    (l.flatMap bytes).length = l.length * n := by
  induction l with
  | nil => simp
  | cons a rest ih =>
      obtain ⟨ha, hrest⟩ := List.forall_mem_cons.mp h
      rw [List.flatMap_cons, List.length_append, ha, ih hrest, List.length_cons, Nat.succ_mul]
      omega

-- Of pieces of one length, laid end to end, each can be cut out by its place.
theorem take_drop_flatMap (h : ∀ a ∈ l, (bytes a).length = n) {i : Nat} {a : α}
    (hi : l[i]? = some a) : ((l.flatMap bytes).drop (i * n)).take n = bytes a := by
  induction l generalizing i with
  | nil => simp at hi
  | cons b rest ih =>
      obtain ⟨hb, hrest⟩ := List.forall_mem_cons.mp h
      rw [List.flatMap_cons]
      cases i with
      | zero =>
          obtain rfl : b = a := by simpa using hi
          rw [Nat.zero_mul, List.drop_zero, ← hb, List.take_left]
      | succ i =>
          have hplace : (i + 1) * n = (bytes b).length + i * n := by
            rw [hb, Nat.succ_mul, Nat.add_comm]
          rw [hplace, List.drop_length_add_append]
          exact ih hrest (by simpa using hi)

end

-- The bytes of pictures on a background, one picture after the other.
def laidOut (background : Color) (pictures : List Frame) : Array UInt8 :=
  (pictures.flatMap fun p => (flatten background p.data).toList).toArray

section

variable {background : Color} {size : Nat} (hsize : ∀ p ∈ pictures, p.data.size = size)

include hsize

theorem length_flatten_of_mem : ∀ p ∈ pictures, (flatten background p.data).toList.length = size := by
  intro p hp
  rw [Array.length_toList, size_flatten, hsize p hp]

theorem size_laidOut : (laidOut background pictures).size = pictures.length * size := by
  rw [laidOut, List.size_toArray, length_flatMap_of_length_eq (length_flatten_of_mem hsize)]

theorem extract_laidOut {n : Nat} (hpicture : pictures[n]? = some picture) :
    (laidOut background pictures).extract (n * size) ((n + 1) * size) =
      flatten background picture.data := by
  rw [laidOut, List.extract_toArray, List.extract_eq_take_drop, Nat.succ_mul, Nat.add_sub_cancel_left,
    take_drop_flatMap (length_flatten_of_mem hsize) hpicture, Array.toArray_toList]

theorem alpha_laidOut (hpixels : size % 4 = 0) {k : Nat} {b : UInt8} (hk : k % 4 = 3)
    (hb : (laidOut background pictures)[k]? = some b) : b = 255 := by
  have hopaque : Opaque (pictures.flatMap fun p => (flatten background p.data).toList) := by
    refine opaque_flatMap pictures fun p hp => opaque_flatten background ?_
    rw [hsize p hp, hpixels]
  rw [laidOut, List.getElem?_toArray] at hb
  exact hopaque.2 k b hk hb

end

-- The alpha of the background does not matter.
theorem laidOut_withAlpha (background : Color) (a : UInt8) (pictures : List Frame) :
    laidOut (background.withAlpha a) pictures = laidOut background pictures := rfl

-- A program that is started for a scene takes every picture of it.
theorem push_accepted {t : Timeline} (h : (sink o).Answers s (Timeline.accepted scene pictures) u)
    (hidle : s.running = none) (trace : Timeline.Trace scene (pictures ++ [picture]) t) :
    (push o pictures.length picture u).1 = .ok () := by
  obtain ⟨c, hchapters, hconfig, hended, htaken⟩ := exists_chapter_accepted scene pictures
  have hshape := trace.sameShape picture (List.mem_append_right _ (List.mem_singleton_self _))
  refine (Session.of_answers hidle h).push_eq_ok_iff.mpr ⟨c, by rw [hchapters]; rfl, hended, ?_, ?_⟩
  · rw [htaken]
    intro entry hentry
    obtain ⟨i, hi, rfl⟩ := List.mem_mapIdx.mp hentry
    exact hi
  · rw [hconfig]
    exact fits_of_sameShape hshape

theorem finish_accepted (h : (sink o).Answers s (Timeline.accepted scene pictures) u)
    (hidle : s.running = none) (hstatus : s.program.status = 0) : (finish u).1 = .ok () := by
  obtain ⟨c, hchapters, _, hended, _⟩ := exists_chapter_accepted scene pictures
  have current : Current (Timeline.accepted scene pictures) c := ⟨by rw [hchapters]; rfl, hended⟩
  have hrunning := (Session.of_answers hidle h).account.running_eq current
  have hprogram := program_eq_of_answers h
  simp [finish, hrunning, hprogram, hstatus]

-- A render that nothing stands in the way of feeds one program with all the pictures of the scene.
theorem render_feeds {files : Workspace} {t : Timeline} (hstart : Timeline.start scene = .ok t)
    (hsteps : ∀ n < scene.duration, ∃ picture, Timeline.StepGives scene n (.ok picture))
    (hidle : s.running = none) (hstatus : s.program.status = 0)
    (hadmitted : Admitted o scene.sinkConfig s files) :
    ∃ pictures t stats u run, Timeline.Trace scene pictures t ∧ pictures.length = scene.duration ∧
      scene.render (sink o) s = (.ok stats, u) ∧ u.running = none ∧ u.finished = run :: s.finished ∧
      run.stream = laidOut o.background pictures := by
  obtain ⟨calls, answers, outcome⟩ := Timeline.render_outcome scene (sink o) s
  rcases hrender : scene.render (sink o) s with ⟨result, u⟩
  rw [hrender] at answers outcome
  cases outcome with
  | notStarted hs => cases hstart.symm.trans hs
  | stepFailed _ hlt he =>
      obtain ⟨picture, hgives⟩ := hsteps _ hlt
      cases hgives.unique he
  | startRefused _ =>
      have last : (sink o).Answers s ([] ++ [(.start scene.sinkConfig, .error _)]) u := answers
      obtain ⟨mid, before, hcall⟩ := last.exists_last
      cases before.unique .nil
      cases hcall.symm.trans (start_eq_ok hadmitted)
  | pushRefused trace _ =>
      obtain ⟨mid, before, hcall⟩ := answers.exists_last
      have hok := push_accepted before hidle trace
      cases hok.symm.trans (congrArg Prod.fst hcall)
  | finishRefused _ _ =>
      obtain ⟨mid, before, hcall⟩ := answers.exists_last
      have hok := finish_accepted before hidle hstatus
      cases hok.symm.trans (congrArg Prod.fst hcall)
  | @finished pictures t stats trace hlen _ =>
      obtain ⟨c, hchapters, hconfig, hended, htaken⟩ := exists_chapter_accepted scene pictures
      have discipline := (Session.of_answers hidle answers).account
      have hrunning : u.running = none := by
        rw [← Option.not_isSome_iff_eq_none, discipline.going]
        rintro ⟨c', current⟩
        exact not_current_finish _ _ c' current
      have hruns := discipline.runs
      rw [hrunning, chapters_concat_of_ne (by simp), Chapter.map_run_modifyHead rfl, hchapters] at hruns
      refine ⟨pictures, t, stats, u, c.run o, trace, hlen, rfl, hrunning, hruns, ?_⟩
      have hpictures : (pictures.mapIdx Prod.mk).map Prod.snd = pictures :=
        List.ext_getElem (by simp) (by simp)
      rw [laidOut, Chapter.run, htaken, ← hpictures, List.flatMap_map, hpictures]

end Encoder

namespace CommandLine

variable {args : List String} {input output : String} {scene : Scene} {s : Studio} {picture : Frame}
  {files : Workspace}

-- An entry has been written to a path, and the directories that were missing on the way were made.
def Stored (path : String) (e : Entry) (before after : Workspace) : Prop :=
  ∃ mid, Workspace.makeParent path before = (.ok (), mid) ∧ mid.write path e = .ok after

theorem loadScene_eq_ok (hopen : openScene s.workspace input = .ok scene)
    (hvalid : scene.validate = .ok ()) : loadScene s.workspace input = .ok scene := by
  simp only [loadScene, hopen, hvalid]

theorem run_frame {index : Nat} (hparse : parse args = some (.command (.frame input index output)))
    (hload : loadScene s.workspace input = .ok scene) (hpicture : scene.renderFrame index = .ok picture)
    (hstored : Stored output (.image picture) s.workspace files) :
    run args s =
      { code := 0, stderr := s!"wrote {output}\n", studio := { s with workspace := files } } := by
  obtain ⟨mid, hparent, hwrite⟩ := hstored
  simp only [run, hparse, perform, frame, hload, hpicture, hparent, hwrite]

theorem run_render {overwrite : Bool} {stats : RenderStats} {u : Studio}
    (hparse : parse args = some (.command (.render input output overwrite)))
    (hload : loadScene s.workspace input = .ok scene)
    (hrender : scene.render (Encoder.sink
      { path := output, overwrite, background := scene.background.withAlpha 255 }) s = (.ok stats, u)) :
    run args s =
      { code := 0
        stderr := s!"wrote {output} ({stats.frames} frames, peak {stats.peakParticles} particles)\n"
        studio := u } := by
  simp only [run, hparse, perform, render, hload, hrender]

-- The canvas of a scene that can be played is not empty, and neither is its rate.
theorem validate_sinkConfig (hvalid : scene.validate = .ok ())
    (heven : scene.canvas.width % 2 = 0 ∧ scene.canvas.height % 2 = 0) :
    Encoder.validate scene.sinkConfig = .ok () := by
  have valid := scene.validate_iff_valid.mp hvalid
  have hfps : ¬(scene.fps.num = 0 ∨ scene.fps.den = 0) := by
    have hrate := valid.fps
    omega
  have hsize : ¬(scene.canvas.width = 0 ∨ scene.canvas.height = 0 ∨ scene.canvas.width % 2 ≠ 0 ∨
      scene.canvas.height % 2 ≠ 0) := by
    have hcanvas := valid.canvas
    omega
  simp only [Encoder.validate, Scene.sinkConfig, hfps, hsize, if_false]

-- The video is made of the pictures that the frames give by themselves: piece for piece, their
-- pixels on the background of the scene.
theorem video_matches_pictures {overwrite : Bool}
    (hparse : parse args = some (.command (.render input output overwrite)))
    (hopen : openScene s.workspace input = .ok scene) (hvalid : scene.validate = .ok ())
    (heven : scene.canvas.width % 2 = 0 ∧ scene.canvas.height % 2 = 0)
    (hsteps : ∀ n < scene.duration, ∃ picture, Timeline.StepGives scene n (.ok picture))
    (hidle : s.running = none) (hprogram : s.program.available = true ∧ s.program.status = 0)
    (houtput : Encoder.Writable { path := output, overwrite } s.workspace files) :
    ∃ video, (run args s).code = 0 ∧ (run args s).studio.running = none ∧
      (run args s).studio.finished = video :: s.finished ∧
      video.stream.size = scene.duration * (scene.canvas.width * scene.canvas.height * 4) ∧
      (∀ k b, k % 4 = 3 → video.stream[k]? = some b → b = 255) ∧
      ∀ n < scene.duration, ∃ picture : Frame,
        video.stream.extract (n * (scene.canvas.width * scene.canvas.height * 4))
            ((n + 1) * (scene.canvas.width * scene.canvas.height * 4)) =
          Encoder.flatten scene.background picture.data ∧
        ∀ (s' : Studio) (args' : List String) (path : String) (after : Workspace),
          parse args' = some (.command (.frame input n path)) →
          openScene s'.workspace input = .ok scene →
          Stored path (.image picture) s'.workspace after →
          run args' s' =
            { code := 0, stderr := s!"wrote {path}\n", studio := { s' with workspace := after } } := by
  obtain ⟨_, hfirst⟩ := hsteps 0 (Nat.pos_of_ne_zero (scene.validate_iff_valid.mp hvalid).duration)
  obtain ⟨first, hstart⟩ := hfirst.exists_start
  have hadmitted : Encoder.Admitted
      { path := output, overwrite, background := scene.background.withAlpha 255 }
      scene.sinkConfig s files :=
    ⟨validate_sinkConfig hvalid heven, ⟨houtput.parent, houtput.free, houtput.path⟩, hprogram.1,
      (Timeline.start_eq_ok_iff.mp hstart).2.1⟩
  obtain ⟨pictures, t, stats, u, video, trace, hlen, hrender, hrunning, hfinished, hstream⟩ :=
    Encoder.render_feeds hstart hsteps hidle hprogram.2 hadmitted
  have hsize : ∀ p ∈ pictures, p.data.size = scene.canvas.width * scene.canvas.height * 4 :=
    fun p hp => (Encoder.fits_of_sameShape (trace.sameShape p hp)).2.2
  rw [Encoder.laidOut_withAlpha] at hstream
  rw [run_render hparse (loadScene_eq_ok hopen hvalid) hrender]
  refine ⟨video, rfl, hrunning, hfinished, ?_, ?_, ?_⟩
  · rw [hstream, Encoder.size_laidOut hsize, hlen]
  · intro k b hk hb
    rw [hstream] at hb
    exact Encoder.alpha_laidOut hsize (by omega) hk hb
  · intro n hn
    obtain ⟨picture, hpicture⟩ : ∃ picture, pictures[n]? = some picture :=
      ⟨_, List.getElem?_eq_getElem (by omega)⟩
    have hframe := Timeline.renderFrame_eq_ok hn (trace.stepGives hpicture)
    refine ⟨picture, by rw [hstream, Encoder.extract_laidOut hsize hpicture], ?_⟩
    intro s' args' path after hparse' hopen' hstored
    exact run_frame hparse' (loadScene_eq_ok hopen' hvalid) hframe hstored

-- One particle on the second of two frames.
def spark : Scene where
  canvas := ⟨2, 2⟩
  fps := ⟨1, 1⟩
  duration := 2
  emitters := [{ config := { rate := 0 } }]
  bursts := [{ frame := 1, emitter := 0, count := 1 }]

def sparkText : String :=
  "\x7b\"canvas\":\x7b\"width\":2,\"height\":2\x7d,\"fps\":\x7b\"num\":1,\"den\":1\x7d,\"duration\":2," ++
  "\"emitters\":[\x7b\"config\":\x7b\"rate\":0\x7d\x7d]," ++
  "\"bursts\":[\x7b\"frame\":1,\"emitter\":0,\"count\":1\x7d]\x7d"

def desk : Studio where
  workspace := ⟨[("s", .text sparkText)]⟩

theorem openScene_desk : openScene desk.workspace "s" = .ok spark := by
  have hpermit : Workspace.permit "s" = .ok () := by
    rw [Workspace.permit, if_neg (by simp), if_neg (by decide), if_neg (by decide)]
  have hparts : Workspace.parts "s" = ["s"] := by
    rw [Workspace.parts, String.splitOn, if_neg (by decide), String.splitOnAux, String.splitOnAux]
    decide
  have hread : desk.workspace.readText "s" = .ok sparkText := by
    simp only [Workspace.readText, Workspace.find, Workspace.follow, hpermit, hparts]
    rfl
  have hdecode : (Document.scene.ofText sparkText).toOption = some spark := by decide +kernel
  simp only [openScene, hread, Scene.ofText]
  cases h : Document.scene.ofText sparkText with
  | error e => simp [h, Except.toOption] at hdecode
  | ok scene => simpa [h, Except.toOption] using hdecode

theorem stored_desk (picture : Frame) :
    Stored "p" (.image picture) desk.workspace (desk.workspace.put ["p"] (.image picture)) := by
  have hpermit : Workspace.permit "p" = .ok () := by
    rw [Workspace.permit, if_neg (by simp), if_neg (by decide), if_neg (by decide)]
  have hparts : Workspace.parts "p" = ["p"] := by
    rw [Workspace.parts, String.splitOn, if_neg (by decide), String.splitOnAux, String.splitOnAux]
    decide
  have hending : "p".endsWith "/" = false := by decide +kernel
  refine ⟨desk.workspace, rfl, ?_⟩
  simp only [Workspace.write, Workspace.namesBackward, hpermit, hparts, hending]
  rfl

theorem steps_spark : ∀ n < spark.duration, ∃ picture, Timeline.StepGives spark n (.ok picture) := by
  intro n hn
  obtain ⟨pictures, t, trace, hlen⟩ :=
    Timeline.exists_trace_of_isOk (a := spark) (i := 1) rfl (by decide) (by decide +kernel)
  have hn' : n < 2 := hn
  exact ⟨_, trace.stepGives (List.getElem?_eq_getElem (by omega : n < pictures.length))⟩

theorem video_matches_pictures_spark :
    ∃ video picture,
      (run ["render", "--in", "s", "--out", "v", "--overwrite"] desk).studio.finished = [video] ∧
      video.stream.size = 32 ∧
      video.stream.extract 16 32 = Encoder.flatten .black picture.data ∧
      (run ["frame", "--in", "s", "--frame", "1", "--out", "p"] desk).studio.workspace =
        desk.workspace.put ["p"] (.image picture) := by
  have hrender : parse ["render", "--in", "s", "--out", "v", "--overwrite"] =
      some (.command (.render "s" "v" true)) := by decide +kernel
  have hframe : parse ["frame", "--in", "s", "--frame", "1", "--out", "p"] =
      some (.command (.frame "s" 1 "p")) := by decide +kernel
  have hwritable : Encoder.Writable { path := "v", overwrite := true } desk.workspace desk.workspace :=
    ⟨rfl, .inl rfl, by rw [Encoder.handOver, if_neg (by simp), if_neg (by decide)]⟩
  obtain ⟨video, _, _, hfinished, hsize, _, hpictures⟩ :=
    video_matches_pictures hrender openScene_desk rfl ⟨rfl, rfl⟩ steps_spark rfl ⟨rfl, rfl⟩ hwritable
  obtain ⟨picture, hchunk, hcommand⟩ := hpictures 1 (by decide)
  have hwritten := hcommand desk _ "p" _ hframe openScene_desk (stored_desk picture)
  exact ⟨video, picture, hfinished, hsize, hchunk, by rw [hwritten]⟩

end CommandLine

end ParticleFx
