import ParticleFx.Document.Scene
import ParticleFx.Sink.Encoder
import ParticleFx.Timeline

namespace ParticleFx.CommandLine

-- What can be asked for: one frame as a picture, or the scene as a video.
inductive Command where
  | frame (input : String) (index : Nat) (output : String)
  | render (input output : String) (overwrite : Bool)
deriving DecidableEq

inductive Invocation where
  | command (c : Command)
  | version
  | help
deriving DecidableEq

-- A decimal number below a limit; a plus sign may lead.
def number? (limit : Nat) (text : String) : Option Nat :=
  let ds := match text.toList with
    | '+' :: rest => rest
    | cs => cs
  let n := Json.Literal.digitsValue ds
  if ds ≠ [] && ds.all Char.isDigit && decide (n < limit) then some n else none

-- The options given, by name; `none` for help.
abbrev Options := Option (List (String × String))

-- An option's name and the value after its equals sign.
def splitOption (arg : String) : String × Option String :=
  let cs := arg.toList
  let name := cs.takeWhile (· ≠ '=')
  match cs.dropWhile (· ≠ '=') with
  | [] => (String.ofList name, none)
  | _ :: value => (String.ofList name, some (String.ofList value))

def looksLikeOption (arg : String) : Bool :=
  match arg.toList with
  | ['-'] => false
  | '-' :: _ => true
  | _ => false

-- The letter that leads a bundle of short options. Whatever it stands for comes first.
def leadingLetter? (arg : String) : Option Char :=
  match arg.toList with
  | '-' :: c :: _ => if c = '-' then none else some c
  | _ => none

def asksForHelp (arg : String) : Bool :=
  arg = "--help" || leadingLetter? arg = some 'h'

def asksForVersion (arg : String) : Bool :=
  arg = "--version" || leadingLetter? arg = some 'V'

-- An option that takes a value, and which values make sense.
structure Valued where
  name : String
  accepts : String → Bool

def pathOption (name : String) : Valued := ⟨name, (· ≠ "")⟩
def indexOption (name : String) : Valued := ⟨name, fun value => (number? UInt64.size value).isSome⟩

-- Reads options up to the end or up to a call for help. Each may be given once with a value that
-- makes sense, and nothing else may stand between them.
def options (valued : List Valued) (flags : List String) :
    List (String × String) → List String → Option Options
  | seen, [] => some (some seen)
  | seen, arg :: rest =>
    if asksForHelp arg then some none
    else if arg = "--" then if rest = [] then some (some seen) else none
    else
      match splitOption arg with
      | (name, given) =>
        if (seen.lookup name).isSome then none
        else if flags.contains name && given.isNone then
          options valued flags ((name, "") :: seen) rest
        else
          match valued.find? (·.name = name) with
          | none => none
          | some option =>
            match given, rest with
            | some value, rest =>
              if option.accepts value then options valued flags ((name, value) :: seen) rest else none
            | none, [] => none
            | none, value :: rest =>
              if looksLikeOption value || !option.accepts value then none
              else options valued flags ((name, value) :: seen) rest

def frameCommand (seen : List (String × String)) : Option Command := do
  let input ← seen.lookup "--in"
  let index ← number? UInt64.size (← seen.lookup "--frame")
  let output ← seen.lookup "--out"
  return .frame input index output

def renderCommand (seen : List (String × String)) : Option Command := do
  let input ← seen.lookup "--in"
  let output ← seen.lookup "--out"
  return .render input output (seen.lookup "--overwrite").isSome

def invocation (read : List (String × String) → Option Command) : Options → Option Invocation
  | none => some .help
  | some seen => (read seen).map .command

-- Help can be had on every command, itself included.
def commandNames : List String := ["frame", "render", "help"]

-- `none` when the arguments make no sense.
def parse : List String → Option Invocation
  | [] => none
  | arg :: rest =>
    if asksForVersion arg then some .version
    else if asksForHelp arg then some .help
    else if arg = "help" then
      match rest with
      | [] => some .help
      | [name] => if commandNames.contains name then some .help else none
      | _ => none
    else if arg = "frame" then do
      let valued := [pathOption "--in", indexOption "--frame", pathOption "--out"]
      invocation frameCommand (← options valued [] [] rest)
    else if arg = "render" then do
      let valued := [pathOption "--in", pathOption "--out"]
      invocation renderCommand (← options valued ["--overwrite"] [] rest)
    else none

-- What a finished command leaves behind.
structure Outcome where
  code : Nat
  stdout : String := ""
  stderr : String := ""
  studio : Studio
deriving DecidableEq

-- A failure: what was being done, and why it did not work if that is another matter.
structure Failure where
  top : String
  cause : Option String := none
  code : Nat := 1

-- Every line four places to the right.
def indented (text : String) : String :=
  "    " ++ "\n    ".intercalate (text.splitOn "\n")

def Failure.text (f : Failure) : String :=
  match f.cause with
  | none => s!"Error: {f.top}\n"
  | some cause => s!"Error: {f.top}\n\nCaused by:\n{indented cause}\n"

-- A draw that cannot be made ends the program at once.
def plain (f : Fault) : Failure :=
  { top := f.message, code := if f.kind = .aborted then 101 else 1 }

def during (top : String) (f : Fault) : Failure := { top, cause := some f.message }

def openScene (w : Workspace) (path : String) : Except Fault Scene :=
  match w.readText path with
  | .ok text => Scene.ofText text
  | .error .isDirectory => .error (.sceneUnreadable (.malformed .isDirectory))
  | .error why => .error (.sceneNotOpened path why)

def loadScene (w : Workspace) (path : String) : Except Failure Scene :=
  match openScene w path with
  | .error e => .error (during s!"load scene '{path}'" e)
  | .ok scene =>
    match scene.validate with
    | .error e => .error (during s!"validate scene '{path}'" e)
    | .ok () => .ok scene

-- The line to print on success, and the studio afterwards either way.
def frame (input : String) (index : Nat) (output : String) (s : Studio) :
    Except Failure String × Studio :=
  match loadScene s.workspace input with
  | .error e => (.error e, s)
  | .ok scene =>
    match scene.renderFrame index with
    | .error e => (.error (plain e), s)
    | .ok picture =>
      match Workspace.makeParent output s.workspace with
      | (.error e, workspace) => (.error (plain e), { s with workspace })
      | (.ok (), workspace) =>
        match workspace.write output (.image picture) with
        | .error why =>
          (.error { top := s!"write png '{output}'", cause := some why.message }, { s with workspace })
        | .ok workspace => (.ok s!"wrote {output}\n", { s with workspace })

def render (input output : String) (overwrite : Bool) (s : Studio) :
    Except Failure String × Studio :=
  match loadScene s.workspace input with
  | .error e => (.error e, s)
  | .ok scene =>
    let o : EncoderOptions := { path := output, overwrite, background := scene.background.withAlpha 255 }
    match scene.render (Encoder.sink o) s with
    | (.error e, s) => (.error (plain e), s)
    | (.ok stats, s) =>
      (.ok s!"wrote {output} ({stats.frames} frames, peak {stats.peakParticles} particles)\n", s)

def perform : Command → Studio → Except Failure String × Studio
  | .frame input index output => frame input index output
  | .render input output overwrite => render input output overwrite

def versionText : String := "wavyte-vfx 0.1.0\n"

def helpText : String :=
  "Usage: wavyte-vfx <COMMAND>\n\nCommands:\n" ++
  "  frame   Render a single frame of a scene as a PNG: --in <IN> --frame <FRAME> --out <OUT>\n" ++
  "  render  Render a scene to MP4: --in <IN> --out <OUT> [--overwrite]\n"

-- Runs the arguments. Ones that make no sense end with code 2 before anything is touched.
def run (args : List String) (s : Studio) : Outcome :=
  match parse args with
  | none => { code := 2, stderr := helpText, studio := s }
  | some .version => { code := 0, stdout := versionText, studio := s }
  | some .help => { code := 0, stdout := helpText, studio := s }
  | some (.command c) =>
    match perform c s with
    | (.ok line, s) => { code := 0, stderr := line, studio := s }
    | (.error e, s) => { code := e.code, stderr := e.text, studio := s }

end ParticleFx.CommandLine
