import ParticleFx.Number.Word
import ParticleFx.Sink
import ParticleFx.Text.Blank
import ParticleFx.Workspace

namespace ParticleFx

-- The external video program: whether it answers at all, and how it ends.
structure EncoderProgram where
  available : Bool := true
  status : Nat := 0
  log : String := ""
deriving DecidableEq

structure EncoderOptions where
  path : String
  overwrite : Bool := true
  background : Color := .black
deriving DecidableEq

-- A started program: its arguments, what it was started for, every byte written to it, and the
-- last frame among them.
structure EncoderRun where
  arguments : List String
  config : SinkConfig
  stream : Array UInt8 := #[]
  last : Option Nat := none
deriving DecidableEq

-- The files, the program, the run that is going on and the runs that are over, newest first.
structure Studio where
  workspace : Workspace := {}
  program : EncoderProgram := {}
  running : Option EncoderRun := none
  finished : List EncoderRun := []
deriving DecidableEq

namespace Encoder

-- The pixel format halves both dimensions.
def validate (c : SinkConfig) : Except Fault Unit :=
  if c.fps.num = 0 ∨ c.fps.den = 0 then .error .zeroRate
  else if c.width = 0 ∨ c.height = 0 ∨ c.width % 2 ≠ 0 ∨ c.height % 2 ≠ 0 then
    .error (.oddDimensions c.width c.height)
  else .ok ()

-- The rate of raw input has to come before the input.
def arguments (o : EncoderOptions) (c : SinkConfig) : List String :=
  [if o.overwrite then "-y" else "-n", "-loglevel", "error", "-f", "rawvideo", "-pix_fmt", "rgba",
    "-s", s!"{c.width}x{c.height}", "-r", s!"{c.fps.num}/{c.fps.den}", "-i", "pipe:0", "-an",
    "-c:v", "libx264", "-pix_fmt", "yuv420p", "-movflags", "+faststart", o.path]

-- Every pixel on the solid background.
def flatten (background : Color) (data : Array UInt8) : Array UInt8 :=
  Array.ofFn fun k : Fin data.size =>
    ((Frame.colorAt data (k / 4)).flattened background).channel (k % 4)

-- The first length, in bytes, that an argument may not have.
def argumentLimit : Nat := 131072

-- Whether the program can be handed the path at all.
def handOver (path : String) : Except Fault Unit :=
  if path.contains '\x00' then .error .argumentZeroByte
  else if argumentLimit ≤ path.utf8ByteSize then .error .argumentTooLong
  else .ok ()

-- The bytes that every frame is flattened into.
def frameBytes (c : SinkConfig) : Nat := c.width * c.height * 4

-- The program is started first, and then the bytes for its frames are asked for.
def start (o : EncoderOptions) (c : SinkConfig) : Act Studio Unit := do
  Act.check (validate c)
  Act.focus Studio.workspace (fun workspace s => { s with workspace }) (Workspace.makeParent o.path)
  let s ← Act.get
  if !o.overwrite && s.workspace.has o.path then Act.fail (.outputExists o.path)
  else if !s.program.available then Act.fail .encoderMissing
  else do
    Act.check (handOver o.path)
    Act.check (Word.allocate (frameBytes c))
    let running := some { arguments := arguments o c, config := c }
    Act.modify fun s => { s with running, finished := s.running.toList ++ s.finished }

-- A frame is written whole or not at all.
def write (background : Color) (index : Nat) (f : Frame) (run : EncoderRun) :
    Except Fault EncoderRun :=
  let c := run.config
  match run.last.filter fun last => decide (index ≤ last) with
  | some last => .error (.outOfOrder index last)
  | none =>
    if f.width ≠ c.width ∨ f.height ≠ c.height then
      .error (.encoderSize f.width f.height c.width c.height)
    else if f.data.size ≠ frameBytes c then .error (.cannotFlatten f.data.size (frameBytes c))
    else .ok { run with stream := run.stream ++ flatten background f.data, last := some index }

def push (o : EncoderOptions) (index : Nat) (f : Frame) : Act Studio Unit := fun s =>
  match s.running with
  | none => (.error .notRunning, s)
  | some run =>
    match write o.background index f run with
    | .error e => (.error e, s)
    | .ok run => (.ok (), { s with running := some run })

-- The run is over whether the program succeeded or not.
def finish : Act Studio Unit := fun s =>
  match s.running with
  | none => (.error .notRunning, s)
  | some run =>
    let s := { s with running := none, finished := run :: s.finished }
    if s.program.status = 0 then (.ok (), s)
    else (.error (.encoderFailed s.program.status (Text.trim s.program.log)), s)

def sink (o : EncoderOptions) : Sink Studio where
  start := start o
  push := push o
  finish := finish

end Encoder

end ParticleFx
