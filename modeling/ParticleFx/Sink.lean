import ParticleFx.Action
import ParticleFx.Frame
import ParticleFx.Timing

namespace ParticleFx

-- What a sink is told before the first frame.
structure SinkConfig where
  width : Nat
  height : Nat
  fps : Fps
deriving DecidableEq

-- A consumer of frames: any state machine with these three inputs, each of which it may refuse.
structure Sink (σ : Type) where
  start : SinkConfig → Act σ Unit
  push : Nat → Frame → Act σ Unit
  finish : Act σ Unit

-- Everything a sink in memory has been given.
structure Recording where
  config : Option SinkConfig := none
  frames : Array (Nat × Frame) := #[]
  finished : Bool := false
deriving DecidableEq

namespace Recording

def sink : Sink Recording where
  start config := Act.modify fun _ => { config := some config }
  push index frame := Act.modify fun r => { r with frames := r.frames.push (index, frame) }
  finish := Act.modify fun r => { r with finished := true }

end Recording

-- One of the calls of a sink.
inductive Sink.Call where
  | start
  | push (index : Nat)
  | finish
deriving DecidableEq

-- A sink that refuses one call before it reaches the sink behind it.
def Sink.refusing {σ : Type} (call : Sink.Call) (reason : String) (s : Sink σ) : Sink σ where
  start config := if call = .start then Act.fail (.refused reason) else s.start config
  push index frame := if call = .push index then Act.fail (.refused reason) else s.push index frame
  finish := if call = .finish then Act.fail (.refused reason) else s.finish

end ParticleFx
