import ParticleFx.Action
import ParticleFx.Color
import ParticleFx.CommandLine
import ParticleFx.Document.Effect
import ParticleFx.Document.Particle
import ParticleFx.Document.Scene
import ParticleFx.Document.Values
import ParticleFx.Effect.Apply
import ParticleFx.Effect.Blur
import ParticleFx.Effect.Kernel
import ParticleFx.Effect.Request
import ParticleFx.Effect.Spelling
import ParticleFx.Engine
import ParticleFx.Fault
import ParticleFx.Frame
import ParticleFx.Frame.Circle
import ParticleFx.Geometry
import ParticleFx.Json.Codec
import ParticleFx.Json.Datum
import ParticleFx.Json.DecodeError
import ParticleFx.Json.Literal
import ParticleFx.Json.Malformed
import ParticleFx.Json.Parser
import ParticleFx.Json.Record
import ParticleFx.Json.Tree
import ParticleFx.Main
import ParticleFx.Number.Binary
import ParticleFx.Number.Decimal
import ParticleFx.Number.Exponential
import ParticleFx.Number.Remainder
import ParticleFx.Number.Rounding
import ParticleFx.Number.Word
import ParticleFx.Particle.Clock
import ParticleFx.Particle.Motion
import ParticleFx.Particle.Template
import ParticleFx.ParticleSystem
import ParticleFx.Picture
import ParticleFx.Random.Keystream
import ParticleFx.Random.Source
import ParticleFx.Scene
import ParticleFx.Sink
import ParticleFx.Sink.Encoder
import ParticleFx.Text.Blank
import ParticleFx.Text.Quoted
import ParticleFx.Text.Shown
import ParticleFx.Timeline
import ParticleFx.Timing
import ParticleFx.Workspace
import ParticleFx.Proofs.Action
import ParticleFx.Proofs.Sink.Log
import ParticleFx.Proofs.Timeline.Trace
import ParticleFx.Proofs.Timeline.Outcome
import ParticleFx.Proofs.Timeline.Protocol
import ParticleFx.Proofs.Scene.Validity
import ParticleFx.Proofs.Timeline.Recording
import ParticleFx.Proofs.Engine.Faults
import ParticleFx.Proofs.Engine.Operations
import ParticleFx.Proofs.Timeline.Layout
import ParticleFx.Proofs.Timeline.Bursts
import ParticleFx.Proofs.Timeline.Composite
import ParticleFx.Proofs.Timeline.Crowd
import ParticleFx.Proofs.Engine.Calls
import ParticleFx.Proofs.Timeline.Causality
import ParticleFx.Proofs.Engine.Pictures
import ParticleFx.Proofs.Engine.Queue
import ParticleFx.Proofs.Engine.Rejection
import ParticleFx.Proofs.Timeline.BurstOrder
import ParticleFx.Proofs.Timeline.Simulation
import ParticleFx.Proofs.Effect.Shape
import ParticleFx.Proofs.Engine.Handles
import ParticleFx.Proofs.Effect.Acceptance
import ParticleFx.Proofs.Engine.Readiness
import ParticleFx.Proofs.Sink.Discipline
import ParticleFx.Proofs.CommandLine.Outputs
import ParticleFx.Proofs.Particle.Emission
import ParticleFx.Proofs.Particle.Histories
import ParticleFx.Proofs.Json.Literals
import ParticleFx.Proofs.Json.Written
import ParticleFx.Proofs.Json.Format
import ParticleFx.Proofs.Json.Order
import ParticleFx.Proofs.Number.Exactness
import ParticleFx.Proofs.Number.Widening
import ParticleFx.Proofs.Json.Exact
import ParticleFx.Proofs.Json.RecordFormat
import ParticleFx.Proofs.Document.RoundTrip
import ParticleFx.Proofs.Effect.Spellings
import ParticleFx.Proofs.Number.Magnitude
import ParticleFx.Proofs.Particle.Draws
import ParticleFx.Proofs.Particle.Extremes
import ParticleFx.Proofs.Particle.Births
import ParticleFx.Proofs.Frame.Layers
import ParticleFx.Proofs.Effect.Bell
import ParticleFx.Proofs.Effect.Convolution
import ParticleFx.Proofs.Frame.Bytes
import ParticleFx.Proofs.Effect.Weights
import ParticleFx.Proofs.Effect.Overshoot
import ParticleFx.Proofs.Effect.Mirror
import ParticleFx.Proofs.Random.Range
import ParticleFx.Proofs.Effect.Rotation
import ParticleFx.Proofs.Effect.Translation
import ParticleFx.Proofs.Number.Order
import ParticleFx.Proofs.Number.Accuracy
import ParticleFx.Proofs.Number.Amount
import ParticleFx.Proofs.Number.Decay
import ParticleFx.Proofs.Effect.Masking
import ParticleFx.Proofs.Color.Overlay
import ParticleFx.Proofs.Sink.Flattening
import ParticleFx.Proofs.Frame.Circle
import ParticleFx.Proofs.Scene.Schedule
