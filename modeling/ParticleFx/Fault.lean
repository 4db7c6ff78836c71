import ParticleFx.Json.DecodeError

namespace ParticleFx

-- Why the workspace refuses an operation on a path.
inductive PathFault where
  | notFound
  | occupied
  | notDirectory
  | isDirectory
  | nameTooLong
  | zeroByte
deriving DecidableEq

def PathFault.message : PathFault → String
  | notFound => "No such file or directory (os error 2)"
  | occupied => "File exists (os error 17)"
  | notDirectory => "Not a directory (os error 20)"
  | isDirectory => "Is a directory (os error 21)"
  | nameTooLong => "File name too long (os error 36)"
  | zeroByte => "file name contained an unexpected NUL byte"

-- Everything that can go wrong, by cause.
inductive Fault where
  -- rates and ranges
  | rangeReversed
  | zeroRateDen
  | zeroRateNum
  -- frames
  | frameTooLarge
  | frameBytes (found expected width height : Nat)
  | frameMismatch
  -- particle configurations
  | notFinite (name : String)
  | notFiniteOrNegative (name : String)
  | negativeVelocityRandom
  | lifetimeNotPositive
  | lifetimeRandomTooLarge
  | badTimeStep
  -- effect requests
  | glowRadius (most : Nat)
  | motionBlurStrength
  | glitchNegative
  | radialStrength (most : Nat)
  | emptyKind
  | unsupportedKind (kind : String)
  | badParams (kind : String) (why : Json.DecodeError)
  -- effects
  | sizesDiffer (width height otherWidth otherHeight : Nat)
  | shakeOutOfRange
  | radialStrengthTooLarge (most : Nat)
  | blurTooLarge
  | blurBytes (found width height expected : Nat)
  | blurRadius (radius most : Nat)
  | blurSigma
  | kernelSum
  -- the end of the program: a number that leaves its word, more memory than there can be, or a range
  -- that is too wide to draw from
  | aborted
  -- scenes
  | emptyCanvas
  | zeroDuration
  | emitterConfig (index : Nat) (cause : Fault)
  | emitterMotion (index : Nat)
  | burstEmitter (index emitter count : Nat)
  | burstOutside (index frame duration : Nat)
  | burstBeforeStart (index frame emitter start : Nat)
  | scheduledRequest (index : Nat) (cause : Fault)
  | scheduledRange (index duration : Nat)
  | scheduledEvery (index : Nat)
  | sceneNotOpened (path : String) (why : PathFault)
  | sceneUnreadable (why : Json.DecodeError)
  -- timelines
  | frameOutside (frame duration : Nat)
  | burstTooEarly (frame emitter : Nat)
  -- encoding
  | zeroRate
  | oddDimensions (width height : Nat)
  | noDirectory (path : String) (why : PathFault)
  | outputExists (path : String)
  | encoderMissing
  | argumentZeroByte
  | argumentTooLong
  | notRunning
  | outOfOrder (index last : Nat)
  | encoderSize (width height wantedWidth wantedHeight : Nat)
  | cannotFlatten (source target : Nat)
  | encoderFailed (status : Nat) (log : String)
  | refused (reason : String)
deriving DecidableEq

namespace Fault

inductive Kind where
  | validation
  | unsupportedEffect
  | evaluation
  | encode
  | document
  | aborted
deriving DecidableEq

def kind : Fault → Kind
  | unsupportedKind _ => .unsupportedEffect
  | blurTooLarge | blurBytes .. | kernelSum => .evaluation
  | aborted => .aborted
  | sceneUnreadable _ => .document
  | encoderMissing | argumentZeroByte | argumentTooLong | notRunning | outOfOrder ..
  | encoderFailed .. | refused _ => .encode
  | _ => .validation

def Kind.heading : Kind → String
  | .validation => "validation error: "
  | .evaluation => "evaluation error: "
  | .encode => "encode error: "
  | .document => "serialization error: "
  | .unsupportedEffect | .aborted => ""

-- The cause in words. A cause inside another is shown with its heading.
def describe : Fault → String
  | rangeReversed => "FrameRange start must be <= end"
  | zeroRateDen => "Fps den must be > 0"
  | zeroRateNum => "Fps num must be > 0"
  | frameTooLarge => "frame buffer size overflow"
  | frameBytes found expected width height =>
    s!"frame data has {found} bytes, expected {expected} for {width}x{height}"
  | frameMismatch => "frame data size mismatch with width*height*4"
  | notFinite name => s!"{name} must be finite"
  | notFiniteOrNegative name => s!"{name} must be finite and >= 0"
  | negativeVelocityRandom => "particle.velocity_random must be >= 0 on both axes"
  | lifetimeNotPositive => "particle.lifetime must be finite and > 0"
  | lifetimeRandomTooLarge => "particle.lifetime_random must be < particle.lifetime"
  | badTimeStep => "update dt must be finite and >= 0"
  | glowRadius most => s!"glow.radius must be <= {most}"
  | motionBlurStrength => "motion_blur.strength must be within [0, 1]"
  | glitchNegative => "glitch.intensity must be >= 0"
  | radialStrength most => s!"radial_blur.strength must be within [0, {most}]"
  | emptyKind => "effect kind must be non-empty"
  | unsupportedKind kind => s!"unsupported effect kind '{kind}'"
  | badParams kind why => s!"invalid params for effect '{kind}': " ++ why.message
  | sizesDiffer width height otherWidth otherHeight =>
    s!"motion blur expects equal frame sizes, got {width}x{height} and {otherWidth}x{otherHeight}"
  | shakeOutOfRange => "shake intensity is out of range"
  | radialStrengthTooLarge most => s!"radial blur strength must be <= {most}"
  | blurTooLarge => "blur buffer size overflow"
  | blurBytes found width height expected =>
    s!"blur buffer holds {found} bytes, {width}x{height} RGBA needs {expected}"
  | blurRadius radius most => s!"blur radius {radius} exceeds {most}"
  | blurSigma => "blur sigma must be > 0"
  | kernelSum => "gaussian kernel sum is zero"
  | aborted => "the program was aborted"
  | emptyCanvas => "canvas width/height must be non-zero"
  | zeroDuration => "duration must be > 0"
  | emitterConfig index cause =>
    s!"emitters[{index}]: " ++ cause.kind.heading ++ cause.describe
  | emitterMotion index => s!"emitters[{index}].motion must be finite"
  | burstEmitter index emitter count =>
    s!"bursts[{index}] references emitter {emitter} but only {count} are defined"
  | burstOutside index frame duration =>
    s!"bursts[{index}].frame {frame} is outside duration {duration}"
  | burstBeforeStart index frame emitter start =>
    s!"bursts[{index}] fires on frame {frame} but emitter {emitter} starts on frame {start}"
  | scheduledRequest index cause =>
    s!"effects[{index}]: " ++ cause.kind.heading ++ cause.describe
  | scheduledRange index duration => s!"effects[{index}].range must lie within [0, {duration}]"
  | scheduledEvery index => s!"effects[{index}].every must be >= 1"
  | sceneNotOpened path why => s!"open scene JSON '{path}': " ++ why.message
  | sceneUnreadable why => "parse scene JSON: " ++ why.message
  | frameOutside frame duration => s!"frame {frame} is outside duration {duration}"
  | burstTooEarly frame emitter => s!"burst on frame {frame} fires before emitter {emitter} starts"
  | zeroRate => "fps must be non-zero"
  | oddDimensions width height =>
    s!"MP4 output needs even, non-zero dimensions, got {width}x{height}"
  | noDirectory path why => s!"create directory '{path}': " ++ why.message
  | outputExists path => s!"'{path}' exists and overwrite is off"
  | encoderMissing => "ffmpeg was not found on PATH"
  | argumentZeroByte => "spawn ffmpeg: nul byte found in provided data"
  | argumentTooLong => "spawn ffmpeg: Argument list too long (os error 7)"
  | notRunning => "ffmpeg sink is not running"
  | outOfOrder index last => s!"frame {index} arrived after frame {last}"
  | encoderSize width height wantedWidth wantedHeight =>
    s!"frame is {width}x{height}, encoder expects {wantedWidth}x{wantedHeight}"
  | cannotFlatten source target => s!"cannot flatten {source} bytes into {target}"
  | encoderFailed status log => s!"ffmpeg failed (exit status: {status}): {log}"
  | refused reason => reason

def message (f : Fault) : String :=
  f.kind.heading ++ f.describe

end Fault

end ParticleFx
