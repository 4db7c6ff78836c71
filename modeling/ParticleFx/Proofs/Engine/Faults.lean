import ParticleFx.Engine
import ParticleFx.Proofs.Action

namespace ParticleFx

open Act (FailsOnly)

variable {α β σ : Type}

-- A fault that is not about when a burst fires.
def Fault.NotEarly (e : Fault) : Prop :=
  ∀ frame emitter, e ≠ .burstTooEarly frame emitter

namespace Frame

theorem notEarly_byteCount (width height : Nat) : ErrsOnly Fault.NotEarly (byteCount width height) := by
  unfold byteCount
  split
  · exact .ok _
  · exact .error nofun

theorem notEarly_validate (f : Frame) : ErrsOnly Fault.NotEarly f.validate :=
  .bind (notEarly_byteCount _ _) fun _ => .ite (.ok _) (.error nofun)

section

variable {p : Fault → Prop} (hp : p .aborted)

include hp

theorem errsOnly_layAt (width : Nat) (c : Color) (x y : Nat)
    (data : Array UInt8) : ErrsOnly p (layAt width c x y data) :=
  .bind (.unsigned hp _) fun _ => .bind (.unsigned hp _) fun _ => .bind (.unsigned hp _) fun _ =>
    .bind (.unsigned hp _) fun _ => .ite (.ok _) (.error hp)

theorem errsOnly_paintRow (width : Nat) (cx cy square : Int) (c : Color)
    (x0 x1 y : Nat) (data : Array UInt8) : ErrsOnly p (paintRow width cx cy square c x0 x1 y data) :=
  .bind (.signed hp _) fun _ => .foldlM (fun _ _ =>
    .bind (.signed hp _) fun _ => .bind (.signed hp _) fun _ => .bind (.signed hp _) fun _ =>
      .bind (.signed hp _) fun _ => .ite (.ok _) (errsOnly_layAt hp _ _ _ _ _)) _ _

-- Nothing else can end a circle than a number that leaves its word, or a byte that is not there.
theorem errsOnly_fillCircle (f : Frame) (cx cy : Int) (radius : Nat)
    (c : Color) : ErrsOnly p (f.fillCircle cx cy radius c) :=
  .ite (.ok f) <| .bind (.signed hp _) fun _ => .bind (.signed hp _) fun _ => .bind (.signed hp _) fun _ =>
    .bind (.signed hp _) fun _ => .bind (.signed hp _) fun _ =>
      .bind (.foldlM (fun _ _ => errsOnly_paintRow hp _ _ _ _ _ _ _ _ _) _ _) fun _ => .ok _

end

end Frame

theorem EffectRequest.notEarly_finite (name : String) (x : Float32) : ErrsOnly Fault.NotEarly (finite name x) :=
  .ite (.ok _) (.error nofun)

theorem EffectRequest.notEarly_validate (r : EffectRequest) : ErrsOnly Fault.NotEarly r.validate := by
  cases r with
  | shake p => exact .ok _
  | glow p | motionBlur p | glitch p =>
      exact .bind (notEarly_finite _ _) fun _ => .ite (.error nofun) (.ok _)
  | radialBlur p =>
      refine .bind (notEarly_finite _ _) fun _ => .ite (.bind (.error nofun) fun _ => ?_) ?_
      · exact .ite (.error nofun) (.ok _)
      · exact .ite (.error nofun) (.ok _)

theorem Kernel.notEarly_taps (exp : Float → Float) (radius : Nat) (sigma : Float32) :
    ErrsOnly Fault.NotEarly (taps exp radius sigma) :=
  .ite (.error nofun) (.ite (.ok _) (.error nofun))

theorem Blur.notEarly_frame (f : Frame) (size : Nat) : ErrsOnly Fault.NotEarly (Blur.frame f size) := by
  refine .bind ?_ fun _ => .ok _
  unfold Blur.bytes
  split
  · exact .error nofun
  · refine .ite (.error nofun) (.ite (.error nofun) (.ite (.ok _) ?_))
    exact .bind (Kernel.notEarly_taps _ _ _) fun _ => .ok _

namespace Effect

theorem notEarly_glow (f : Frame) (intensity : Float32) (radius : Nat) :
    ErrsOnly Fault.NotEarly (glow f intensity radius) :=
  .bind f.notEarly_validate fun _ => .bind (Blur.notEarly_frame _ _) fun _ => .ok _

theorem notEarly_motionBlur (f previous : Frame) (strength : Float32) :
    ErrsOnly Fault.NotEarly (motionBlur f previous strength) :=
  .bind f.notEarly_validate fun _ => .bind previous.notEarly_validate fun _ =>
    .ite (.ok _) (.error nofun)

theorem validate_of_shakeBy_error {f : Frame} {dx dy : Int} {e : Fault} (h : shakeBy f dx dy = .error e) :
    f.validate = .error e := by
  cases hf : f.validate with
  | error e' =>
      rw [shakeBy, hf] at h
      obtain rfl : e' = e := Except.error.inj h
      rfl
  | ok _ =>
      rw [shakeBy, hf] at h
      cases h

theorem notEarly_radialBlur (f : Frame) (center : Option Vec2) (strength : Float32) (mask : Bool) :
    ErrsOnly Fault.NotEarly (radialBlur f center strength mask) := by
  have hblend (scaled : Float32) : ErrsOnly Fault.NotEarly (do
      let blurred ← Blur.frame f radialKernel
      let data := blends scaled blurred.data scaled.toUInt32.toNat f.data
      return { f with data := if mask then masked f (center.getD (middle f)) data else data }) :=
    .bind (Blur.notEarly_frame _ _) fun _ => .ok _
  refine .bind f.notEarly_validate fun _ => .ite (.bind (.error nofun) fun _ => ?_) ?_
  · exact .ite (.ok _) (hblend _)
  · exact .ite (.ok _) (hblend _)

end Effect

namespace Source

variable {p : Fault → Prop}

theorem failsOnly_word : FailsOnly p word := by
  intro s e t h
  cases h

theorem failsOnly_doubleWord : FailsOnly p doubleWord :=
  .bind failsOnly_word fun _ => .bind failsOnly_word fun _ => .pure _

theorem failsOnly_integer (lo hi : Int) : FailsOnly p (integer lo hi) := by
  unfold integer
  split
  · exact .pure _
  · dsimp only
    split
    · exact .bind failsOnly_word fun _ => .pure _
    · refine .bind failsOnly_word fun _ => ?_
      split
      · exact .bind failsOnly_word fun _ => .pure _
      · exact .pure _

theorem failsOnly_chance (x : Float) : FailsOnly p (chance x) := by
  unfold chance
  split
  · exact .pure _
  · split
    · exact .pure _
    · exact .bind failsOnly_doubleWord fun _ => .pure _

-- The one thing that can go wrong with a draw is the width of its range.
theorem failsOnly_between (hp : p .aborted) (lo hi : Float) : FailsOnly p (between lo hi) := by
  unfold between
  split
  · exact .bind failsOnly_doubleWord fun _ => .pure _
  · exact .fail hp

theorem failsOnly_jitter (hp : p .aborted) (half : Float) : FailsOnly p (jitter half) := by
  unfold jitter
  split
  · exact .pure _
  · exact failsOnly_between hp _ _

theorem failsOnly_float (hp : p .aborted) (lo hi : Float) : FailsOnly p (float lo hi) := by
  unfold float
  split
  · exact .pure _
  · exact failsOnly_between hp _ _

end Source

theorem Particle.failsOnly_spawn {p : Fault → Prop} (hp : p .aborted) (t : Template)
    (emitter : Vec2) : FailsOnly p (spawn t emitter) :=
  .bind (Source.failsOnly_jitter hp _) fun _ => .bind (Source.failsOnly_jitter hp _) fun _ =>
    .bind (Source.failsOnly_jitter hp _) fun _ => .bind (Source.failsOnly_jitter hp _) fun _ =>
    .bind (Source.failsOnly_jitter hp _) fun _ => .bind (Source.failsOnly_jitter hp _) fun _ =>
    .bind (Source.failsOnly_float hp _ _) fun _ => .pure _

namespace ParticleSystem

variable {p : Fault → Prop}

theorem failsOnly_draws {x : ParticleSystem → Act Source α} (hx : ∀ s, FailsOnly p (x s)) :
    FailsOnly p (draws x) := by
  intro s e t h
  simp only [draws, Prod.mk.injEq] at h
  exact hx s s.source e _ (Prod.ext h.1 rfl)

theorem failsOnly_reserve (hp : p .aborted) (count : Nat) : FailsOnly p (reserve count) := by
  intro s e t h
  exact ErrsOnly.ite (.ok ()) (.allocate hp _) e (congrArg Prod.fst h)

theorem failsOnly_emitEach (hp : p .aborted) (n : Nat) : FailsOnly p (emitEach n) := by
  induction n with
  | zero => exact .pure ()
  | succ n ih =>
      exact .bind (failsOnly_draws fun _ => Particle.failsOnly_spawn hp _ _) fun _ =>
        .bind (.modify _) fun _ => ih

theorem failsOnly_emit (hp : p .aborted) (n : Nat) : FailsOnly p (emit n) :=
  .bind (failsOnly_reserve hp n) fun _ => failsOnly_emitEach hp n

theorem failsOnly_emitRadialFrom (hp : p .aborted) (count left : Nat) :
    FailsOnly p (emitRadialFrom count left) := by
  induction left with
  | zero => exact .pure ()
  | succ left ih =>
      exact .bind (failsOnly_draws fun _ => Source.failsOnly_float hp _ _) fun _ =>
        .bind (failsOnly_draws fun _ => Particle.failsOnly_spawn hp _ _) fun _ =>
        .bind (.modify _) fun _ => ih

theorem failsOnly_emitRadial (hp : p .aborted) (count : Nat) : FailsOnly p (emitRadial count) :=
  .bind (failsOnly_reserve hp count) fun _ => failsOnly_emitRadialFrom hp count count

theorem failsOnly_emitDue (hp : p .aborted) (dt : Float) : FailsOnly p (emitDue dt) := by
  refine .bind .get fun s => ?_
  cases s.config.interval? with
  | none => exact .pure ()
  | some interval =>
      refine .bind .get fun s => .bind (.modify _) fun _ => ?_
      split
      · exact .bind (failsOnly_emit hp 1) fun _ => .modify _
      · exact .pure ()

theorem failsOnly_update (hp : p .aborted) (ht : p .badTimeStep) (dt : Float) :
    FailsOnly p (update dt) := by
  unfold update
  split
  · exact .fail ht
  · exact .bind (failsOnly_emitDue hp dt) fun _ => .modify _

end ParticleSystem

theorem Particle.errsOnly_draw {p : Fault → Prop} (hp : p .aborted) (f : Frame) (particle : Particle) :
    ErrsOnly p (particle.draw f) :=
  .ite (f.errsOnly_fillCircle hp _ _ _ _) (.ok f)

theorem Engine.errsOnly_drawAll {p : Fault → Prop} (hp : p .aborted)
    (systems : List (SystemId × ParticleSystem)) (f : Frame) : ErrsOnly p (drawAll systems f) := by
  unfold drawAll
  refine .foldlM ?_ systems f
  rintro f ⟨_, s⟩
  exact .foldlM (Particle.errsOnly_draw hp) _ f

namespace Effect

section

variable {p : Fault → Prop} {f : Frame} (hf : ErrsOnly p f.validate)

include hf

theorem failsOnly_shake {intensity : Nat} (hrange : 0x80000000 ≤ intensity → p .shakeOutOfRange) :
    FailsOnly p (shake f intensity) := by
  unfold shake
  split
  · rename_i hlarge
    exact .fail (hrange hlarge)
  · refine .bind (Source.failsOnly_integer _ _) fun _ => .bind (Source.failsOnly_integer _ _) fun _ => ?_
    exact .check fun e h => hf e (validate_of_shakeBy_error h)

theorem failsOnly_glitch {intensity : Float32}
    (hsplit : f.width ≠ 0 → f.height ≠ 0 → ErrsOnly p (splitChannels f.width (glitchShift intensity) f.data))
    {q : Band → Prop} (hdrawn : Act.Gives q (drawBand f.height))
    (hband : f.width ≠ 0 → f.height ≠ 0 → ∀ band data, q band → ErrsOnly p (displaceBand f.width band data)) :
    FailsOnly p (glitch f intensity) := by
  refine .bind (.check hf) fun _ => ?_
  split
  · exact .pure _
  · rename_i hsize
    obtain ⟨hwidth, hheight⟩ := not_or.mp hsize
    refine .bind (.check (hsplit hwidth hheight)) fun _ => .bind (Source.failsOnly_chance _) fun _ => ?_
    split
    · refine .bind_of_gives ?_ hdrawn fun band hfits => ?_
      · exact .bind (Source.failsOnly_integer _ _) fun _ => .bind (Source.failsOnly_integer _ _) fun _ =>
          .bind (Source.failsOnly_integer _ _) fun _ => .pure _
      · exact .bind (.check (hband hwidth hheight band _ hfits)) fun _ => .pure _
    · exact .pure _

end

section

variable {p : Fault → Prop} (hp : p .aborted)

include hp

theorem errsOnly_splitChannels (width : Nat) (shift : Int) (data : Array UInt8) :
    ErrsOnly p (splitChannels width shift data) :=
  .ite (.ok data) <| .bind (.ite (.ok ()) (.error hp)) fun _ => .bind (.signed hp _) fun _ =>
    .bind (.ite (.ok ()) (.error hp)) fun _ => .ok _

theorem errsOnly_displaceBand (width : Nat) (band : Band) (data : Array UInt8) :
    ErrsOnly p (displaceBand width band data) :=
  .bind (.ite (.ok ()) (.error hp)) fun _ => .ok _

end

theorem failsOnly_apply (f : Frame) (previous : Option Frame) (request : EffectRequest) :
    FailsOnly Fault.NotEarly (apply f previous request) := by
  refine .bind (.check request.notEarly_validate) fun _ => ?_
  cases request with
  | glow p => exact .check (notEarly_glow f _ _)
  | motionBlur p =>
      cases previous with
      | none => exact .pure _
      | some before =>
          dsimp only
          split
          · exact .check (notEarly_motionBlur f before _)
          · exact .pure _
  | shake p => exact failsOnly_shake f.notEarly_validate fun _ => nofun
  | glitch p =>
      exact failsOnly_glitch f.notEarly_validate (fun _ _ => errsOnly_splitChannels nofun _ _ _)
        (q := fun _ => True) (fun _ _ _ _ => trivial) fun _ _ _ _ _ => errsOnly_displaceBand nofun _ _ _
  | radialBlur p => exact .check (notEarly_radialBlur f _ _ _)

end Effect

namespace Engine

-- Systems fail together for the reasons that one of them fails for.
theorem updateAll_failsOnly {p : Fault → Prop} {dt : Float} (hp : FailsOnly p (ParticleSystem.update dt))
    {systems : List (SystemId × ParticleSystem)} {e : Fault} (he : (updateAll dt systems).1 = .error e) :
    p e := by
  induction systems with
  | nil => cases he
  | cons entry rest ih =>
      obtain ⟨id, s⟩ := entry
      simp only [updateAll] at he
      split at he
      · exact ih he
      · rename_i fault s' hs
        obtain rfl : fault = e := Except.error.inj he
        exact hp s fault s' hs

theorem failsOnly_update (dt : Float) : FailsOnly Fault.NotEarly (update dt) := by
  intro engine e _ he
  exact updateAll_failsOnly (ParticleSystem.failsOnly_update nofun nofun dt) (congrArg Prod.fst he)

theorem failsOnly_addOneShot (request : EffectRequest) : FailsOnly Fault.NotEarly (addOneShot request) :=
  .bind (.check request.notEarly_validate) fun _ => .modify _

theorem failsOnly_applyAll (previous : Option Frame) (pending : List PendingEffect) (f : Frame) :
    FailsOnly Fault.NotEarly (applyAll previous pending f) := by
  induction pending generalizing f with
  | nil => exact .pure f
  | cons p rest ih => exact .bind (Effect.failsOnly_apply f previous p.request) ih

theorem failsOnly_render (base : Frame) : FailsOnly Fault.NotEarly (render base) :=
  .bind (.check base.notEarly_validate) fun _ => .bind .get fun _ =>
    .bind (.check (errsOnly_drawAll nofun _ base)) fun _ => .bind (.focus (failsOnly_applyAll _ _ _)) fun _ =>
      .bind (.modify _) fun _ => .pure _

end Engine

end ParticleFx
