import ParticleFx.Proofs.Effect.Rotation
import ParticleFx.Proofs.Effect.Weights
import ParticleFx.Proofs.Number.Order
import ParticleFx.Proofs.Scene.Validity

namespace ParticleFx

open Act (FailsOnly)

namespace EffectRequest

-- More than an effect can do on a frame: a shake that is out of range, or a glitch that moves the channels
-- so far that a column of the frame is no word any more. It is found out when the request is applied, and
-- not before.
def Overreaches (f : Frame) : EffectRequest → Prop
  | shake p => 0x80000000 ≤ p.intensity
  | glitch p => f.width ≠ 0 ∧ f.height ≠ 0 ∧
      0x8000000000000000 ≤ |Effect.glitchShift p.intensity| + (f.width - 1)
  | _ => False

instance (f : Frame) : DecidablePred (Overreaches f)
  | shake p => inferInstanceAs (Decidable (0x80000000 ≤ p.intensity))
  | glitch p => inferInstanceAs (Decidable (f.width ≠ 0 ∧ f.height ≠ 0 ∧
      0x8000000000000000 ≤ |Effect.glitchShift p.intensity| + (f.width - 1)))
  | glow _ | motionBlur _ | radialBlur _ => inferInstanceAs (Decidable False)

-- Whether a request overreaches depends on the dimensions alone.
theorem overreaches_congr {f g : Frame} (hwidth : g.width = f.width) (hheight : g.height = f.height)
    (request : EffectRequest) : request.Overreaches g ↔ request.Overreaches f := by
  unfold Overreaches
  rw [hwidth, hheight]

-- What then comes of it.
def overreachFault : EffectRequest → Fault
  | shake _ => .shakeOutOfRange
  | _ => .aborted

theorem radius_le_of_validate {p : GlowParams} (h : (glow p).validate = .ok ()) :
    p.radius ≤ maxGlowRadius := by
  obtain ⟨_, h⟩ := andThen_eq_ok_iff.mp h
  split at h
  · cases h
  · omega

theorem strength_le_of_validate {p : RadialBlurParams} (h : (radialBlur p).validate = .ok ()) :
    p.strength ≤ Float32.ofNat maxRadialStrength := by
  obtain ⟨_, h⟩ := andThen_eq_ok_iff.mp h
  obtain ⟨hrange, _⟩ := guarded_eq_ok_iff.mp h
  simp only [Bool.not_eq_true', Bool.not_eq_false, Bool.and_eq_true, decide_eq_true_eq] at hrange
  exact hrange.2

end EffectRequest

variable {f g : Frame}

namespace Blur

theorem exists_frame {size : Nat} (hf : f.validate = .ok ())
    (hradius : size / 2 ≤ EffectRequest.maxGlowRadius / 2) : ∃ g, frame f size = .ok g := by
  obtain ⟨hbytes, hcount⟩ := f.validate_eq_ok_iff.mp hf
  have hexpected : Frame.byteCount? f.width f.height = some (f.width * f.height * 4) := by
    simp [Frame.byteCount?, hcount]
  obtain ⟨taps, htaps⟩ := exists_taps_sigmaFor Exponential.decays hradius
  have hreach : ¬maxRadius < oddSize size / 2 := by
    rw [oddSize_div_two]
    unfold maxRadius EffectRequest.maxGlowRadius at *
    omega
  have hdata : ∃ data,
      bytes exponential f.data f.width f.height (oddSize size / 2) (sigmaFor (oddSize size)) = .ok data := by
    simp only [bytes, hexpected, hbytes, htaps, hreach, ne_eq, not_true, if_false]
    split
    · exact ⟨_, rfl⟩
    · exact ⟨_, rfl⟩
  obtain ⟨data, hdata⟩ := hdata
  exact ⟨{ f with data }, by rw [frame, hdata]; rfl⟩

end Blur

namespace Effect

theorem exists_glow {p : GlowParams} (hf : f.validate = .ok ())
    (hp : (EffectRequest.glow p).validate = .ok ()) : ∃ g, glow f p.intensity p.radius = .ok g := by
  have hradius := EffectRequest.radius_le_of_validate hp
  have hodd : Blur.oddSize p.radius / 2 ≤ EffectRequest.maxGlowRadius / 2 := by
    rw [Blur.oddSize_div_two]
    exact Nat.div_le_div_right hradius
  obtain ⟨blurred, hblurred⟩ := Blur.exists_frame hf hodd
  exact ⟨_, by rw [glow, hf, hblurred]; rfl⟩

theorem exists_motionBlur {previous : Frame} (hf : f.validate = .ok ())
    (hprevious : previous.validate = .ok ()) (hsize : previous.sameSize f = true) (strength : Float32) :
    ∃ g, motionBlur f previous strength = .ok g := by
  obtain ⟨hwidth, hheight⟩ : previous.width = f.width ∧ previous.height = f.height := by
    simpa [Frame.sameSize] using hsize
  have hsize : f.sameSize previous = true := by simp [Frame.sameSize, hwidth, hheight]
  exact ⟨_, by rw [motionBlur, hf, hprevious, hsize]; rfl⟩

theorem exists_radialBlur {p : RadialBlurParams} (hf : f.validate = .ok ())
    (hp : (EffectRequest.radialBlur p).validate = .ok ()) :
    ∃ g, radialBlur f p.center p.strength p.masked = .ok g := by
  have hstrength := Number.not_lt_of_le (EffectRequest.strength_le_of_validate hp)
  have hradius : radialKernel / 2 ≤ EffectRequest.maxGlowRadius / 2 := by decide
  obtain ⟨blurred, hblurred⟩ := Blur.exists_frame hf hradius
  rw [radialBlur_eq hf, if_neg hstrength, hblurred]
  split
  · exact ⟨_, rfl⟩
  · exact ⟨_, rfl⟩

-- A glitch that moves the channels too far ends before anything is drawn.
theorem glitch_of_overreaches {p : GlitchParams} (hf : f.validate = .ok ())
    (h : (EffectRequest.glitch p).Overreaches f) (source : Source) :
    glitch f p.intensity source = (.error .aborted, source) := by
  obtain ⟨hwidth, hheight, hfar⟩ := h
  have hsplit : splitChannels f.width (glitchShift p.intensity) f.data = .error .aborted := by
    cases hsplit : splitChannels f.width (glitchShift p.intensity) f.data with
    | ok split =>
        have hnear := (exists_splitChannels_iff (Nat.pos_of_ne_zero hwidth) (width_le_of_validate hf hheight)
          f.data).mp ⟨split, hsplit⟩
        omega
    | error e => rw [errsOnly_splitChannels (p := (· = .aborted)) rfl _ _ _ e hsplit]
  rw [glitch, hf, hsplit, if_neg (by simp [hwidth, hheight])]
  rfl

-- A request that is accepted is applied, if it does not overreach, ...
theorem failsOnly_apply_of_accepted {previous : Option Frame} {request : EffectRequest} (p : Fault → Prop)
    (hf : f.validate = .ok ()) (hprevious : ∀ before ∈ previous, before.validate = .ok ())
    (hrequest : request.validate = .ok ()) (hreach : ¬request.Overreaches f) :
    FailsOnly p (apply f previous request) := by
  refine .bind (.check (.of_exists_ok ⟨(), hrequest⟩)) fun _ => ?_
  cases request with
  | glow _ => exact .check (.of_exists_ok (exists_glow hf hrequest))
  | motionBlur _ =>
      cases previous with
      | none => exact .pure _
      | some before =>
          dsimp only
          split
          · rename_i hsize
            exact .check (.of_exists_ok (exists_motionBlur hf (hprevious before rfl) hsize _))
          · exact .pure _
  | shake _ => exact failsOnly_shake (.of_exists_ok ⟨(), hf⟩) fun hlarge => absurd hlarge hreach
  | glitch _ =>
      refine failsOnly_glitch_of_valid hf fun hwidth hheight => ?_
      exact Int.not_le.mp fun hfar => hreach ⟨hwidth, hheight, hfar⟩
  | radialBlur _ => exact .check (.of_exists_ok (exists_radialBlur hf hrequest))

-- ... and fails, before anything is drawn, if it does.
theorem apply_of_overreaches {request : EffectRequest} (hf : f.validate = .ok ())
    (hrequest : request.validate = .ok ()) (h : request.Overreaches f) (previous : Option Frame)
    (source : Source) : apply f previous request source = (.error request.overreachFault, source) := by
  have hcheck : (Act.check request.validate : Act Source Unit) source = (.ok (), source) :=
    Prod.ext hrequest rfl
  refine (Act.run_bind_ok _ hcheck).trans ?_
  cases request with
  | shake p =>
      have hlarge : 0x80000000 ≤ p.intensity := h
      show shake f p.intensity source = _
      rw [shake, if_pos hlarge, Act.run_fail]
      rfl
  | glitch p => exact glitch_of_overreaches hf h source
  | _ => cases h

end Effect

end ParticleFx
