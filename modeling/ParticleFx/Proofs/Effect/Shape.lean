import ParticleFx.Proofs.Action
import ParticleFx.Proofs.Frame.Shape

namespace ParticleFx

variable {f g : Frame}

namespace Blur

theorem size_alongLines (taps : Array Nat) (l : Lines) (src : Array UInt8) :
    (alongLines taps l src).size = src.size := by
  refine size_fold ?_ Array.size_replicate
  intro line _ out hout
  refine size_fold ?_ hout
  intro i _ out hout
  rw [Frame.size_putColor, hout]

theorem size_convolve (taps : Array Nat) (width height : Nat) (src : Array UInt8) :
    (convolve taps width height src).size = src.size := by
  rw [convolve, size_alongLines, size_alongLines]

theorem size_of_bytes {exp : Float → Float} {src data : Array UInt8} {width height radius : Nat}
    {sigma : Float32} (h : bytes exp src width height radius sigma = .ok data) :
    data.size = src.size := by
  unfold bytes at h
  split at h
  · cases h
  · split at h
    · cases h
    · split at h
      · cases h
      · split at h
        · obtain rfl := Except.ok.inj h
          rfl
        · obtain ⟨taps, _, h⟩ := bind_eq_ok_iff.mp h
          obtain rfl := Except.ok.inj h
          exact size_convolve _ _ _ _

theorem frame_sameShape {size : Nat} (h : frame f size = .ok g) : g.SameShape f := by
  obtain ⟨data, hdata, hg⟩ := bind_eq_ok_iff.mp h
  obtain rfl := Except.ok.inj hg
  exact .withData (size_of_bytes hdata)

end Blur

namespace Effect

theorem size_zipWith_of_eq {a b : Array UInt8} (mix : UInt8 → UInt8 → UInt8) (h : b.size = a.size) :
    (Array.zipWith mix a b).size = a.size := by
  rw [Array.size_zipWith, h, Nat.min_self]

theorem glow_sameShape {intensity : Float32} {radius : Nat} (h : glow f intensity radius = .ok g) :
    g.SameShape f := by
  obtain ⟨_, _, h⟩ := bind_eq_ok_iff.mp h
  obtain ⟨blurred, hblurred, hg⟩ := bind_eq_ok_iff.mp h
  obtain rfl := Except.ok.inj hg
  exact .withData (size_zipWith_of_eq _ (Blur.frame_sameShape hblurred).bytes)

-- Two frames that are valid and of one size have as many bytes.
theorem bytes_eq_of_sameSize (hf : f.validate = .ok ()) (hg : g.validate = .ok ())
    (hsize : f.sameSize g = true) : g.data.size = f.data.size := by
  obtain ⟨hwidth, hheight⟩ : f.width = g.width ∧ f.height = g.height := by
    simpa [Frame.sameSize] using hsize
  rw [(g.validate_eq_ok_iff.mp hg).1, (f.validate_eq_ok_iff.mp hf).1, hwidth, hheight]

theorem motionBlur_sameShape {previous : Frame} {strength : Float32}
    (h : motionBlur f previous strength = .ok g) : g.SameShape f := by
  obtain ⟨_, hf, h⟩ := bind_eq_ok_iff.mp h
  obtain ⟨_, hprevious, h⟩ := bind_eq_ok_iff.mp h
  split at h
  · rename_i hsize
    obtain rfl := Except.ok.inj h
    exact .withData (size_zipWith_of_eq _ (bytes_eq_of_sameSize hf hprevious hsize))
  · cases h

theorem Span.size_copy (span : Span) (data out : Array UInt8) : (span.copy data out).size = out.size := by
  refine size_fold ?_ rfl
  intro i _ out hout
  rw [Array.size_setIfInBounds, hout]

theorem size_coverRow (f : Frame) (dx dy : Int) (y : Nat) (out : Array UInt8) :
    (coverRow f dx dy y out).size = out.size := by
  unfold coverRow
  split
  · exact Span.size_copy _ _ _
  · rfl

theorem shakeBy_sameShape {dx dy : Int} (h : shakeBy f dx dy = .ok g) : g.SameShape f := by
  obtain ⟨_, hf, hg⟩ := bind_eq_ok_iff.mp h
  obtain rfl := Except.ok.inj hg
  refine .withData (size_fold ?_ ?_)
  · intro y _ out hout
    rw [size_coverRow, hout]
  · rw [(f.validate_eq_ok_iff.mp hf).1, Frame.blank, Frame.size_filled]

theorem gives_shake (f : Frame) (intensity : Nat) : Act.Gives (·.SameShape f) (shake f intensity) := by
  unfold shake
  split
  · exact .fail _
  · exact .bind fun _ _ _ _ => .bind fun _ _ _ _ => .check fun _ => shakeBy_sameShape

theorem size_rolled (width : Nat) (turn : Nat → Nat → Int) (data : Array UInt8) :
    (rolled width turn data).size = data.size := by
  simp [rolled]

theorem size_splitChannels {width : Nat} {shift : Int} {data data' : Array UInt8}
    (h : splitChannels width shift data = .ok data') : data'.size = data.size := by
  unfold splitChannels at h
  split at h
  · obtain rfl := Except.ok.inj h
    rfl
  · obtain ⟨_, _, h⟩ := bind_eq_ok_iff.mp h
    obtain ⟨_, _, h⟩ := bind_eq_ok_iff.mp h
    obtain ⟨_, _, h⟩ := bind_eq_ok_iff.mp h
    obtain rfl := Except.ok.inj h
    exact size_rolled _ _ _

theorem size_displaceBand {width : Nat} {band : Band} {data data' : Array UInt8}
    (h : displaceBand width band data = .ok data') : data'.size = data.size := by
  obtain ⟨_, _, h⟩ := bind_eq_ok_iff.mp h
  obtain rfl := Except.ok.inj h
  exact size_rolled _ _ _

theorem gives_glitch (f : Frame) (intensity : Float32) :
    Act.Gives (·.SameShape f) (glitch f intensity) := by
  refine .bind fun _ _ _ _ => ?_
  split
  · exact .pure (.refl f)
  · refine .bind fun _ split _ hcheck => ?_
    have hsplit := size_splitChannels (Prod.mk.inj hcheck).1
    refine .bind fun _ _ _ _ => ?_
    split
    · refine .bind fun _ band _ _ => .bind fun _ displaced _ hcheck => ?_
      exact .pure (.withData ((size_displaceBand (Prod.mk.inj hcheck).1).trans hsplit))
    · exact .pure (.withData hsplit)

theorem size_blends (scaled : Float32) {blurred data : Array UInt8} (count : Nat)
    (h : blurred.size = data.size) : (blends scaled blurred count data).size = data.size := by
  refine size_fold ?_ rfl
  intro i _ blended hsize
  exact (size_zipWith_of_eq _ (h.trans hsize.symm)).trans hsize

theorem size_masked (f : Frame) (center : Vec2) (data : Array UInt8) :
    (masked f center data).size = data.size := by
  simp [masked]

-- What a radial blur makes of the frame and its blurred copy.
def radialMix (f : Frame) (center : Option Vec2) (strength : Float32) (mask : Bool) (blurred : Frame) :
    Frame :=
  let data := blends (strength * 10) blurred.data (strength * 10).toUInt32.toNat f.data
  { f with data := if mask then masked f (center.getD (middle f)) data else data }

theorem radialMix_sameShape {blurred : Frame} (h : blurred.SameShape f) (center : Option Vec2)
    (strength : Float32) (mask : Bool) : (radialMix f center strength mask blurred).SameShape f := by
  have hblends := size_blends (strength * 10) (strength * 10).toUInt32.toNat h.bytes
  refine .withData ?_
  split
  · rw [size_masked, hblends]
  · exact hblends

theorem radialBlur_eq (hf : f.validate = .ok ()) (center : Option Vec2) (strength : Float32)
    (mask : Bool) :
    radialBlur f center strength mask =
      if strength > Float32.ofNat EffectRequest.maxRadialStrength then
        .error (.radialStrengthTooLarge EffectRequest.maxRadialStrength)
      else if (!(strength * 10).isFinite || strength * 10 < 1) = true then .ok f
      else (Blur.frame f radialKernel).map (radialMix f center strength mask) := by
  rw [radialBlur, hf]
  show (if _ then _ else _) = _
  split
  · rfl
  · show (if _ then _ else _) = _
    split
    · rfl
    · cases Blur.frame f radialKernel with
      | error e => rfl
      | ok blurred => rfl

theorem radialBlur_sameShape {center : Option Vec2} {strength : Float32} {mask : Bool}
    (h : radialBlur f center strength mask = .ok g) : g.SameShape f := by
  obtain ⟨_, hf, _⟩ := bind_eq_ok_iff.mp h
  rw [radialBlur_eq hf] at h
  split at h
  · cases h
  · split at h
    · obtain rfl := Except.ok.inj h
      exact .refl f
    · cases hblur : Blur.frame f radialKernel with
      | error e =>
          rw [hblur] at h
          cases h
      | ok blurred =>
          rw [hblur] at h
          obtain rfl := Except.ok.inj h
          exact radialMix_sameShape (Blur.frame_sameShape hblur) _ _ _

-- Effects change the bytes of a frame and neither their number nor the dimensions.
theorem gives_apply (f : Frame) (previous : Option Frame) (request : EffectRequest) :
    Act.Gives (·.SameShape f) (apply f previous request) := by
  refine .bind fun _ _ _ _ => ?_
  cases request with
  | glow p => exact .check fun _ => glow_sameShape
  | motionBlur p =>
      cases previous with
      | none => exact .pure (.refl f)
      | some before =>
          dsimp only
          split
          · exact .check fun _ => motionBlur_sameShape
          · exact .pure (.refl f)
  | shake p => exact gives_shake f _
  | glitch p => exact gives_glitch f _
  | radialBlur p => exact .check fun _ => radialBlur_sameShape

end Effect

theorem Engine.gives_applyAll (previous : Option Frame) (pending : List PendingEffect) (f : Frame) :
    Act.Gives (·.SameShape f) (applyAll previous pending f) := by
  induction pending generalizing f with
  | nil => exact .pure (.refl f)
  | cons p rest ih =>
      refine .bind fun s g t h => ?_
      have hg : g.SameShape f := Effect.gives_apply f previous p.request s g t h
      intro s frame t h
      exact (ih g s frame t h).trans hg

end ParticleFx
