import Mathlib.Algebra.Order.Ring.Abs
import Mathlib.Data.List.Rotate
import ParticleFx.Proofs.Effect.Convolution
import ParticleFx.Proofs.Engine.Faults
import ParticleFx.Proofs.Frame.Bytes
import ParticleFx.Proofs.Random.Range

namespace ParticleFx.Effect

variable {f g : Frame} {width height x y channel : Nat} {shift : Int} {data : Array UInt8}

-- A byte of a row whose columns are counted on around the ring.
def ringByte (width : Nat) (data : Array UInt8) (y : Nat) (i : Int) (channel : Nat) : UInt8 :=
  data.getD (4 * (y * width + (i % width).toNat) + channel) 0

theorem column_lt (i : Int) (hwidth : 0 < width) : (i % width).toNat < width := by
  have hlow := Int.emod_nonneg i (Int.natCast_ne_zero.mpr hwidth.ne')
  have hhigh := Int.emod_lt_of_pos i (Int.natCast_pos.mpr hwidth)
  omega

theorem column_self (hx : x < width) : ((x : Int) % width).toNat = x := by
  rw [Int.emod_eq_of_lt (by omega) (by omega), Int.toNat_natCast]

-- Turning a row takes every byte from as many columns before.
theorem ringByte_rolled (turn : Nat → Nat → Int) (hsize : data.size = width * height * 4)
    (hwidth : 0 < width) (hy : y < height) (hchannel : channel < 4) (i : Int) :
    ringByte width (rolled width turn data) y i channel =
      ringByte width data y (i - turn y channel) channel := by
  have hcolumn := column_lt i hwidth
  have hbyte : 4 * (y * width + (i % width).toNat) + channel < data.size :=
    hsize ▸ Frame.byte_lt hcolumn hy hchannel
  have hring : ((i % width).toNat - turn y channel) % (width : Int) = (i - turn y channel) % width := by
    rw [Int.toNat_of_nonneg (Int.emod_nonneg i (by omega)), Int.emod_sub_emod]
  calc ringByte width (rolled width turn data) y i channel
      = data.getD (4 * (y * width + (((i % width).toNat - turn y channel) % (width : Int)).toNat) +
          channel) 0 :=
        Frame.getD_ofFn_byte (fun x y channel =>
          data.getD (4 * (y * width + ((x - turn y channel) % (width : Int)).toNat) + channel) 0)
          hcolumn hchannel hbyte
    _ = ringByte width data y (i - turn y channel) channel := by rw [hring, ringByte]

-- How far the channels are moved apart.
def channelTurn (shift : Int) (channel : Nat) : Int :=
  if channel = 0 then shift else if channel = 2 then -shift else 0

theorem ringByte_splitChannels {split : Array UInt8} (h : splitChannels width shift data = .ok split)
    (hsize : data.size = width * height * 4) (hwidth : 0 < width) (hy : y < height) (hchannel : channel < 4)
    (i : Int) :
    ringByte width split y i channel = ringByte width data y (i - channelTurn shift channel) channel := by
  unfold splitChannels at h
  split at h
  · rename_i hzero
    have hturn : channelTurn shift channel = 0 := by
      unfold channelTurn
      split <;> omega
    obtain rfl := Except.ok.inj h
    rw [hturn, Int.sub_zero]
  · obtain ⟨_, _, h⟩ := bind_eq_ok_iff.mp h
    obtain ⟨_, h⟩ := Word.bind_signed_eq_ok_iff.mp h
    obtain ⟨_, _, h⟩ := bind_eq_ok_iff.mp h
    obtain rfl := Except.ok.inj h
    exact ringByte_rolled _ hsize hwidth hy hchannel i

-- Whether a row can be turned is settled at its ends.
theorem checkTurn_eq_ok_iff (hwidth : 0 < width) {amount : Int} :
    checkTurn width amount = .ok () ↔
      amount ≤ 0x8000000000000000 ∧ width - 1 - amount < 0x8000000000000000 := by
  have hends : (∀ x < width, Word.IsSigned (x - amount)) ↔
      amount ≤ 0x8000000000000000 ∧ width - 1 - amount < 0x8000000000000000 := by
    unfold Word.IsSigned
    constructor
    · intro h
      have hfirst := h 0 hwidth
      have hlast := h (width - 1) (by omega)
      omega
    · intro h x hx
      omega
  rw [← hends]
  unfold checkTurn
  split
  · exact iff_of_true rfl ‹_›
  · exact iff_of_false nofun ‹_›

-- The channels can be moved apart as long as the last column of a row and the shift add up to a word.
theorem exists_splitChannels_iff (hwidth : 0 < width) (hwide : width ≤ 2 ^ 62) (data : Array UInt8) :
    (∃ split, splitChannels width shift data = .ok split) ↔ |shift| + (width - 1) < 0x8000000000000000 := by
  unfold splitChannels
  by_cases hzero : shift = 0
  · rw [if_pos hzero, hzero, abs_zero]
    exact iff_of_true ⟨data, rfl⟩ (by omega)
  · rw [if_neg hzero]
    constructor
    · rintro ⟨split, h⟩
      obtain ⟨_, hfirst, h⟩ := bind_eq_ok_iff.mp h
      obtain ⟨_, h⟩ := Word.bind_signed_eq_ok_iff.mp h
      obtain ⟨_, hsecond, h⟩ := bind_eq_ok_iff.mp h
      have hfirst := (checkTurn_eq_ok_iff hwidth).mp hfirst
      have hsecond := (checkTurn_eq_ok_iff hwidth).mp hsecond
      rcases abs_cases shift with ⟨habs, _⟩ | ⟨habs, _⟩ <;> omega
    · intro h
      obtain ⟨hlow, hhigh⟩ := abs_le.mp (show |shift| ≤ 0x7fffffffffffffff - (width - 1) by omega)
      exact ⟨_, bind_eq_ok_iff.mpr ⟨(), (checkTurn_eq_ok_iff hwidth).mpr (by omega),
        Word.bind_signed_eq_ok_iff.mpr ⟨⟨by omega, by omega⟩,
          bind_eq_ok_iff.mpr ⟨(), (checkTurn_eq_ok_iff hwidth).mpr (by omega), rfl⟩⟩⟩⟩

theorem exists_displaceBand (hwidth : 0 < width) (hwide : width ≤ 2 ^ 62) {band : Band}
    (hoffset : -20 ≤ band.offset ∧ band.offset ≤ 20) (data : Array UInt8) :
    ∃ displaced, displaceBand width band data = .ok displaced :=
  ⟨_, bind_eq_ok_iff.mpr ⟨(), (checkTurn_eq_ok_iff hwidth).mpr (by omega), rfl⟩⟩

-- A frame that is valid and not empty is not too wide.
theorem width_le_of_validate (hf : f.validate = .ok ()) (hheight : f.height ≠ 0) : f.width ≤ 2 ^ 62 := by
  have hcount : f.width * f.height * 4 < 2 ^ 64 := (f.validate_eq_ok_iff.mp hf).2
  have hwidth : f.width ≤ f.width * f.height := Nat.le_mul_of_pos_right _ (by omega)
  omega

namespace Band

-- How far the band moves a row.
def turn (band : Band) (y : Nat) : Int :=
  if band.start ≤ y ∧ y < band.stop then band.offset else 0

-- A band that lies within a frame of the given height, and is neither too tall nor moved too far.
structure Fits (band : Band) (height : Nat) : Prop where
  start_le : band.start ≤ band.stop
  stop_le : band.stop ≤ height
  rows_le : band.stop - band.start ≤ 50
  offset_mem : -20 ≤ band.offset ∧ band.offset ≤ 20

def none : Band := ⟨0, 0, 0⟩

theorem fits_none (height : Nat) : none.Fits height :=
  ⟨Nat.le_refl 0, Nat.zero_le height, by decide, by decide⟩

theorem turn_none (y : Nat) : none.turn y = 0 := ite_self 0

end Band

theorem gives_drawBand (height : Nat) : Act.Gives (Band.Fits · height) (drawBand height) := by
  unfold drawBand Band.most Band.least Band.reach
  dsimp only
  refine .bind fun s start t hstart => ?_
  have hstart := Source.gives_integer (by omega) (by omega) (by omega) s start t hstart
  refine .bind fun s tall t htall => ?_
  have htall := Source.gives_integer (by omega) (by omega) (by omega) s tall t htall
  refine .bind fun s offset t hoffset => ?_
  have hoffset := Source.gives_integer (by omega) (by omega) (by omega) s offset t hoffset
  refine .pure ⟨?_, ?_, ?_, hoffset⟩
  · dsimp only
    omega
  · dsimp only
    omega
  · dsimp only
    omega

-- Every row of the second frame is that of the first one turned: by the band, and the outer channels apart.
structure Turned (f : Frame) (shift : Int) (band : Band) (g : Frame) : Prop where
  shape : g.SameShape f
  byte {y channel : Nat} : y < f.height → channel < 4 → 0 < f.width → ∀ i,
    ringByte f.width g.data y i channel =
      ringByte f.width f.data y (i - band.turn y - channelTurn shift channel) channel

theorem turned_split (hsize : f.data.size = f.width * f.height * 4) {split : Array UInt8}
    (h : splitChannels f.width shift f.data = .ok split) : Turned f shift .none { f with data := split } := by
  refine ⟨.withData (size_splitChannels h), fun hy hchannel hwidth i => ?_⟩
  rw [ringByte_splitChannels h hsize hwidth hy hchannel, Band.turn_none, Int.sub_zero]

theorem turned_displaced (hsize : f.data.size = f.width * f.height * 4) {split displaced : Array UInt8}
    {band : Band} (h : splitChannels f.width shift f.data = .ok split)
    (hdisplaced : displaceBand f.width band split = .ok displaced) :
    Turned f shift band { f with data := displaced } := by
  have hsplit := size_splitChannels h
  refine ⟨.withData ((size_displaceBand hdisplaced).trans hsplit), fun {y channel} hy hchannel hwidth i => ?_⟩
  rw [← ringByte_splitChannels h hsize hwidth hy hchannel]
  obtain ⟨_, _, hrolled⟩ := bind_eq_ok_iff.mp hdisplaced
  obtain rfl := Except.ok.inj hrolled
  exact ringByte_rolled (fun y _ => band.turn y) (hsplit.trans hsize) hwidth hy hchannel i

theorem gives_turned (hf : f.validate = .ok ()) (intensity : Float32) :
    Act.Gives (fun g => ∃ band : Band, band.Fits f.height ∧ Turned f (glitchShift intensity) band g)
      (glitch f intensity) := by
  have hsize := (f.validate_eq_ok_iff.mp hf).1
  refine .bind fun _ _ _ _ => ?_
  split
  · rename_i hempty
    refine .pure ⟨.none, Band.fits_none _, .refl f, fun hy _ hwidth => ?_⟩
    omega
  · refine .bind fun _ split _ hcheck => ?_
    have hsplit := (Prod.mk.inj hcheck).1
    refine .bind fun _ _ _ _ => ?_
    split
    · refine .bind fun s band t hband => .bind fun _ displaced _ hcheck => .pure ⟨band, ?_, ?_⟩
      · exact gives_drawBand f.height s band t hband
      · exact turned_displaced hsize hsplit (Prod.mk.inj hcheck).1
    · exact .pure ⟨.none, Band.fits_none _, turned_split hsize hsplit⟩

-- One channel along a row.
def rowOf (f : Frame) (y channel : Nat) : List UInt8 :=
  (List.range f.width).map fun x => f.data.getD (4 * (y * f.width + x) + channel) 0

theorem getElem_rowOf (f : Frame) (y channel : Nat) (hx : x < (rowOf f y channel).length) :
    (rowOf f y channel)[x] = ringByte f.width f.data y x channel := by
  have hx : x < f.width := by simpa [rowOf] using hx
  simp [rowOf, ringByte, column_self hx]

namespace Turned

variable {band : Band}

theorem isRotated_rowOf (h : Turned f shift band g) (hy : y < f.height) (hchannel : channel < 4) :
    rowOf g y channel ~r rowOf f y channel := by
  have hlength (frame : Frame) : (rowOf frame y channel).length = frame.width := by simp [rowOf]
  refine .symm ⟨((-(band.turn y + channelTurn shift channel)) % f.width).toNat, ?_⟩
  apply List.ext_getElem
  · rw [List.length_rotate, hlength, hlength, h.shape.width]
  · intro x _ hx
    rw [List.getElem_rotate, getElem_rowOf, getElem_rowOf, hlength, h.shape.width]
    rw [hlength, h.shape.width] at hx
    have hwidth : 0 < f.width := Nat.zero_lt_of_lt hx
    rw [h.byte hy hchannel hwidth, ringByte, ringByte, Int.natCast_emod, Int.emod_emod, Int.natCast_add,
      Int.toNat_of_nonneg (Int.emod_nonneg _ (by omega)), Int.add_emod_emod, Int.sub_sub, ← Int.sub_eq_add_neg]

theorem channel_colorAt (h : Turned f shift band g) (hx : x < f.width) (hy : y < f.height)
    (hchannel : channel < 4) {i : Int} (hi : x - band.turn y - channelTurn shift channel = i) :
    (Frame.colorAt g.data (y * f.width + x)).channel channel =
      (Frame.colorAt f.data (y * f.width + (i % f.width).toNat)).channel channel := by
  have hbyte := h.byte hy hchannel (Nat.zero_lt_of_lt hx) x
  rw [ringByte, column_self hx, hi] at hbyte
  rw [Frame.channel_colorAt _ _ hchannel, Frame.channel_colorAt _ _ hchannel, hbyte, ringByte]

theorem pixel (h : Turned f shift band g) (hx : x < f.width) (hy : y < f.height) :
    ∃ red plain blue,
      f.pixel? ((x - shift - band.turn y) % f.width).toNat y = some red ∧
      f.pixel? ((x - band.turn y) % f.width).toNat y = some plain ∧
      f.pixel? ((x + shift - band.turn y) % f.width).toNat y = some blue ∧
      g.pixel? x y = some ⟨red.r, plain.g, blue.b, plain.a⟩ := by
  have hpixel (i : Int) : f.pixel? (i % f.width).toNat y =
      some (Frame.colorAt f.data (y * f.width + (i % f.width).toNat)) :=
    if_pos ⟨column_lt i (Nat.zero_lt_of_lt hx), hy⟩
  have hred := h.channel_colorAt hx hy (by decide : 0 < 4) (sub_right_comm _ _ _)
  have hgreen := h.channel_colorAt hx hy (by decide : 1 < 4) (Int.sub_zero _)
  have hblue := h.channel_colorAt hx hy (by decide : 2 < 4)
    (show x - band.turn y - -shift = x + shift - band.turn y by omega)
  have halpha := h.channel_colorAt hx hy (by decide : 3 < 4) (Int.sub_zero _)
  refine ⟨_, _, _, hpixel _, hpixel _, hpixel _, ?_⟩
  rw [Frame.pixel?, h.shape.width, h.shape.height, if_pos ⟨hx, hy⟩]
  calc some (Frame.colorAt g.data (y * f.width + x))
      = some ⟨(Frame.colorAt g.data (y * f.width + x)).channel 0,
          (Frame.colorAt g.data (y * f.width + x)).channel 1,
          (Frame.colorAt g.data (y * f.width + x)).channel 2,
          (Frame.colorAt g.data (y * f.width + x)).channel 3⟩ := rfl
    _ = _ := by rw [hred, hgreen, hblue, halpha]; rfl

end Turned

-- Columns and turns are whole numbers of 64 bits with a sign, and so are their differences.
theorem column_sub_turn_bounds (hf : f.validate = .ok ()) (hx : x < f.width) (hy : y < f.height) {turn : Int}
    (hturn : |turn| ≤ 2 ^ 62) : -2 ^ 63 ≤ x - turn ∧ x - turn < 2 ^ 63 := by
  have hcount : f.width * f.height * 4 < 2 ^ 64 := (f.validate_eq_ok_iff.mp hf).2
  have hwidth : f.width ≤ f.width * f.height := Nat.le_mul_of_pos_right _ (by omega)
  have hturn := abs_le.mp hturn
  omega

-- On a valid frame the one thing that can go wrong is that the channels are moved too far apart.
theorem failsOnly_glitch_of_valid {p : Fault → Prop} {intensity : Float32} (hf : f.validate = .ok ())
    (hshift : f.width ≠ 0 → f.height ≠ 0 → |glitchShift intensity| + (f.width - 1) < 0x8000000000000000) :
    Act.FailsOnly p (glitch f intensity) := by
  refine failsOnly_glitch (.of_exists_ok ⟨(), hf⟩) (fun hwidth hheight => ?_) (gives_drawBand f.height)
    fun hwidth hheight band data hfits => ?_
  · exact .of_exists_ok ((exists_splitChannels_iff (by omega) (width_le_of_validate hf hheight) _).mpr
      (hshift hwidth hheight))
  · exact .of_exists_ok (exists_displaceBand (by omega) (width_le_of_validate hf hheight) hfits.offset_mem data)

-- A glitch moves the bytes of a row around in it, each channel by as many columns everywhere in the row.
theorem glitch_only_rotates_rows (hf : f.validate = .ok ()) (intensity : Float32) (source : Source)
    (hshift : |glitchShift intensity| ≤ 2 ^ 62) :
    ∃ g after, glitch f intensity source = (.ok g, after) ∧ g.SameShape f ∧
      ∃ band : Band, band.Fits f.height ∧ ∀ y < f.height,
        (∀ x < f.width,
          (∃ red plain blue,
            f.pixel? ((x - glitchShift intensity - band.turn y) % f.width).toNat y = some red ∧
            f.pixel? ((x - band.turn y) % f.width).toNat y = some plain ∧
            f.pixel? ((x + glitchShift intensity - band.turn y) % f.width).toNat y = some blue ∧
            g.pixel? x y = some ⟨red.r, plain.g, blue.b, plain.a⟩) ∧
          ∀ turn ∈ [glitchShift intensity, -glitchShift intensity, band.offset],
            -2 ^ 63 ≤ x - turn ∧ x - turn < 2 ^ 63) ∧
        ∀ channel < 4, rowOf g y channel ~r rowOf f y channel := by
  have hnever : Act.FailsOnly (fun _ => False) (glitch f intensity) := by
    refine failsOnly_glitch_of_valid hf fun hwidth hheight => ?_
    have hwide := width_le_of_validate hf hheight
    omega
  obtain ⟨g, after, hrun⟩ := hnever.exists_ok source
  obtain ⟨band, hfits, hturned⟩ := gives_turned hf intensity source g after hrun
  refine ⟨g, after, hrun, hturned.shape, band, hfits, fun y hy => ⟨fun x hx => ⟨hturned.pixel hx hy, ?_⟩, ?_⟩⟩
  · intro turn hturn
    apply column_sub_turn_bounds hf hx hy
    have hoffset : |band.offset| ≤ 20 := abs_le.mpr hfits.offset_mem
    simp only [List.mem_cons, List.not_mem_nil, or_false] at hturn
    rcases hturn with rfl | rfl | rfl
    · exact hshift
    · rwa [abs_neg]
    · omega
  · exact fun channel hchannel => hturned.isRotated_rowOf hy hchannel

-- Three columns and two rows, so that the channels go around more than three times and no band of full
-- height finds room.
def strip : Frame := ⟨3, 2, Blur.squares⟩

theorem glitch_only_rotates_rows_strip :
    strip.validate = .ok () ∧ glitchShift 1 = 10 ∧
    ∃ g after, glitch strip 1 (.ofSeed 0) = (.ok g, after) ∧ g.SameShape strip ∧
      rowOf g 0 0 ~r [0, 16, 64] ∧ rowOf g 1 2 ~r [196, 68, 228] := by
  have hvalid : strip.validate = .ok () := by decide +kernel
  have hshift : glitchShift 1 = 10 := by decide +kernel
  obtain ⟨g, after, hrun, hshape, band, _, hrows⟩ :=
    glitch_only_rotates_rows hvalid 1 (.ofSeed 0) (by rw [hshift]; decide)
  have hred : rowOf strip 0 0 = [0, 16, 64] := by decide +kernel
  have hblue : rowOf strip 1 2 = [196, 68, 228] := by decide +kernel
  refine ⟨hvalid, hshift, g, after, hrun, hshape, ?_, ?_⟩
  · rw [← hred]
    exact (hrows 0 (by decide)).2 0 (by decide)
  · rw [← hblue]
    exact (hrows 1 (by decide)).2 2 (by decide)

end ParticleFx.Effect
