import ParticleFx.Proofs.Frame.Strokes

namespace ParticleFx

theorem getD_ofFn {α : Type} {n i : Nat} (value : Fin n → α) (fallback : α) (hi : i < n) :
    (Array.ofFn value).getD i fallback = value ⟨i, hi⟩ := by
  rw [Array.getD_eq_getD_getElem?, Array.getElem?_ofFn, dif_pos hi, Option.getD_some]

namespace Frame

variable {width height x y channel k : Nat}

-- The channel, the column and the row of a byte can be told from its place.
theorem coordinates_of_byte (hx : x < width) (hchannel : channel < 4) :
    (4 * (y * width + x) + channel) % 4 = channel ∧
      (4 * (y * width + x) + channel) / 4 % width = x ∧
      (4 * (y * width + x) + channel) / 4 / width = y := by
  have hpixel : (4 * (y * width + x) + channel) / 4 = width * y + x := by
    rw [Nat.mul_comm width y]
    omega
  refine ⟨by omega, ?_, ?_⟩
  · rw [hpixel, Nat.mul_add_mod, Nat.mod_eq_of_lt hx]
  · rw [hpixel, Nat.mul_add_div (Nat.zero_lt_of_lt hx), Nat.div_eq_of_lt hx, Nat.add_zero]

theorem byte_lt (hx : x < width) (hy : y < height) (hchannel : channel < 4) :
    4 * (y * width + x) + channel < width * height * 4 := by
  have hplace := place_lt hx hy
  omega

theorem exists_coordinates (hk : k < width * height * 4) :
    ∃ x < width, ∃ y < height, ∃ channel < 4, k = 4 * (y * width + x) + channel := by
  have hpixel : k / 4 < height * width := by
    rw [Nat.mul_comm]
    omega
  have hwidth : 0 < width := Nat.pos_of_ne_zero fun h => by simp [h] at hpixel
  refine ⟨k / 4 % width, Nat.mod_lt _ hwidth, k / 4 / width, ?_, k % 4, Nat.mod_lt _ (by decide), ?_⟩
  · exact Nat.div_lt_of_lt_mul (by rwa [Nat.mul_comm])
  · rw [Nat.mul_comm _ width, Nat.div_add_mod]
    omega

-- Bytes that are made from their channel, column and row.
theorem getD_ofFn_byte {n : Nat} (value : Nat → Nat → Nat → UInt8) (hx : x < width) (hchannel : channel < 4)
    (hbyte : 4 * (y * width + x) + channel < n) :
    (Array.ofFn fun k : Fin n => value (k / 4 % width) (k / 4 / width) (k % 4)).getD
      (4 * (y * width + x) + channel) 0 = value x y channel := by
  obtain ⟨hc, hcolumn, hrow⟩ := coordinates_of_byte (y := y) hx hchannel
  rw [getD_ofFn _ _ hbyte, hc, hcolumn, hrow]

theorem channel_colorAt (data : Array UInt8) (i : Nat) {channel : Nat} (h : channel < 4) :
    (colorAt data i).channel channel = data.getD (4 * i + channel) 0 := by
  match channel, h with
  | 0, _ | 1, _ | 2, _ | 3, _ => rfl

theorem colorAt_eq_of_bytes {data : Array UInt8} {i : Nat} {c : Color}
    (h : ∀ channel < 4, data.getD (4 * i + channel) 0 = c.channel channel) : colorAt data i = c := by
  have hred := h 0 (by decide)
  have hgreen := h 1 (by decide)
  have hblue := h 2 (by decide)
  have halpha := h 3 (by decide)
  rw [Nat.add_zero] at hred
  rw [colorAt, hred, hgreen, hblue, halpha]
  rfl

-- Frames of one size are the same when they have the same bytes in every pixel.
theorem eq_of_bytes {data data' : Array UInt8} (hsize : data.size = width * height * 4)
    (hsize' : data'.size = width * height * 4)
    (h : ∀ x < width, ∀ y < height, ∀ channel < 4,
      data.getD (4 * (y * width + x) + channel) 0 = data'.getD (4 * (y * width + x) + channel) 0) :
    data = data' := by
  apply Array.ext (hsize.trans hsize'.symm)
  intro k hk hk'
  obtain ⟨x, hx, y, hy, channel, hchannel, rfl⟩ := exists_coordinates (hsize ▸ hk)
  have hbyte := h x hx y hy channel hchannel
  simpa only [Array.getD_eq_getD_getElem?, Array.getElem?_eq_getElem hk, Array.getElem?_eq_getElem hk',
    Option.getD_some] using hbyte

end Frame

end ParticleFx
