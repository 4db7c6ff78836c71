import Mathlib.Data.List.TakeWhile
import ParticleFx.Json.Parser

namespace ParticleFx

namespace Decimal

theorem power_pos (base : Nat) (hbase : 0 < base) (k : Int) :
    0 < (power base k).1 ∧ 0 < (power base k).2 := by
  unfold power
  split
  · exact ⟨Nat.pow_pos hbase, Nat.one_pos⟩
  · exact ⟨Nat.one_pos, Nat.pow_pos hbase⟩

theorem low_pos {b : Binary} (hb : b.mantissa ≠ 0) (nearBelow : Bool) : 0 < (Cell.of b nearBelow).low := by
  have hpower := (power_pos 2 Nat.two_pos (b.exponent - 2)).1
  have hgap : 0 < 4 * b.mantissa - if nearBelow then 1 else 2 := by
    split <;> omega
  exact Nat.mul_pos hgap hpower

-- No cell of a number other than zero reaches down to zero.
theorem holds_zero {cell : Cell} (hlow : 0 < cell.low) (k : Int) : cell.holds ⟨0, k⟩ = false := by
  have hpower := (power_pos 10 (by decide) k).2
  have hpos : 0 < cell.low * (power 10 k).2 := Nat.mul_pos hlow hpower
  unfold Cell.holds
  split
  · simp
    omega
  · simp

theorem coefficient_ne_zero_of_onGrid? {cell : Cell} {k : Int} {d : Decimal} (hlow : 0 < cell.low)
    (h : cell.onGrid? k = some d) : d.coefficient ≠ 0 := by
  have hholds : cell.holds d = true := by
    unfold Cell.onGrid? at h
    dsimp only at h
    split at h
    · rename_i hlower hupper
      split at h
      · rw [← Option.some.inj h, hlower]
      split at h
      · rw [← Option.some.inj h, hupper]
      split at h
      · rw [← Option.some.inj h, hlower]
      · rw [← Option.some.inj h, hupper]
    · rename_i hlower _
      rw [← Option.some.inj h, hlower]
    · rename_i _ hupper
      rw [← Option.some.inj h, hupper]
    · cases h
  intro hzero
  obtain ⟨coefficient, exponent⟩ := d
  subst hzero
  rw [holds_zero hlow] at hholds
  cases hholds

-- The search never ends with a zero that has digits.
theorem exponent_eq_zero_of_shortest {cell : Cell} (hlow : 0 < cell.low)
    (h : cell.shortest.coefficient = 0) : cell.shortest.exponent = 0 := by
  unfold Cell.shortest at h ⊢
  dsimp only at h ⊢
  cases hfound : (List.range 17).findSome? fun (n : Nat) => cell.onGrid? (leading cell.value cell.den - n) with
  | none => rfl
  | some d =>
      rw [hfound, Option.getD_some] at h
      obtain ⟨n, _, hgrid⟩ := List.exists_of_findSome?_eq_some hfound
      exact (coefficient_ne_zero_of_onGrid? hlow hgrid h).elim

end Decimal

namespace Json

theorem ok_bind {ε α β : Type} (a : α) (f : α → Except ε β) : (Except.ok a >>= f) = f a := rfl

-- One or more digits.
def Digits (ds : List Char) : Prop :=
  ds ≠ [] ∧ ∀ c ∈ ds, c.isDigit = true

theorem digits_toDigits (n : Nat) : Digits (Nat.toDigits 10 n) :=
  ⟨Nat.toDigits_ne_nil, fun _ => Nat.isDigit_of_mem_toDigits (by decide) (by decide)⟩

theorem digitChar_ne_zero : ∀ n < 10, n ≠ 0 → n.digitChar ≠ '0' := by decide

-- Only zero is written with a zero in front.
theorem head?_toDigits_ne {n : Nat} (hn : n ≠ 0) : (Nat.toDigits 10 n).head? ≠ some '0' := by
  induction n using Nat.base_induction 10 (by decide) with
  | single m hm =>
      rw [Nat.toDigits_of_lt_base hm, List.head?_cons]
      intro h
      exact digitChar_ne_zero m hm hn (Option.some.inj h)
  | digit m k hk hm ih =>
      rw [← Nat.toDigits_append_toDigits (by decide) hm hk,
        List.head?_append, List.head?_eq_some_head Nat.toDigits_ne_nil, Option.some_or,
        ← List.head?_eq_some_head]
      exact ih (Nat.ne_of_gt hm)

theorem digitsValue_toDigits (n : Nat) : Literal.digitsValue (Nat.toDigits 10 n) = n :=
  Nat.ofDigitChars_ten_toDigits

namespace Literal

-- A literal as the grammar of numbers has it.
structure WellFormed (l : Literal) : Prop where
  whole : Digits l.whole
  leading : l.whole.head? = some '0' → l.whole.length ≤ 1
  fraction : ∀ c ∈ l.fraction, c.isDigit = true
  exponent : ∀ below ds, l.exponent = some (below, ds) → Digits ds

theorem wellFormed_ofInt (n : Int) : (ofInt n).WellFormed where
  whole := digits_toDigits _
  leading := by
    intro h
    by_cases hn : n.natAbs = 0
    · rw [ofInt, hn]
      exact Nat.le_refl 1
    · exact (head?_toDigits_ne hn h).elim
  fraction := by nofun
  exponent := by nofun

theorem isDigit_of_mem_replicate {n : Nat} {c : Char} (hc : c ∈ List.replicate n '0') :
    c.isDigit = true := by
  rw [(List.mem_replicate.mp hc).2]
  rfl

-- Digits laid out around the point. Where there are none the number is zero.
theorem Layout.wellFormed_write (layout : Layout) (hlayout : layout.lowest ≤ 0 ∧ 0 ≤ layout.highest)
    (negative : Bool) {ds : List Char} {top : Int} (hdigits : ∀ c ∈ ds, c.isDigit = true)
    (hhead : ds.head? ≠ some '0') (hnone : ds = [] → top = 0) :
    (layout.write negative ds top).WellFormed := by
  have htake (n : Nat) (hn : n ≠ 0) (hds : ds ≠ []) :
      Digits (ds.take n) ∧ (ds.take n).head? ≠ some '0' := by
    refine ⟨⟨by simp [hn, hds], fun c hc => hdigits c (List.mem_of_mem_take hc)⟩, ?_⟩
    rwa [List.head?_take, if_neg hn]
  unfold Layout.write
  split
  · split
    · refine ⟨⟨by simp, by simp⟩, by simp, ?_, by nofun⟩
      intro c hc
      rcases List.mem_append.mp hc with hc | hc
      · exact isDigit_of_mem_replicate hc
      · exact hdigits c hc
    · dsimp only
      split
      · refine ⟨⟨?_, ?_⟩, ?_, by simp, by nofun⟩
        · intro hempty
          have hlength := congrArg List.length hempty
          rw [List.length_append, List.length_replicate, List.length_nil] at hlength
          omega
        · intro c hc
          rcases List.mem_append.mp hc with hc | hc
          · exact hdigits c hc
          · exact isDigit_of_mem_replicate hc
        · intro hzero
          cases ds with
          | nil => simp [hnone rfl]
          | cons d rest => exact (hhead hzero).elim
      · rename_i hlong
        have hds : ds ≠ [] := by
          rintro rfl
          exact hlong (Nat.zero_le _)
        obtain ⟨hwhole, hlead⟩ := htake (top.toNat + 1) (by omega) hds
        exact ⟨hwhole, fun h => (hlead h).elim, fun c hc => hdigits c (List.mem_of_mem_drop hc), by nofun⟩
  · rename_i hwide
    have hds : ds ≠ [] := by
      intro hds
      rw [hnone hds] at hwide
      exact hwide hlayout
    obtain ⟨hwhole, hlead⟩ := htake 1 Nat.one_ne_zero hds
    refine ⟨hwhole, fun h => (hlead h).elim, fun c hc => hdigits c (List.mem_of_mem_drop hc), ?_⟩
    intro below ds' h
    obtain ⟨_, rfl⟩ := Prod.mk.inj (Option.some.inj h)
    exact digits_toDigits _

theorem wellFormed_zero (negative : Bool) : (zero negative).WellFormed :=
  ⟨⟨by simp [zero], by simp [zero]⟩, by simp [zero], by simp [zero], by nofun⟩

-- The digits of a number that is not zero, or of the zero that has none.
theorem Layout.wellFormed_write_digits (layout : Layout)
    (hlayout : layout.lowest ≤ 0 ∧ 0 ≤ layout.highest) (negative : Bool) {d : Decimal}
    (hzero : d.coefficient = 0 → d.exponent = 0) :
    (layout.write negative d.digits.1 d.digits.2).WellFormed := by
  obtain ⟨trailing, hall⟩ : ∃ trailing, Nat.toDigits 10 d.coefficient = d.digits.1 ++ trailing := by
    obtain ⟨zeros, h⟩ := List.dropWhile_suffix (l := (Nat.toDigits 10 d.coefficient).reverse) (· = '0')
    refine ⟨zeros.reverse, ?_⟩
    rw [← List.reverse_inj, ← h, List.reverse_append, List.reverse_reverse]
    simp [Decimal.digits]
  apply layout.wellFormed_write hlayout
  · intro c hc
    apply (digits_toDigits d.coefficient).2
    rw [hall]
    exact List.mem_append_left _ hc
  · intro hhead
    by_cases hcoefficient : d.coefficient = 0
    · simp [Decimal.digits, hcoefficient] at hhead
    · apply head?_toDigits_ne hcoefficient
      rw [hall, List.head?_append, hhead]
      rfl
  · intro hnone
    by_cases hcoefficient : d.coefficient = 0
    · simp [Decimal.digits, hcoefficient, hzero hcoefficient]
    · have hzeros : ∀ c ∈ Nat.toDigits 10 d.coefficient, c = '0' := by
        simpa [Decimal.digits, List.dropWhile_eq_nil_iff] using hnone
      have hhead := List.head?_eq_some_head (Nat.toDigits_ne_nil (n := d.coefficient) (b := 10))
      rw [hzeros _ (List.head_mem _)] at hhead
      exact (head?_toDigits_ne hcoefficient hhead).elim

theorem wellFormed_ofFloat? {x : Float} {l : Literal} (h : ofFloat? x = some l) : l.WellFormed := by
  obtain ⟨b, _, rfl⟩ := Option.map_eq_some_iff.mp h
  split
  · exact wellFormed_zero _
  · rename_i hb
    apply double.wellFormed_write_digits (by decide)
    exact Decimal.exponent_eq_zero_of_shortest (Decimal.low_pos hb _)

theorem wellFormed_ofFloat32? {x : Float32} {l : Literal} (h : ofFloat32? x = some l) :
    l.WellFormed := by
  obtain ⟨b, _, rfl⟩ := Option.map_eq_some_iff.mp h
  split
  · exact wellFormed_zero _
  · rename_i hb
    apply single.wellFormed_write_digits (by decide)
    exact Decimal.exponent_eq_zero_of_shortest (Decimal.low_pos hb _)

-- A whole number that fits a word is read as itself.
theorem number?_ofInt {n : Nat} (h : n < UInt64.size) : (ofInt n).number? = some (.integer n) := by
  have hvalue : digitsValue (ofInt n).whole = n := digitsValue_toDigits n
  have hnegative : (ofInt n).negative = false := decide_eq_false (Int.not_lt.mpr (Int.natCast_nonneg n))
  simp only [number?, hvalue, hnegative, h, if_true]
  rfl

end Literal

-- Nothing that a number could go on with.
def Stops (tail : List Char) : Prop :=
  ∀ c ∈ tail.head?, c.isDigit = false ∧ c ≠ '.' ∧ c ≠ 'e' ∧ c ≠ 'E'

theorem stops_nil : Stops [] := by nofun

theorem scanDigits_append {ds tail : List Char} (hds : Digits ds)
    (htail : ∀ c ∈ tail.head?, c.isDigit = false) : scanDigits (ds ++ tail) = .ok (ds, tail) := by
  have hends : tail.takeWhile Char.isDigit = [] ∧ tail.dropWhile Char.isDigit = tail := by
    cases tail with
    | nil => exact ⟨rfl, rfl⟩
    | cons c rest => simp [htail c rfl]
  have htake : (ds ++ tail).takeWhile Char.isDigit = ds := by
    rw [List.takeWhile_append_of_pos hds.2, hends.1, List.append_nil]
  have hdrop : (ds ++ tail).dropWhile Char.isDigit = tail := by
    rw [List.dropWhile_append_of_pos hds.2, hends.2]
  obtain ⟨hne, hall⟩ := hds
  cases ds with
  | nil => exact (hne rfl).elim
  | cons d rest =>
      rw [List.cons_append] at htake hdrop ⊢
      simp only [scanDigits, hall d List.mem_cons_self, if_true, htake, hdrop]

namespace Literal

variable {l : Literal} {tail : List Char}

def fractionText (l : Literal) : List Char :=
  if l.fraction = [] then [] else '.' :: l.fraction

def exponentText (l : Literal) : List Char :=
  match l.exponent with
  | none => []
  | some (below, ds) => 'e' :: (if below then '-' else '+') :: ds

theorem text_eq (l : Literal) :
    l.text = (if l.negative then ['-'] else []) ++ (l.whole ++ (l.fractionText ++ l.exponentText)) := by
  rw [text, List.append_assoc, List.append_assoc]
  rfl

theorem scanExponent_text (h : l.WellFormed) (hstops : Stops tail) :
    scanExponent (l.exponentText ++ tail) = .ok (l.exponent, tail) := by
  unfold exponentText
  cases hexponent : l.exponent with
  | none =>
      cases tail with
      | nil => rfl
      | cons c rest =>
          obtain ⟨_, _, he, hE⟩ := hstops c rfl
          simp [scanExponent, he, hE]
  | some parts =>
      obtain ⟨below, ds⟩ := parts
      have hscan := scanDigits_append (h.exponent below ds hexponent) fun c hc => (hstops c hc).1
      cases below with
      | true => simp [scanExponent, hscan, ok_bind]
      | false => simp [scanExponent, hscan, ok_bind]

theorem head_exponentText (hstops : Stops tail) :
    ∀ c ∈ (l.exponentText ++ tail).head?, c.isDigit = false ∧ c ≠ '.' := by
  unfold exponentText
  cases l.exponent with
  | none => exact fun c hc => ⟨(hstops c hc).1, (hstops c hc).2.1⟩
  | some parts =>
      rintro c ⟨⟩
      decide

theorem scanFraction_text (h : l.WellFormed) (hstops : Stops tail) :
    scanFraction (l.fractionText ++ (l.exponentText ++ tail)) =
      .ok (l.fraction, l.exponentText ++ tail) := by
  have hhead := head_exponentText (l := l) hstops
  unfold fractionText
  split
  · rename_i hnone
    rw [hnone, List.nil_append]
    generalize l.exponentText ++ tail = rest at hhead
    unfold scanFraction
    split
    · exact ((hhead _ rfl).2 rfl).elim
    · rfl
  · rename_i hsome
    exact scanDigits_append ⟨hsome, h.fraction⟩ fun c hc => (hhead c hc).1

theorem head_fractionText (hstops : Stops tail) :
    ∀ c ∈ (l.fractionText ++ (l.exponentText ++ tail)).head?, c.isDigit = false := by
  unfold fractionText
  split
  · exact fun c hc => (head_exponentText hstops c hc).1
  · rintro c ⟨⟩
    decide

theorem scanNumber_text (h : l.WellFormed) (hstops : Stops tail) :
    scanNumber l.negative (l.whole ++ (l.fractionText ++ (l.exponentText ++ tail))) =
      .ok (l, tail) := by
  have hdigits := scanDigits_append h.whole (head_fractionText (l := l) hstops)
  have hlead : ¬(l.whole.head? = some '0' ∧ 1 < l.whole.length) := by
    intro ⟨hzero, hlong⟩
    have hshort := h.leading hzero
    omega
  have hwhole : scanWhole (l.whole ++ (l.fractionText ++ (l.exponentText ++ tail))) =
      .ok (l.whole, l.fractionText ++ (l.exponentText ++ tail)) := by
    rw [scanWhole, hdigits, ok_bind]
    exact if_neg hlead
  simp only [scanNumber, hwhole, ok_bind, scanFraction_text h hstops,
    scanExponent_text h hstops]

end Literal

end Json

end ParticleFx
