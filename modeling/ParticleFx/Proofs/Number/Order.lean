import Mathlib.Data.Prod.Lex
import ParticleFx.Proofs.Number.Magnitude

namespace ParticleFx.Number

open Binary (value)
open Float.Model (UnpackedFloat)

-- Where a number stands among all others: its kind first, then exponent and mantissa, turned round below
-- zero. The two zeros stand in one place, and what is not a number has none.
def rank : UnpackedFloat → Option (Int ×ₗ Int ×ₗ Int)
  | .notANumber => none
  | .infinity .negative => some (toLex (-2, toLex (0, 0)))
  | .finite .negative m e _ => some (toLex (-1, toLex (-e, -m)))
  | .zero _ => some (toLex (0, toLex (0, 0)))
  | .finite .positive m e _ => some (toLex (1, toLex (e, m)))
  | .infinity .positive => some (toLex (2, toLex (0, 0)))

section

variable {e E : Int} {m M : Nat}

theorem then_eq_lt_iff :
    (compare e E).then (compare m M) = .lt ↔ toLex (e, (m : Int)) < toLex (E, (M : Int)) := by
  rw [Ordering.then_eq_lt, compare_lt_iff_lt, compare_eq_iff_eq, compare_lt_iff_lt, Prod.Lex.toLex_lt_toLex,
    Int.ofNat_lt]

theorem then_eq_gt_iff :
    (compare e E).then (compare m M) = .gt ↔ toLex (-e, -(m : Int)) < toLex (-E, -(M : Int)) := by
  rw [Ordering.then_eq_gt, compare_gt_iff_gt, compare_eq_iff_eq, compare_gt_iff_gt, Prod.Lex.toLex_lt_toLex]
  omega

end

theorem compare_eq_lt_iff_rank (x y : UnpackedFloat) :
    x.compare y = some .lt ↔ ∃ a ∈ rank x, ∃ b ∈ rank y, a < b := by
  cases x with
  | notANumber => cases y <;> simp [UnpackedFloat.compare, rank]
  | infinity s =>
      cases y with
      | notANumber => cases s <;> simp [UnpackedFloat.compare, rank]
      | infinity s' =>
          cases s <;> cases s' <;> simp [UnpackedFloat.compare, rank, Prod.Lex.toLex_lt_toLex]
          decide
      | zero _ => cases s <;> simp [UnpackedFloat.compare, rank, Prod.Lex.toLex_lt_toLex]
      | finite s' _ _ _ =>
          cases s <;> cases s' <;> simp [UnpackedFloat.compare, rank, Prod.Lex.toLex_lt_toLex]
  | zero _ =>
      cases y with
      | notANumber | zero _ => simp [UnpackedFloat.compare, rank]
      | infinity s' | finite s' _ _ _ =>
          cases s' <;> simp [UnpackedFloat.compare, rank, Prod.Lex.toLex_lt_toLex]
  | finite s _ _ _ =>
      cases y with
      | notANumber | zero _ => cases s <;> simp [UnpackedFloat.compare, rank, Prod.Lex.toLex_lt_toLex]
      | infinity s' | finite s' _ _ _ =>
          cases s <;> cases s' <;>
            simp [UnpackedFloat.compare, rank, Prod.Lex.toLex_lt_toLex, then_eq_lt_iff, then_eq_gt_iff]

variable {x y z : Float}

theorem lt_iff_rank : x < y ↔ ∃ a ∈ rank x.toModel.unpack, ∃ b ∈ rank y.toModel.unpack, a < b :=
  lt_iff_compare.trans (compare_eq_lt_iff_rank _ _)

theorem exists_rank (hx : x.isNaN = false) : ∃ a, rank x.toModel.unpack = some a := by
  change x.toModel.unpack.isNaN = false at hx
  cases h : x.toModel.unpack with
  | notANumber =>
      rw [h] at hx
      cases hx
  | zero _ => exact ⟨_, rfl⟩
  | infinity s | finite s _ _ _ =>
      cases s with
      | negative => exact ⟨_, rfl⟩
      | positive => exact ⟨_, rfl⟩

theorem lt_of_lt_of_lt (hxy : x < y) (hyz : y < z) : x < z := by
  obtain ⟨a, ha, b, hb, hab⟩ := lt_iff_rank.mp hxy
  obtain ⟨b', hb', c, hc, hbc⟩ := lt_iff_rank.mp hyz
  obtain rfl : b = b' := Option.mem_unique hb hb'
  exact lt_iff_rank.mpr ⟨a, ha, c, hc, hab.trans hbc⟩

-- A number stands on one side of any other one, if not with it.
theorem lt_or_lt_of_lt (hxz : x < z) (hy : y.isNaN = false) : x < y ∨ y < z := by
  obtain ⟨a, ha, c, hc, hac⟩ := lt_iff_rank.mp hxz
  obtain ⟨b, hb⟩ := exists_rank hy
  rcases lt_or_ge a b with hab | hba
  · exact .inl (lt_iff_rank.mpr ⟨a, ha, b, hb, hab⟩)
  · exact .inr (lt_iff_rank.mpr ⟨b, hb, c, hc, hba.trans_lt hac⟩)

theorem not_lt_self (x : Float) : ¬x < x := by
  intro h
  obtain ⟨a, ha, b, hb, hab⟩ := lt_iff_rank.mp h
  obtain rfl : a = b := Option.mem_unique ha hb
  exact lt_irrefl a hab

theorem isNaN_of_lt (h : x < y) : y.isNaN = false := by
  obtain ⟨_, _, b, hb, _⟩ := lt_iff_rank.mp h
  change y.toModel.unpack.isNaN = false
  cases hy : y.toModel.unpack with
  | notANumber =>
      rw [hy] at hb
      cases hb
  | infinity _ | zero _ | finite _ _ _ _ => rfl

-- Comparing the other way round turns the answer round.
theorem compare_swap (x y : UnpackedFloat) : y.compare x = (x.compare y).map Ordering.swap := by
  cases x with
  | notANumber => cases y <;> rfl
  | infinity s =>
      cases y with
      | notANumber => cases s <;> rfl
      | infinity s' => cases s <;> cases s' <;> rfl
      | zero _ => cases s <;> rfl
      | finite _ _ _ _ => cases s <;> rfl
  | zero _ =>
      cases y with
      | notANumber => rfl
      | infinity s' => cases s' <;> rfl
      | zero _ => rfl
      | finite s' _ _ _ => cases s' <;> rfl
  | finite s m e _ =>
      cases y with
      | notANumber => cases s <;> rfl
      | infinity s' => cases s <;> cases s' <;> rfl
      | zero _ => cases s <;> rfl
      | finite s' m' e' _ =>
          have hmagnitude : (compare e' e).then (compare m' m) =
              ((compare e e').then (compare m m')).swap := by
            rw [Ordering.swap_then, ← Std.OrientedCmp.eq_swap, ← Std.OrientedCmp.eq_swap]
          cases s <;> cases s' <;> simp [UnpackedFloat.compare, hmagnitude]

theorem le_iff_compare : x ≤ y ↔ (x.toModel.unpack.compare y.toModel.unpack).any Ordering.isLE = true :=
  ⟨of_decide_eq_true, decide_eq_true⟩

theorem Parts.le_iff {m M : Nat} {e E : Int} (hx : Parts x m e) (hy : Parts y M E) :
    x ≤ y ↔ value m e ≤ value M E := by
  have hcompare : x.toModel.unpack.compare y.toModel.unpack = some ((compare e E).then (compare m M)) := by
    rw [hx.unpacked, hy.unpacked]
    rfl
  rw [← not_lt, ← hy.lt_iff hx, lt_iff_compare, compare_swap, le_iff_compare, hcompare, Option.map_some,
    Option.some_inj]
  cases (compare e E).then (compare m M) <;> decide

theorem not_lt_of_le {x y : Float32} (h : x ≤ y) : ¬y < x := by
  have hle : (x.toModel.unpack.compare y.toModel.unpack).any Ordering.isLE = true :=
    of_decide_eq_true h
  intro hlt
  have hcompare : y.toModel.unpack.compare x.toModel.unpack = some .lt :=
    eq_of_beq (of_decide_eq_true hlt)
  rw [compare_swap, hcompare] at hle
  cases hle

-- The two zeros are equal in this sense.
theorem not_lt_of_beq {x y : Float} (h : (x == y) = true) : ¬y < x := by
  have heq : x.toModel.unpack.compare y.toModel.unpack = some .eq := eq_of_beq h
  intro hlt
  have hcompare : y.toModel.unpack.compare x.toModel.unpack = some .lt :=
    eq_of_beq (of_decide_eq_true hlt)
  rw [compare_swap, hcompare] at heq
  cases heq

-- What is kept of two numbers when the second may only take the place of a smaller one.
def larger (x y : Float) : Float :=
  if y > x then y else x

-- A number that none of the others beats, and that is one of them or what they had to beat.
structure Largest (start : Float) (xs : List Float) (x : Float) : Prop where
  mem : x = start ∨ x ∈ xs
  start_not_lt : ¬x < start
  not_lt : ∀ y ∈ xs, ¬x < y

-- Whatever is not a number beats nothing and is passed over.
theorem largest_foldl (xs : List Float) {start : Float} (hstart : start.isNaN = false) :
    Largest start xs (xs.foldl larger start) := by
  induction xs generalizing start with
  | nil => exact ⟨.inl rfl, not_lt_self start, nofun⟩
  | cons y rest ih =>
      rw [List.foldl_cons]
      by_cases hbeaten : start < y
      · rw [larger, if_pos hbeaten]
        obtain ⟨hmem, hy, hrest⟩ := ih (isNaN_of_lt hbeaten)
        refine ⟨?_, fun hlt => hy (lt_of_lt_of_lt hlt hbeaten), List.forall_mem_cons.mpr ⟨hy, hrest⟩⟩
        rcases hmem with hmem | hmem
        · rw [hmem]
          exact .inr List.mem_cons_self
        · exact .inr (List.mem_cons_of_mem y hmem)
      · rw [larger, if_neg hbeaten]
        obtain ⟨hmem, hkept, hrest⟩ := ih hstart
        refine ⟨hmem.imp_right (List.mem_cons_of_mem y), hkept,
          List.forall_mem_cons.mpr ⟨fun hlt => ?_, hrest⟩⟩
        rcases lt_or_lt_of_lt hlt hstart with hlow | hhigh
        · exact hkept hlow
        · exact hbeaten hhigh

end ParticleFx.Number
