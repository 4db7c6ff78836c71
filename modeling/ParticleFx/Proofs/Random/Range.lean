import Mathlib.Algebra.Group.Int.Defs
import ParticleFx.Proofs.Action
import ParticleFx.Random.Source

namespace ParticleFx.Source

variable {lo hi : Int}

theorem signed_bounds (w : UInt32) : -2 ^ 31 ≤ signed w ∧ signed w < 2 ^ 31 := by
  have hw : w.toNat < 2 ^ 32 := w.toNat_lt
  unfold signed UInt32.size
  split <;> omega

-- The high half of a product with a word is below the other factor. It stays so when one is added to it,
-- because the last value has too small a low half to be looked at again.
theorem high_lt {w span : Nat} (hw : w < UInt32.size) (hspan : 0 < span) :
    w * span / UInt32.size < span ∧
      (UInt32.size - span < w * span % UInt32.size → w * span / UInt32.size + 1 < span) := by
  have hproduct : w * span ≤ (UInt32.size - 1) * span := Nat.mul_le_mul_right span (by omega)
  unfold UInt32.size at *
  omega

-- A whole number that is drawn lies in its range. Both ends of it are numbers of 32 bits with a sign.
theorem gives_integer (hlo : -2 ^ 31 ≤ lo) (hle : lo ≤ hi) (hhi : hi < 2 ^ 31) :
    Act.Gives (fun n => lo ≤ n ∧ n ≤ hi) (integer lo hi) := by
  unfold integer
  split
  · exact .pure ⟨Int.le_refl lo, hle⟩
  · rename_i hlt
    dsimp only
    have hspan : ((hi - lo + 1) % UInt32.size).toNat = 0 ∧ hi - lo + 1 = 2 ^ 32 ∨
        (((hi - lo + 1) % UInt32.size).toNat : Int) = hi - lo + 1 := by
      unfold UInt32.size
      omega
    generalize ((hi - lo + 1) % UInt32.size).toNat = span at hspan ⊢
    split
    · refine .bind fun _ w _ _ => .pure ?_
      have hw := signed_bounds w
      omega
    · refine .bind fun _ w _ _ => ?_
      have hinside {n : Nat} (hn : n < span) : lo ≤ lo + (n : Int) ∧ lo + (n : Int) ≤ hi := by omega
      obtain ⟨hhigh, hcarry⟩ := high_lt w.toNat_lt_size (Nat.pos_of_ne_zero ‹span ≠ 0›)
      split
      · rename_i hlow
        refine .bind fun _ _ _ _ => .pure (hinside ?_)
        split
        · exact hcarry hlow
        · exact hhigh
      · exact .pure (hinside hhigh)

end ParticleFx.Source
