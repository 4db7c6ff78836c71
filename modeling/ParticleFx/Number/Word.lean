import ParticleFx.Fault

-- Machine words. A number that leaves its word ends the program.

namespace ParticleFx.Word

-- A whole number of 64 bits with a sign.
def IsSigned (n : Int) : Prop := -0x8000000000000000 ≤ n ∧ n < 0x8000000000000000

instance (n : Int) : Decidable (IsSigned n) :=
  inferInstanceAs (Decidable (-0x8000000000000000 ≤ n ∧ n < 0x8000000000000000))

def signed (n : Int) : Except Fault Int :=
  if IsSigned n then .ok n else .error .aborted

theorem signed_of_isSigned {n : Int} (h : IsSigned n) : signed n = .ok n := if_pos h

theorem signed_eq_ok_iff {n m : Int} : signed n = .ok m ↔ IsSigned n ∧ n = m := by
  unfold signed
  split <;> simp [*]

-- A whole number of 64 bits without a sign.
def unsigned (n : Nat) : Except Fault Nat :=
  if n < UInt64.size then .ok n else .error .aborted

theorem unsigned_of_lt {n : Nat} (h : n < UInt64.size) : unsigned n = .ok n := if_pos h

theorem unsigned_eq_ok_iff {n m : Nat} : unsigned n = .ok m ↔ n < UInt64.size ∧ n = m := by
  unfold unsigned
  split <;> simp [*]

-- The most bytes that memory can be asked for at once.
def mostBytes : Nat := 0x7fffffffffffffff

-- Asks for memory. However much there is, more than the most is never given.
def allocate (bytes : Nat) : Except Fault Unit :=
  if bytes ≤ mostBytes then .ok () else .error .aborted

theorem allocate_of_le {bytes : Nat} (h : bytes ≤ mostBytes) : allocate bytes = .ok () := if_pos h

theorem allocate_of_lt {bytes : Nat} (h : mostBytes < bytes) : allocate bytes = .error .aborted :=
  if_neg (Nat.not_le.mpr h)

theorem allocate_eq_ok_iff {bytes : Nat} : allocate bytes = .ok () ↔ bytes ≤ mostBytes := by
  unfold allocate
  split <;> simp [*]

end ParticleFx.Word
