import Mathlib.Data.BitVec
import Mathlib.Tactic.Ring

/-!
# Records packed into words

A word that packs several fields is the concatenation of their bits.  Bitwise
operations act field by field; addition does as long as no field overflows, which is
what keeps a carry inside its field.

## Main results

* `append_inj` — a packed word determines its fields.
* `append_add_append` — addition field by field.
-/

namespace Packing

variable {v w : ℕ} {a c : BitVec v} {b d : BitVec w}

theorem toNat_append : (a ++ b).toNat = 2 ^ w * a.toNat + b.toNat := by
  rw [BitVec.toNat_append, Nat.shiftLeft_eq, mul_comm, Nat.two_pow_add_eq_or_of_lt b.isLt]

/-- A packed word determines its fields. -/
theorem append_inj : a ++ b = c ++ d ↔ a = c ∧ b = d := by
  constructor
  · intro h
    have hhi := congrArg (BitVec.extractLsb' w v) h
    have hlo := congrArg (BitVec.extractLsb' 0 w) h
    simp only [BitVec.extractLsb'_append_eq_left, BitVec.extractLsb'_append_eq_right] at hhi hlo
    exact ⟨hhi, hlo⟩
  · rintro ⟨rfl, rfl⟩
    rfl

/-- Adding field by field, when the low field has room. -/
theorem append_add_append (h : b.toNat + d.toNat < 2 ^ w) :
    (a ++ b) + (c ++ d) = (a + c) ++ (b + d) := by
  apply BitVec.eq_of_toNat_eq
  have hlow : (b + d).toNat = b.toNat + d.toNat := by
    rw [BitVec.toNat_add, Nat.mod_eq_of_lt h]
  have hsum : 2 ^ w * a.toNat + b.toNat + (2 ^ w * c.toNat + d.toNat) =
      2 ^ w * (a.toNat + c.toNat) + (b.toNat + d.toNat) := by ring
  rw [BitVec.toNat_add, toNat_append, toNat_append, toNat_append, hsum, hlow, BitVec.toNat_add,
    pow_add, mul_comm (2 ^ v), Nat.mod_mul, Nat.mul_add_mod, Nat.mod_eq_of_lt h,
    Nat.mul_add_div (Nat.two_pow_pos w), Nat.div_eq_of_lt h, add_zero, add_comm]

end Packing
