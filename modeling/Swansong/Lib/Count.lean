import Mathlib.Algebra.Order.Ring.Int
import Mathlib.Data.List.Basic
import Mathlib.Tactic.Common

/-!
# Counting in lists

How a count changes when one element of a list comes, goes or changes.
-/

namespace Count

open Classical in
/-- One if the condition holds, else zero. -/
noncomputable def bit (p : Prop) : ℤ := if p then 1 else 0

@[simp] theorem bit_true : bit True = 1 := by simp [bit]
@[simp] theorem bit_false : bit False = 0 := by simp [bit]

theorem bit_of {p : Prop} (h : p) : bit p = 1 := by simp [h]

theorem bit_of_not {p : Prop} (h : ¬p) : bit p = 0 := by simp [h]

theorem bit_nonneg (p : Prop) : 0 ≤ bit p := by
  unfold bit
  split <;> omega

theorem bit_le_one (p : Prop) : bit p ≤ 1 := by
  unfold bit
  split <;> omega

theorem bit_congr {p q : Prop} (h : p ↔ q) : bit p = bit q := by rw [propext h]

variable {α : Type}

theorem countP_cons (p : α → Bool) (a : α) (l : List α) :
    ((a :: l).countP p : ℤ) = l.countP p + bit (p a = true) := by
  rw [List.countP_cons]
  split <;> rename_i h <;> simp [h]

theorem countP_erase [BEq α] [LawfulBEq α] (p : α → Bool) {a : α} {l : List α} (h : a ∈ l) :
    ((l.erase a).countP p : ℤ) = l.countP p - bit (p a = true) := by
  have := countP_cons p a (l.erase a)
  rw [← (List.perm_cons_erase h).countP_eq p] at this
  omega

theorem countP_range_congr {p q : ℕ → Bool} {n : ℕ} (h : ∀ j < n, q j = p j) :
    (List.range n).countP q = (List.range n).countP p :=
  List.countP_congr fun j hj => by rw [h j (List.mem_range.mp hj)]

/-- Changing the predicate at one index. -/
theorem countP_range_update {p q : ℕ → Bool} {n k : ℕ} (hk : k < n)
    (h : ∀ j < n, j ≠ k → q j = p j) :
    ((List.range n).countP q : ℤ) = (List.range n).countP p + bit (q k = true) - bit (p k = true) := by
  induction n with
  | zero => omega
  | succ n ih =>
      simp only [List.range_succ, List.countP_append, List.countP_singleton, Nat.cast_add]
      rcases Nat.lt_succ_iff_lt_or_eq.mp hk with hk | rfl
      · rw [ih hk fun j hj => h j (by omega), h n (by omega) (by omega)]
        omega
      · rw [countP_range_congr fun j hj => h j (by omega) (by omega)]
        split <;> split <;> rename_i h₁ h₂ <;> simp [h₁, h₂]

theorem countP_range_succ (p : ℕ → Bool) (n : ℕ) :
    ((List.range (n + 1)).countP p : ℤ) = (List.range n).countP p + bit (p n = true) := by
  rw [List.range_succ, List.countP_append, List.countP_singleton]
  split <;> rename_i h <;> simp [h]

end Count
