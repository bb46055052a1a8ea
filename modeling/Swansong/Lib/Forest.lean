import Mathlib.Algebra.Order.Ring.Int
import Mathlib.Data.List.Perm.Lattice
import Mathlib.Data.List.Flatten
import Mathlib.Logic.Relation

/-!
# Forests that are given by parents

Nodes are numbers, and a node's parent is below it.  Some nodes are alive; a node's
live children can be listed.  A visit lists a node and then, in turn, what the visits
of its live children list: every live node below it, once.

## Main definitions

* `Above` — a node's ancestors, itself included.
* `visit` — the nodes a walk from a node visits, in order.
* `Lists` — the lists of children are right.

## Main results

* `Lists.mem_visit`, `Lists.nodup_visit` — a visit lists the live nodes below once.
* `Lists.sum_visit` — what a visit gathers, child by child.
* `perm_flatMap_filter` — gathering things by their keys.
-/

namespace Forest

/-- `p` is the parent of `c`. -/
def Up (parent : ℕ → Option ℕ) (c p : ℕ) : Prop := parent c = some p

/-- `a` is `n` or an ancestor of it. -/
abbrev Above (parent : ℕ → Option ℕ) (n a : ℕ) : Prop := Relation.ReflTransGen (Up parent) n a

/-- A node, and then what the visits of its children list; `fuel` bounds the depth. -/
def visit (kids : ℕ → List ℕ) : ℕ → ℕ → List ℕ
  | 0, _ => []
  | fuel + 1, n => n :: (kids n).flatMap (visit kids fuel)

variable {parent : ℕ → Option ℕ} {alive : ℕ → Prop} {kids : ℕ → List ℕ} {size n m a b c : ℕ}

theorem up_rightUnique : Relator.RightUnique (Up parent) := fun _ _ _ hp hq =>
  Option.some.inj (hp.symm.trans hq)

/-- The lists of children are right: parents are below their children, the parent of a
live node is alive, and a live node's list has each live child once. -/
structure Lists (parent : ℕ → Option ℕ) (alive : ℕ → Prop) (kids : ℕ → List ℕ) (size : ℕ) :
    Prop where
  below : ∀ {c p}, parent c = some p → p < c
  bounded : ∀ {n}, alive n → n < size
  up : ∀ {c p}, parent c = some p → alive c → alive p
  mem : ∀ {n c}, alive n → (c ∈ kids n ↔ parent c = some n ∧ alive c)
  nodup : ∀ {n}, alive n → (kids n).Nodup

namespace Lists
variable (hl : Lists parent alive kids size)
include hl

theorem le_of_above (h : Above parent n a) : a ≤ n := by
  induction h with
  | refl => exact Nat.le_refl _
  | tail _ hp ih => exact Nat.le_trans (Nat.le_of_lt (hl.below hp)) ih

/-- The ancestors of a live node are alive. -/
theorem alive_of_above (h : Above parent n a) (hn : alive n) : alive a := by
  induction h with
  | refl => exact hn
  | tail _ hp ih => exact hl.up hp ih

/-- A node is above another through one child only. -/
theorem child_unique (ha : parent a = some n) (hb : parent b = some n) (hma : Above parent m a)
    (hmb : Above parent m b) : a = b := by
  have hno : ∀ {a b}, parent a = some n → parent b = some n → Above parent a b → a = b := by
    intro a b ha hb hab
    rcases hab.cases_head with rfl | ⟨p, hp, hpb⟩
    · rfl
    · -- otherwise the parent is below its own child
      obtain rfl : p = n := Option.some.inj (hp.symm.trans ha)
      have := hl.le_of_above hpb
      have := hl.below hb
      omega
  rcases Relation.ReflTransGen.total_of_right_unique up_rightUnique hma hmb with hab | hba
  · exact hno ha hb hab
  · exact (hno hb ha hba).symm

/-- A visit lists the live nodes below. -/
theorem mem_visit : ∀ {fuel n}, size ≤ n + fuel → alive n →
    (m ∈ visit kids fuel n ↔ Above parent m n ∧ alive m) := by
  intro fuel
  induction fuel with
  | zero => intro n hf hn; exact absurd (hl.bounded hn) (by omega)
  | succ fuel ih =>
      intro n hf hn
      have hkid : ∀ {c}, c ∈ kids n → parent c = some n ∧ size ≤ c + fuel ∧ alive c := by
        intro c hc
        obtain ⟨hp, hlive⟩ := (hl.mem hn).mp hc
        have := hl.below hp
        exact ⟨hp, by omega, hlive⟩
      rw [visit, List.mem_cons, List.mem_flatMap]
      constructor
      · rintro (rfl | ⟨c, hc, hm⟩)
        · exact ⟨.refl, hn⟩
        · obtain ⟨hp, hcf, hlive⟩ := hkid hc
          obtain ⟨habove, hm⟩ := (ih hcf hlive).mp hm
          exact ⟨habove.tail hp, hm⟩
      · rintro ⟨habove, hm⟩
        rcases habove.cases_tail with rfl | ⟨c, hmc, hp⟩
        · exact .inl rfl
        · have hc := (hl.mem hn).mpr ⟨hp, hl.alive_of_above hmc hm⟩
          obtain ⟨-, hcf, hlive⟩ := hkid hc
          exact .inr ⟨c, hc, (ih hcf hlive).mpr ⟨hmc, hm⟩⟩

/-- A visit lists no node twice. -/
theorem nodup_visit : ∀ {fuel n}, size ≤ n + fuel → alive n → (visit kids fuel n).Nodup := by
  intro fuel
  induction fuel with
  | zero => intro n _ _; exact List.nodup_nil
  | succ fuel ih =>
      intro n hf hn
      have hkid : ∀ {c}, c ∈ kids n → parent c = some n ∧ size ≤ c + fuel ∧ alive c := by
        intro c hc
        obtain ⟨hp, hlive⟩ := (hl.mem hn).mp hc
        have := hl.below hp
        exact ⟨hp, by omega, hlive⟩
      rw [visit, List.nodup_cons]
      constructor
      · intro hmem
        obtain ⟨c, hc, hm⟩ := List.mem_flatMap.mp hmem
        obtain ⟨hp, hcf, hlive⟩ := hkid hc
        have := hl.le_of_above ((hl.mem_visit hcf hlive).mp hm).1
        have := hl.below hp
        omega
      · refine List.nodup_flatMap.mpr ⟨fun c hc => ih (hkid hc).2.1 (hkid hc).2.2, ?_⟩
        refine (hl.nodup hn).imp_of_mem fun {a b} ha hb hne m hma hmb => ?_
        obtain ⟨hpa, hfa, hla⟩ := hkid ha
        obtain ⟨hpb, hfb, hlb⟩ := hkid hb
        exact hne (hl.child_unique hpa hpb ((hl.mem_visit hfa hla).mp hma).1
          ((hl.mem_visit hfb hlb).mp hmb).1)

/-- The fuel makes no difference, if there is enough. -/
theorem visit_congr : ∀ {fuel fuel' n}, size ≤ n + fuel → size ≤ n + fuel' → alive n →
    visit kids fuel n = visit kids fuel' n := by
  intro fuel
  induction fuel with
  | zero => intro fuel' n hf _ hn; exact absurd (hl.bounded hn) (by omega)
  | succ fuel ih =>
      intro fuel' n hf hf' hn
      cases fuel' with
      | zero => exact absurd (hl.bounded hn) (by omega)
      | succ fuel' =>
          rw [visit, visit]
          refine congrArg (n :: ·) (List.flatMap_congr fun c hc => ?_)
          obtain ⟨hp, hlive⟩ := (hl.mem hn).mp hc
          have := hl.below hp
          exact ih (by omega) (by omega) hlive

/-- What a visit gathers is what it gathers at the node, and what the visits of its
live children gather. -/
theorem sum_visit {A : Type} [AddMonoid A] (v : ℕ → A) {fuel : ℕ} (hf : size ≤ n + fuel)
    (hn : alive n) : ((visit kids fuel n).map v).sum =
      v n + ((kids n).map fun c => ((visit kids fuel c).map v).sum).sum := by
  cases fuel with
  | zero => exact absurd (hl.bounded hn) (by omega)
  | succ fuel =>
      have hkids : ∀ c ∈ kids n, visit kids fuel c = visit kids (fuel + 1) c := by
        intro c hc
        obtain ⟨hp, hlive⟩ := (hl.mem hn).mp hc
        have := hl.below hp
        exact hl.visit_congr (by omega) (by omega) hlive
      rw [visit, List.map_cons, List.sum_cons, List.map_flatMap, List.flatMap, List.sum_flatten,
        List.map_map]
      refine congrArg (v n + ·) (congrArg List.sum (List.map_congr_left fun c hc => ?_))
      rw [Function.comp_apply, hkids c hc]

end Lists

/-! ## Gathering by keys -/

variable {α β : Type}

theorem perm_filter_or {p q : α → Bool} (hpq : ∀ x, p x = true → q x = false) (xs : List α) :
    (xs.filter p ++ xs.filter q).Perm (xs.filter fun x => p x || q x) := by
  induction xs with
  | nil => exact .nil
  | cons x xs ih =>
      rcases hp : p x with _ | _
      · rcases hq : q x with _ | _
        · simpa [hp, hq] using ih
        · simpa [hp, hq] using List.perm_middle.trans (ih.cons x)
      · simpa [hp, hpq x hp] using ih

/-- Gathering things key by key gathers those whose key is listed. -/
theorem perm_flatMap_filter [DecidableEq β] (key : α → β) (xs : List α) :
    ∀ {keys : List β}, keys.Nodup →
      (keys.flatMap fun k => xs.filter fun x => key x = k).Perm (xs.filter fun x => key x ∈ keys)
  | [], _ => by simp
  | k :: keys, hnd => by
      obtain ⟨hk, hnd⟩ := List.nodup_cons.mp hnd
      rw [List.flatMap_cons]
      refine ((perm_flatMap_filter key xs hnd).append_left _).trans ?_
      refine (perm_filter_or (fun x hx => ?_) xs).trans ?_
      · have hx : key x = k := by simpa using hx
        simpa [hx] using hk
      · simp [List.mem_cons]

/-- Counting things key by key counts those whose key is listed. -/
theorem sum_countP [DecidableEq β] (key : α → β) (xs : List α) {keys : List β} (hnd : keys.Nodup) :
    (keys.map fun k => xs.countP fun x => key x = k).sum = xs.countP fun x => key x ∈ keys := by
  have hlen := (perm_flatMap_filter key xs hnd).length_eq
  simpa [List.length_flatMap, List.countP_eq_length_filter] using hlen

end Forest
