import Swansong.Lib.Forest
import Mathlib.Data.List.Induction

/-!
# Grouping by keys

Things are gathered into an ordered map by their keys, each key's value folded from the
things that have it.  The map has one value for each key that occurs, and its value is
what the fold over these things alone gives.

## Main definitions

* `group` — the map.
* `getElem?_group` — its value at a key.
* `groups` — its values, in the order of the keys.
-/

namespace Grouping

variable {α κ β : Type} [Ord κ] (key : α → κ) (init : κ → β) (add : β → α → β)

/-- One more thing is added to the value of its key, which is `init` at first. -/
def insert (m : Std.TreeMap κ β) (x : α) : Std.TreeMap κ β :=
  m.alter (key x) fun b => some (add (b.getD (init (key x))) x)

/-- The things are added to the values of their keys, one by one. -/
def group (xs : List α) : Std.TreeMap κ β := xs.foldl (insert key init add) ∅

/-- The values, in the order of their keys. -/
def groups (xs : List α) : List (κ × β) := (group key init add xs).toList

variable {key init add} [Std.TransOrd κ] [Std.LawfulEqOrd κ] [DecidableEq κ] {xs ys : List α} {k : κ}

/-- The value of a key is folded from the things that have it. -/
theorem getElem?_group : (group key init add xs)[k]? =
    if (xs.filter fun x => key x = k) = [] then none
    else some ((xs.filter fun x => key x = k).foldl add (init k)) := by
  induction xs using List.reverseRecOn with
  | nil => simp [group]
  | append_singleton xs x ih =>
      have hstep : group key init add (xs ++ [x]) = insert key init add (group key init add xs) x := by
        simp [group, List.foldl_append]
      rw [hstep, insert, Std.TreeMap.getElem?_alter, List.filter_append]
      by_cases hk : key x = k
      · subst hk
        rw [if_pos Std.ReflCmp.compare_self, ih]
        by_cases hnone : (xs.filter fun y => key y = key x) = []
        · simp [hnone]
        · simp [hnone, List.foldl_append]
      · have hne : compare (key x) k ≠ .eq := fun he => hk (Std.LawfulEqCmp.eq_of_compare he)
        rw [if_neg hne, ih]
        simp [hk]

theorem mem_groups {b : β} : (k, b) ∈ groups key init add xs ↔
    (xs.filter fun x => key x = k) ≠ [] ∧ b = (xs.filter fun x => key x = k).foldl add (init k) := by
  rw [groups, Std.TreeMap.mem_toList_iff_getElem?_eq_some, getElem?_group]
  by_cases hnone : (xs.filter fun x => key x = k) = []
  · simp [hnone]
  · rw [if_neg hnone, Option.some.injEq]
    exact ⟨fun he => ⟨hnone, he.symm⟩, fun he => he.2.symm⟩

omit [DecidableEq κ] in
/-- Each key has one value. -/
theorem nodup_groups : ((groups key init add xs).map Prod.fst).Nodup := by
  refine List.pairwise_map.mpr (Std.TreeMap.distinct_keys_toList.imp fun {p q} hne he => hne ?_)
  rw [he]
  exact Std.ReflCmp.compare_self

theorem mem_keys_groups : k ∈ (groups key init add xs).map Prod.fst ↔ ∃ x ∈ xs, key x = k := by
  rw [List.mem_map]
  constructor
  · rintro ⟨⟨k, b⟩, hb, rfl⟩
    obtain ⟨x, hx⟩ := List.exists_mem_of_ne_nil _ (mem_groups.mp hb).1
    obtain ⟨hx, hk⟩ := List.mem_filter.mp hx
    exact ⟨x, hx, of_decide_eq_true hk⟩
  · rintro ⟨x, hx, rfl⟩
    have hne : (xs.filter fun y => key y = key x) ≠ [] :=
      List.ne_nil_of_mem (List.mem_filter.mpr ⟨hx, by simp⟩)
    exact ⟨_, mem_groups.mpr ⟨hne, rfl⟩, rfl⟩

/-- The sizes of the groups add up to the number of things. -/
theorem sum_groups {size : κ × β → ℕ}
    (hsize : ∀ p ∈ groups key init add xs, size p = xs.countP fun x => key x = p.1) :
    ((groups key init add xs).map size).sum = xs.length := by
  have hkeys : (groups key init add xs).map size =
      ((groups key init add xs).map Prod.fst).map fun k => xs.countP fun x => key x = k := by
    rw [List.map_map]
    exact List.map_congr_left hsize
  rw [hkeys, Forest.sum_countP key xs nodup_groups, List.countP_eq_length]
  intro x hx
  exact decide_eq_true (mem_keys_groups.mpr ⟨x, hx, rfl⟩)

end Grouping
