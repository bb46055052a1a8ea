import Swansong.Slab
import Mathlib.Data.Set.Card
import Mathlib.Logic.Function.Basic

/-!
# A slab is a map with fresh keys

Seen from outside, a slab is a finite map that picks the keys itself.  Any sequence
of calls on the default slab, with any keys passed to `remove`, does to the slab's
map what the same calls may do to such a map, and returns the same.

## Main definitions

* `FreshMap.Step`, `FreshMap.Run` — the map, call by call and over a whole run.
* `Slab.run` — the same calls on the default slab.
* `slab_refines_map` — the refinement, with what the slots and the free list hold.
-/

namespace Swansong

/-- The calls on a slab. -/
inductive SlabOp (α : Type) where
  | insert (value : α)
  | remove (key : ℕ)

/-- What the calls return. -/
inductive SlabResult (α : Type) where
  | key (key : ℕ)
  | removed (value : Option α)

variable {α : Type}

namespace FreshMap

/-- A call on a map.  An insertion may take any key that is not mapped. -/
inductive Step : (ℕ → Option α) → SlabOp α → SlabResult α → (ℕ → Option α) → Prop
  | insert {m : ℕ → Option α} {value : α} {key : ℕ} (fresh : m key = none) :
      Step m (.insert value) (.key key) (Function.update m key (some value))
  | remove {m : ℕ → Option α} {key : ℕ} :
      Step m (.remove key) (.removed (m key)) (Function.update m key none)

/-- A sequence of calls on the empty map, and what they return. -/
inductive Run : List (SlabOp α) → List (SlabResult α) → (ℕ → Option α) → Prop
  | nil : Run [] [] fun _ => none
  | snoc {ops : List (SlabOp α)} {rs : List (SlabResult α)} {m m' : ℕ → Option α}
      {op : SlabOp α} {r : SlabResult α} :
      Run ops rs m → Step m op r m' → Run (ops ++ [op]) (rs ++ [r]) m'

/-- The list yields the value of each mapped key exactly once. -/
def Yields (m : ℕ → Option α) (values : List α) : Prop :=
  ∃ keys : List ℕ, keys.Nodup ∧ (∀ key, key ∈ keys ↔ m key ≠ none) ∧ values = keys.filterMap m

/-- How many keys are mapped. -/
noncomputable def mapped (m : ℕ → Option α) : ℕ := {key | m key ≠ none}.ncard

theorem Yields.mapped_eq {m : ℕ → Option α} {values : List α} (h : Yields m values) :
    mapped m = values.length := by
  obtain ⟨keys, hnd, hkeys, rfl⟩ := h
  have hset : {key | m key ≠ none} = (keys.toFinset : Set ℕ) := by
    ext key
    simp [hkeys]
  have hlen : (keys.filterMap m).length = keys.length := by
    rw [List.filterMap_length_eq_length]
    intro key hkey
    exact Option.isSome_iff_ne_none.mpr ((hkeys key).mp hkey)
  rw [mapped, hset, Set.ncard_coe_finset, List.toFinset_card_of_nodup hnd, hlen]

end FreshMap

namespace Slab

/-- The values, consuming the slab. -/
def intoValues (s : Slab α) : List α := s.slots.filterMap Slot.value?

/-- One call. -/
def apply (s : Slab α) : SlabOp α → SlabResult α × Slab α
  | .insert value => (.key (s.insert value).2, (s.insert value).1)
  | .remove key => (.removed (s.remove key).2, (s.remove key).1)

/-- The calls, in turn, on the default slab: what they return, and the slab they leave. -/
def run (ops : List (SlabOp α)) : List (SlabResult α) × Slab α :=
  ops.foldl (fun r op => (r.1 ++ [(r.2.apply op).1], (r.2.apply op).2)) ([], empty)

@[simp] theorem run_nil : run ([] : List (SlabOp α)) = ([], empty) := rfl

@[simp] theorem run_append (ops : List (SlabOp α)) (op : SlabOp α) :
    run (ops ++ [op]) = ((run ops).1 ++ [((run ops).2.apply op).1], ((run ops).2.apply op).2) := by
  simp [run, List.foldl_append]

/-! ## One call -/

/-- A call does to the slab's map what it may do to a map. -/
theorem step_apply (s : Slab α) (op : SlabOp α) :
    FreshMap.Step s.get op (s.apply op).1 (s.apply op).2.get := by
  cases op with
  | insert value =>
      have hget : (s.insert value).1.get = Function.update s.get (s.insert value).2 (some value) := by
        ext1 key
        rw [get_insert, Function.update_apply]
      rw [apply, hget]
      exact .insert (s.get_insert_key value)
  | remove key =>
      have hget : (s.remove key).1.get = Function.update s.get key none := by
        ext1 j
        rw [get_remove, Function.update_apply]
      rw [apply, hget, remove_value]
      exact .remove

/-- Reading the slots by their index yields them in order. -/
theorem filterMap_range_length (slots : List (Slot α)) :
    (List.range slots.length).filterMap (fun key => slots[key]?.bind Slot.value?) =
      slots.filterMap Slot.value? := by
  induction slots with
  | nil => rfl
  | cons slot slots ih =>
      rw [List.length_cons, List.range_succ_eq_map, List.filterMap_cons, List.filterMap_map]
      have htail : ((fun key => (slot :: slots)[key]?.bind Slot.value?) ∘ Nat.succ) =
          fun key => slots[key]?.bind Slot.value? := by
        ext1 key
        simp
      rw [htail, ih]
      cases slot <;> simp [List.filterMap_cons]

/-- The values are those of the mapped keys, each once. -/
theorem yields_values (s : Slab α) : FreshMap.Yields s.get s.values := by
  refine ⟨(List.range s.slots.length).filter fun key => (s.get key).isSome, ?_, ?_, ?_⟩
  · exact List.nodup_range.filter _
  · intro key
    have hlt : s.get key ≠ none → key < s.slots.length := by
      intro h
      by_contra hge
      exact h (by simp [get, List.getElem?_eq_none (Nat.le_of_not_lt hge)])
    simpa [Option.isSome_iff_ne_none] using hlt
  · rw [List.filterMap_filter, values, ← filterMap_range_length]
    congr 1
    ext1 key
    change s.get key = _
    cases s.get key <;> rfl

/-- With nothing on the free list every slot is occupied. -/
theorem length_values_of_full {s : Slab α} (h : s.slots[s.nextVacant]? = none) :
    s.values.length = s.slots.length := by
  rw [values, List.filterMap_length_eq_length]
  intro slot hslot
  obtain ⟨key, hkey⟩ := List.mem_iff_getElem?.mp hslot
  obtain ⟨ks, hl, -, hall⟩ := s.free
  cases slot with
  | occupied v => rfl
  | vacant n =>
      -- the free list leads to this slot, so it has a head
      cases ks with
      | nil => cases hall key n hkey
      | cons k ks =>
          obtain ⟨rfl, m, hm, -⟩ := hl
          rw [h] at hm
          cases hm

/-- `insert` adds a slot only when the free list is empty. -/
theorem length_slots_insert (s : Slab α) (value : α) :
    (s.insert value).1.slots.length = s.slots.length ∨
      (s.insert value).1.slots.length = s.slots.length + 1 ∧ s.slots[s.nextVacant]? = none := by
  unfold insert
  split
  · left
    simp
  · rename_i u h
    exact absurd h s.free.not_occupied
  · rename_i h
    right
    exact ⟨by simp, h⟩

theorem length_slots_remove (s : Slab α) (key : ℕ) :
    (s.remove key).1.slots.length = s.slots.length := by
  unfold remove
  split <;> simp

/-- A call adds a slot only when all slots are occupied, and then they still are. -/
theorem length_slots_apply (s : Slab α) (op : SlabOp α) :
    (s.apply op).2.slots.length = s.slots.length ∨
      (s.apply op).2.slots.length = s.slots.length + 1 ∧
        (s.apply op).2.values.length = (s.apply op).2.slots.length := by
  cases op with
  | insert value =>
      rcases s.length_slots_insert value with h | ⟨h, hnone⟩
      · exact .inl h
      · have hvalues := (s.values_insert value).length_eq
        rw [List.length_cons, length_values_of_full hnone] at hvalues
        exact .inr ⟨h, hvalues.trans h.symm⟩
  | remove key => exact .inl (s.length_slots_remove key)

theorem length_values_le (s : Slab α) : s.values.length ≤ s.slots.length :=
  List.length_filterMap_le _ _

/-! ## Runs -/

theorem length_slots_le_apply (s : Slab α) (op : SlabOp α) :
    s.slots.length ≤ (s.apply op).2.slots.length := by
  rcases s.length_slots_apply op with h | ⟨h, -⟩ <;> omega

/-- A run of calls never shortens the slots. -/
theorem length_slots_le_of_prefix {before ops : List (SlabOp α)} (h : before <+: ops) :
    (run before).2.slots.length ≤ (run ops).2.slots.length := by
  obtain ⟨after, rfl⟩ := h
  induction after using List.reverseRecOn with
  | nil => simp
  | append_singleton after op ih =>
      rw [← List.append_assoc, run_append]
      exact ih.trans (length_slots_le_apply _ _)

/-- At some moment of the run all the slots there are now were occupied. -/
theorem exists_full (ops : List (SlabOp α)) :
    ∃ before, before <+: ops ∧ (run before).2.values.length = (run ops).2.slots.length := by
  induction ops using List.reverseRecOn with
  | nil => exact ⟨[], List.prefix_rfl, rfl⟩
  | append_singleton ops op ih =>
      obtain ⟨before, hpre, hlen⟩ := ih
      rcases (run ops).2.length_slots_apply op with h | ⟨-, hfull⟩
      · refine ⟨before, hpre.trans (List.prefix_append _ _), ?_⟩
        rw [hlen, run_append, h]
      · refine ⟨ops ++ [op], List.prefix_rfl, ?_⟩
        rw [run_append, hfull]

theorem run_refines (ops : List (SlabOp α)) : FreshMap.Run ops (run ops).1 (run ops).2.get := by
  induction ops using List.reverseRecOn with
  | nil =>
      have hget : (empty : Slab α).get = fun _ => none := by
        ext1 key
        exact get_empty key
      rw [run_nil, hget]
      exact .nil
  | append_singleton ops op ih =>
      rw [run_append]
      exact .snoc ih (step_apply _ _)

end Slab

/-- **A slab refines a map with fresh keys**, over every sequence of calls: the calls
return what they return on a map that picks free keys, a key that is not mapped
removes nothing, the values are those of the mapped keys, the free list visits every
vacant slot once and ends at the end of the slots, and there are as many slots as
keys were ever mapped at once. -/
theorem slab_refines_map (ops : List (SlabOp α)) :
    FreshMap.Run ops (Slab.run ops).1 (Slab.run ops).2.get ∧
    (∀ key, (Slab.run ops).2.get key = none →
      ((Slab.run ops).2.remove key) = ((Slab.run ops).2, none)) ∧
    FreshMap.Yields (Slab.run ops).2.get (Slab.run ops).2.values ∧
    FreshMap.Yields (Slab.run ops).2.get (Slab.run ops).2.intoValues ∧
    (∃ ks, Linked (Slab.run ops).2.slots (Slab.run ops).2.nextVacant ks ∧ ks.Nodup ∧
      ∀ key, key ∈ ks ↔ ∃ next, (Slab.run ops).2.slots[key]? = some (.vacant next)) ∧
    IsGreatest {n | ∃ before, before <+: ops ∧ n = FreshMap.mapped (Slab.run before).2.get}
      (Slab.run ops).2.slots.length := by
  refine ⟨Slab.run_refines ops, ?_, Slab.yields_values _, Slab.yields_values _, ?_, ?_, ?_⟩
  · intro key hkey
    refine Prod.ext (Slab.remove_of_get_eq_none hkey) ?_
    rw [Slab.remove_value, hkey]
  · obtain ⟨ks, hl, hnd, hall⟩ := (Slab.run ops).2.free
    refine ⟨ks, hl, hnd, fun key => ⟨hl.vacant_of_mem, ?_⟩⟩
    rintro ⟨next, hnext⟩
    exact hall key next hnext
  · obtain ⟨before, hpre, hlen⟩ := Slab.exists_full ops
    refine ⟨before, hpre, ?_⟩
    rw [(Slab.yields_values _).mapped_eq, hlen]
  · rintro n ⟨before, hpre, rfl⟩
    rw [(Slab.yields_values _).mapped_eq]
    exact (Slab.length_values_le _).trans (Slab.length_slots_le_of_prefix hpre)

end Swansong
