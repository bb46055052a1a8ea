import Mathlib.Data.List.Perm.Basic
import Mathlib.Data.List.Nodup
import Mathlib.Tactic.Common

/-!
# Values under stable keys

`Slab` keeps values under keys that stay valid until they are removed, and reuses
the keys of removed values.  The vacant slots form a free list that starts at
`nextVacant` and ends at the length of the slots; a slab carries the proof that its
free list visits every vacant slot once, so `insert` has no failing branch.

Clients see a slab as the finite map `get`.

## Main definitions

* `Slab`, `Slab.insert`, `Slab.remove`, `Slab.values` — the operations.
* `Slab.get` — the map a slab represents.
* `Slab.values_insert`, `Slab.values_remove` — what the operations do to the values.
-/

namespace Swansong

/-- A slot: a value, or a link to the next vacant slot. -/
inductive Slot (α : Type) where
  | occupied (value : α)
  | vacant (next : ℕ)
  deriving DecidableEq, Repr

namespace Slot
variable {α : Type}

/-- The value in a slot, if it is occupied. -/
def value? : Slot α → Option α
  | .occupied v => some v
  | .vacant _ => none

@[simp] theorem value?_occupied (v : α) : (Slot.occupied v).value? = some v := rfl
@[simp] theorem value?_vacant (n : ℕ) : (Slot.vacant n : Slot α).value? = none := rfl

end Slot

/-- `ks` are the slots linked from `next`, in order, up to the end of the slots. -/
def Linked {α : Type} (slots : List (Slot α)) : ℕ → List ℕ → Prop
  | next, [] => next = slots.length
  | next, k :: ks => next = k ∧ ∃ n, slots[k]? = some (.vacant n) ∧ Linked slots n ks

/-- The free list from `next` visits every vacant slot exactly once. -/
def FreeList {α : Type} (slots : List (Slot α)) (next : ℕ) : Prop :=
  ∃ ks, Linked slots next ks ∧ ks.Nodup ∧ ∀ k n, slots[k]? = some (.vacant n) → k ∈ ks

variable {α : Type}

/-- Linking looks at the slots of the list only. -/
theorem Linked.congr {slots slots' : List (Slot α)} (hlen : slots'.length = slots.length) :
    ∀ {ks : List ℕ} {next : ℕ}, (∀ k ∈ ks, slots'[k]? = slots[k]?) →
      Linked slots next ks → Linked slots' next ks
  | [], _, _, h => h.trans hlen.symm
  | k :: ks, _, hk, ⟨rfl, n, hn, h⟩ =>
      ⟨rfl, n, (hk k (by simp)).trans hn, h.congr hlen fun j hj => hk j (by simp [hj])⟩

/-- Linking visits vacant slots only. -/
theorem Linked.vacant_of_mem {slots : List (Slot α)} {ks : List ℕ} {next key : ℕ}
    (hl : Linked slots next ks) (hk : key ∈ ks) : ∃ n, slots[key]? = some (.vacant n) := by
  induction ks generalizing next with
  | nil => cases hk
  | cons k ks ih =>
      obtain ⟨-, n, hn, hl⟩ := hl
      rcases List.mem_cons.mp hk with rfl | hk
      · exact ⟨n, hn⟩
      · exact ih hl hk

/-- A free list never leads to an occupied slot. -/
theorem FreeList.not_occupied {slots : List (Slot α)} {next : ℕ} (h : FreeList slots next)
    {v : α} : slots[next]? ≠ some (.occupied v) := by
  obtain ⟨ks, hl, -, -⟩ := h
  cases ks with
  | nil =>
      simp [show next = slots.length from hl]
  | cons k ks =>
      obtain ⟨rfl, n, hn, -⟩ := hl
      simp [hn]

/-- Reusing the vacant slot at the head of the free list. -/
theorem FreeList.reuse {slots : List (Slot α)} {key next : ℕ} (h : FreeList slots key)
    (hkey : slots[key]? = some (.vacant next)) (v : α) :
    FreeList (slots.set key (.occupied v)) next := by
  obtain ⟨ks, hl, hnd, hall⟩ := h
  cases ks with
  | nil =>
      simp [show key = slots.length from hl] at hkey
  | cons k ks =>
      obtain ⟨rfl, n, hn, hl⟩ := hl
      obtain rfl : n = next := by simpa [hn] using hkey
      rw [List.nodup_cons] at hnd
      refine ⟨ks, hl.congr (by simp) ?_, hnd.2, ?_⟩
      · intro j hj
        have hne : key ≠ j := fun he => hnd.1 (he ▸ hj)
        rw [List.getElem?_set_ne hne]
      · intro j m hj
        rcases eq_or_ne key j with rfl | hne
        · have hlt := (List.getElem?_eq_some_iff.mp hn).1
          simp [List.getElem?_set_self hlt] at hj
        · rw [List.getElem?_set_ne hne] at hj
          exact List.mem_of_ne_of_mem hne.symm (hall j m hj)

/-- Pushing a slot when none is vacant. -/
theorem FreeList.push {slots : List (Slot α)} {key : ℕ} (h : FreeList slots key)
    (hkey : slots[key]? = none) (v : α) :
    FreeList (slots ++ [Slot.occupied v]) (slots ++ [Slot.occupied v]).length := by
  obtain ⟨ks, hl, -, hall⟩ := h
  cases ks with
  | nil =>
      refine ⟨[], rfl, List.nodup_nil, ?_⟩
      intro j m hj
      rw [List.getElem?_append] at hj
      split at hj
      · exact hall j m hj
      · rw [List.getElem?_singleton] at hj
        split at hj <;> simp at hj
  | cons k ks =>
      obtain ⟨rfl, n, hn, -⟩ := hl
      simp [hn] at hkey

/-- Vacating an occupied slot puts it at the head of the free list. -/
theorem FreeList.vacate {slots : List (Slot α)} {key next : ℕ} {v : α}
    (h : FreeList slots next) (hkey : slots[key]? = some (.occupied v)) :
    FreeList (slots.set key (.vacant next)) key := by
  obtain ⟨ks, hl, hnd, hall⟩ := h
  have hlt := (List.getElem?_eq_some_iff.mp hkey).1
  have hnot : key ∉ ks := by
    intro hk
    obtain ⟨n, hn⟩ := hl.vacant_of_mem hk
    simp [hkey] at hn
  refine ⟨key :: ks, ⟨rfl, next, by simp [List.getElem?_set_self hlt], ?_⟩, ?_, ?_⟩
  · refine hl.congr (by simp) ?_
    intro j hj
    have hne : key ≠ j := fun he => hnot (by rwa [he])
    rw [List.getElem?_set_ne hne]
  · exact List.nodup_cons.mpr ⟨hnot, hnd⟩
  · intro j m hj
    rcases eq_or_ne key j with rfl | hne
    · simp
    · rw [List.getElem?_set_ne hne] at hj
      exact List.mem_cons_of_mem _ (hall j m hj)

/-- Values under stable keys.  `nextVacant` is the head of the free list, or the
length of the slots if none is vacant. -/
structure Slab (α : Type) where
  slots : List (Slot α)
  nextVacant : ℕ
  free : FreeList slots nextVacant

namespace Slab

/-- The default slab holds nothing. -/
def empty : Slab α := ⟨[], 0, [], rfl, List.nodup_nil, by simp⟩

instance : Inhabited (Slab α) := ⟨empty⟩

/-- Insert a value under a fresh key, which is the key returned.  The head of the
free list is reused, or a slot is pushed if there is none. -/
def insert (s : Slab α) (value : α) : Slab α × ℕ :=
  match h : s.slots[s.nextVacant]? with
  | some (.vacant next) =>
    (⟨s.slots.set s.nextVacant (.occupied value), next, s.free.reuse h value⟩, s.nextVacant)
  | some (.occupied _) => absurd h s.free.not_occupied
  | none =>
    (⟨s.slots ++ [Slot.occupied value], (s.slots ++ [Slot.occupied value]).length,
      s.free.push h value⟩, s.nextVacant)

/-- Remove and return the value under a key, if there is one. -/
def remove (s : Slab α) (key : ℕ) : Slab α × Option α :=
  match h : s.slots[key]? with
  | some (.occupied value) =>
    (⟨s.slots.set key (.vacant s.nextVacant), key, s.free.vacate h⟩, some value)
  | _ => (s, none)

/-- The values, in slot order. -/
def values (s : Slab α) : List α := s.slots.filterMap Slot.value?

/-- The value under a key. -/
def get (s : Slab α) (key : ℕ) : Option α := s.slots[key]?.bind Slot.value?

@[simp] theorem get_empty (key : ℕ) : (empty : Slab α).get key = none := by simp [get, empty]

@[simp] theorem values_empty : (empty : Slab α).values = [] := rfl

theorem get_eq_some {s : Slab α} {key : ℕ} {v : α} :
    s.get key = some v ↔ s.slots[key]? = some (.occupied v) := by
  rw [get, Option.bind_eq_some_iff]
  constructor
  · rintro ⟨slot, hslot, hv⟩
    cases slot with
    | occupied u => simp only [Slot.value?_occupied, Option.some.injEq] at hv; rw [hslot, hv]
    | vacant n => cases hv
  · exact fun h => ⟨_, h, rfl⟩

theorem mem_values {s : Slab α} {v : α} : v ∈ s.values ↔ ∃ key, s.get key = some v := by
  simp only [values, List.mem_filterMap, get_eq_some]
  constructor
  · rintro ⟨slot, hslot, hv⟩
    obtain ⟨key, hkey⟩ := List.mem_iff_getElem?.mp hslot
    cases slot with
    | occupied u => simp only [Slot.value?_occupied, Option.some.injEq] at hv; exact ⟨key, hv ▸ hkey⟩
    | vacant n => cases hv
  · rintro ⟨key, hkey⟩
    exact ⟨_, List.mem_of_getElem? hkey, rfl⟩

/-! ## Insertion -/

/-- The key `insert` returns was not mapped. -/
theorem get_insert_key (s : Slab α) (v : α) : s.get (s.insert v).2 = none := by
  unfold insert
  split
  · rename_i next h; simp [get, h]
  · rename_i u h; exact absurd h s.free.not_occupied
  · rename_i h; simp [get, h]

/-- `insert` maps its key to the value and no other key to anything else. -/
theorem get_insert (s : Slab α) (v : α) (key : ℕ) :
    (s.insert v).1.get key = if key = (s.insert v).2 then some v else s.get key := by
  unfold insert
  split
  · rename_i next h
    have hlt := (List.getElem?_eq_some_iff.mp h).1
    rcases eq_or_ne key s.nextVacant with rfl | hne
    · simp [get, List.getElem?_set_self hlt]
    · simp [get, List.getElem?_set_ne hne.symm, hne]
  · rename_i u h; exact absurd h s.free.not_occupied
  · rename_i h
    -- the free list is empty, so its head is the end of the slots
    have hend : s.nextVacant = s.slots.length := by
      obtain ⟨ks, hl, -, -⟩ := s.free
      cases ks with
      | nil => exact hl
      | cons k ks => obtain ⟨rfl, n, hn, -⟩ := hl; simp [hn] at h
    rcases eq_or_ne key s.nextVacant with rfl | hne
    · simp [get, hend]
    · rw [if_neg hne, get, get, List.getElem?_append]
      split
      · rfl
      · rename_i hge
        have hgt : s.slots.length < key := by omega
        rw [List.getElem?_eq_none (by simp; omega), List.getElem?_eq_none (by omega)]

/-- Replacing one slot replaces its value. -/
theorem perm_filterMap_set {slots : List (Slot α)} {key : ℕ} {old : Slot α}
    (h : slots[key]? = some old) (new : Slot α) :
    (old.value?.toList ++ (slots.set key new).filterMap Slot.value?).Perm
      (new.value?.toList ++ slots.filterMap Slot.value?) := by
  induction slots generalizing key with
  | nil => simp at h
  | cons s slots ih =>
      cases key with
      | zero =>
          obtain rfl : s = old := by simpa using h
          cases s <;> cases new <;> simp [List.filterMap_cons, List.Perm.swap]
      | succ key =>
          have ih := @ih key (by simpa using h)
          cases s with
          | occupied u =>
              simp only [List.set_cons_succ, List.filterMap_cons, Slot.value?_occupied]
              exact List.perm_middle.trans ((ih.cons u).trans List.perm_middle.symm)
          | vacant n => simpa [List.filterMap_cons] using ih

theorem values_insert (s : Slab α) (v : α) : (s.insert v).1.values.Perm (v :: s.values) := by
  unfold insert
  split
  · rename_i next h
    simpa [values] using perm_filterMap_set h (.occupied v)
  · rename_i u h; exact absurd h s.free.not_occupied
  · simp [values]

/-! ## Removal -/

/-- `remove` returns what its key is mapped to. -/
theorem remove_value (s : Slab α) (key : ℕ) : (s.remove key).2 = s.get key := by
  unfold remove
  split
  · rename_i v h
    exact (get_eq_some.mpr h).symm
  · rename_i h
    rw [eq_comm, ← Option.not_isSome_iff_eq_none, Option.isSome_iff_exists]
    rintro ⟨v, hv⟩
    exact h v (get_eq_some.mp hv)

/-- Removing a key that is not mapped changes nothing. -/
theorem remove_of_get_eq_none {s : Slab α} {key : ℕ} (h : s.get key = none) :
    (s.remove key).1 = s := by
  unfold remove
  split
  · rename_i v hv
    rw [get_eq_some.mpr hv] at h
    cases h
  · rfl

/-- `remove` unmaps its key and no other. -/
theorem get_remove (s : Slab α) (key j : ℕ) :
    (s.remove key).1.get j = if j = key then none else s.get j := by
  rcases eq_or_ne j key with rfl | hne
  · rw [if_pos rfl]
    cases h : s.get j with
    | none => rw [remove_of_get_eq_none h, h]
    | some v =>
        rw [get_eq_some] at h
        have hlt := (List.getElem?_eq_some_iff.mp h).1
        unfold remove
        split
        · simp [get, List.getElem?_set_self hlt]
        · rename_i hv; exact absurd h (hv v)
  · rw [if_neg hne]
    unfold remove
    split
    · simp [get, List.getElem?_set_ne hne.symm]
    · rfl

theorem values_remove {s : Slab α} {key : ℕ} {v : α} (h : s.get key = some v) :
    s.values.Perm (v :: (s.remove key).1.values) := by
  unfold remove
  split
  · rename_i u hu
    obtain rfl : u = v := by simpa [get_eq_some.mpr hu] using h
    simpa [values] using (perm_filterMap_set hu (.vacant s.nextVacant)).symm
  · rename_i hv
    exact absurd (get_eq_some.mp h) (hv v)

example : ((empty.insert 'a').1.insert 'b').1.values = ['a', 'b'] := by decide

end Slab
end Swansong
