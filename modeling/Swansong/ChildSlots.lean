import Swansong.Quiescence
import Swansong.SlabMap

/-!
# Children are registered exactly while alive

From the end of its registration to the end of its `Inner::drop` a child occupies
one slot, on the parent shard and under the key of its `Parent` link, and its drop
removes that slot.  A snapshot of the children that no other step interrupts is the
list of the live children.

## Main definitions

* `liveChildren` — `Inner::live_children`.
* `Snapshot` — a call of it in flight.
* `Enrolled` — a child between its registration and the end of its drop.
* `children_registered` — the slots of the children.
-/

namespace Swansong

open Interleave (Machine total total_nonneg_of_mem)
open Count (bit bit_of bit_of_not)

variable {h : Heap} {fr : Multiset Frame} {s : State} {n m c p : NodeId} {sh : ShardId}

/-! ## Snapshots of the children -/

/-- `Inner::live_children`, with no other step in between. -/
def liveChildren (h : Heap) (n : NodeId) : List NodeId :=
  (h.shards n).flatMap fun sh => shardChildren h sh

/-- The occupied child slots of a node. -/
def childSlots (h : Heap) (n : NodeId) : List NodeId :=
  (h.shards n).flatMap fun sh => (h.children sh).values

/-- The live children of a node. -/
def Heap.liveChildrenOf (h : Heap) (n : NodeId) : List NodeId :=
  (List.range h.size).filter fun c => h.Live c ∧ (h.parent c).map Parent.node = some n

theorem Heap.mem_liveChildrenOf (hw : h.Wf) :
    c ∈ h.liveChildrenOf n ↔ h.Live c ∧ ∃ q, h.parent c = some q ∧ q.node = n := by
  simp only [liveChildrenOf, List.mem_filter, List.mem_range, decide_eq_true_eq,
    Option.map_eq_some_iff]
  constructor
  · exact fun h => h.2
  · exact fun h => ⟨hw.lt_of_live h.1, h⟩

theorem Heap.nodup_liveChildrenOf : (h.liveChildrenOf n).Nodup := List.nodup_range.filter _

/-- Upgrading weak pointers revives nobody. -/
theorem shardChildren_upgradeAll {cs : List NodeId} (hcs : ∀ c ∈ cs, 0 < h.strong c) :
    shardChildren (upgradeAll h cs) sh = shardChildren h sh := by
  refine List.filter_congr fun c _ => decide_eq_decide.mpr ?_
  simp only [upgradeAll]
  by_cases hc : c ∈ cs
  · have := hcs c hc
    omega
  · rw [List.count_eq_zero_of_not_mem hc, Nat.add_zero]

theorem upgradeAll_append (as bs : List NodeId) :
    upgradeAll (upgradeAll h as) bs = upgradeAll h (as ++ bs) := by
  simp [upgradeAll, Nat.add_assoc]

theorem Heap.shards_drop {i : ℕ} (hi : i < h.shardCount n) :
    (h.shards n).drop i = ⟨n, i⟩ :: (h.shards n).drop (i + 1) := by
  have hlt : i < (h.shards n).length := by simpa [Heap.shards] using hi
  rw [List.drop_eq_getElem_cons hlt]
  simp [Heap.shards]

/-- A call of `Inner::live_children` on the node, by a stop, or by a count or a report:
`F j l` is its frame when it has been through the shards below `j` and found `l`. -/
inductive Snapshot (n : NodeId) : (ℕ → List NodeId → Frame) → Prop
  | stop : Snapshot n fun j l => .stop (.liveChildren n j l)
  | walk (report : Bool) (todo : List WalkItem) (total : ℕ) (out : List InfoId) :
      Snapshot n fun j l => .walk report (.children n j l :: todo) total out

theorem Snapshot.exec_lt {F : ℕ → List NodeId → Frame} (hF : Snapshot n F) {index j : ℕ} {b : Bool}
    {l : List NodeId} (hj : j < h.shardCount n) : exec index b h (F j l) =
      (upgradeAll h (shardChildren h ⟨n, j⟩), [F (j + 1) (l ++ shardChildren h ⟨n, j⟩)]) := by
  cases hF with
  | stop => simp [exec, execStop, hj]
  | walk report todo total out => simp [exec, execWalk, hj]

/-- A thread that takes a snapshot of a node's children, shard by shard, and meets no
other step, holds the live children at the end.  The induction is on the shards still to
visit. -/
theorem snapshot_alone {F : ℕ → List NodeId → Frame} {index i : ℕ} {b : Bool} {k : List Frame}
    (hF : Snapshot n F) :
    ∀ {s : State} {j : ℕ} {l : List NodeId}, s.pool[i]? = some ⟨index, F j l :: k⟩ →
      j ≤ s.mem.shardCount n →
      machine.run (fun _ _ => true) s (List.replicate (s.mem.shardCount n - j) (.run i b)) =
        some ⟨upgradeAll s.mem (((s.mem.shards n).drop j).flatMap (shardChildren s.mem)),
          s.pool.set i ⟨index, F (s.mem.shardCount n)
            (l ++ ((s.mem.shards n).drop j).flatMap (shardChildren s.mem)) :: k⟩⟩ := by
  intro s j l hi hj
  induction hd : s.mem.shardCount n - j generalizing s j l with
  | zero =>
      obtain rfl : j = s.mem.shardCount n := by omega
      have hset : s.pool.set i ⟨index, F (s.mem.shardCount n) l :: k⟩ = s.pool := by
        obtain ⟨_, hget⟩ := List.getElem?_eq_some_iff.mp hi
        rw [← hget, List.set_getElem_self]
      have hdrop : (s.mem.shards n).drop (s.mem.shardCount n) = [] :=
        List.drop_eq_nil_of_le (by simp [Heap.shards])
      simp [Interleave.Machine.run, hdrop, hset, upgradeAll]
  | succ d ih =>
      have hlt : j < s.mem.shardCount n := by omega
      have hstep : machine.step s (.run i b) =
          some ⟨upgradeAll s.mem (shardChildren s.mem ⟨n, j⟩),
            s.pool.set i ⟨index, F (j + 1) (l ++ shardChildren s.mem ⟨n, j⟩) :: k⟩⟩ := by
        simp only [Interleave.Machine.step, hi, machine, hF.exec_lt hlt]
        rfl
      have hlen : i < s.pool.length := (List.getElem?_eq_some_iff.mp hi).1
      have hlive : ∀ c ∈ shardChildren s.mem ⟨n, j⟩, 0 < s.mem.strong c := fun c hc => by
        simpa using (List.mem_filter.mp hc).2
      have hrest := ih (s := ⟨upgradeAll s.mem (shardChildren s.mem ⟨n, j⟩),
        s.pool.set i ⟨index, F (j + 1) (l ++ shardChildren s.mem ⟨n, j⟩) :: k⟩⟩) (j := j + 1)
        (l := l ++ shardChildren s.mem ⟨n, j⟩) (by simp [hlen]) hlt (by
          show s.mem.shardCount n - (j + 1) = d
          omega)
      rw [List.replicate_succ, Interleave.Machine.run, if_pos rfl, hstep, Option.bind_some,
        hrest]
      have hsame : shardChildren (upgradeAll s.mem (shardChildren s.mem ⟨n, j⟩)) =
          shardChildren s.mem := by
        ext1 sh
        exact shardChildren_upgradeAll hlive
      have hshards : (upgradeAll s.mem (shardChildren s.mem ⟨n, j⟩)).shards n = s.mem.shards n := rfl
      simp only [hsame, hshards, upgradeAll_append, Heap.shards_drop hlt, List.flatMap_cons, List.append_assoc,
        List.set_set]
      rfl

/-! ## Slots -/

/-- The child is registered, with its key stored, and its drop did not end. -/
structure Enrolled (s : State) (c : NodeId) : Prop where
  registered : .child (.register c) ∉ s.frames
  stored : ∀ k, .child (.storeKey c k) ∉ s.frames
  undropped : s.mem.Live c ∨ .life (.deregister c) ∈ s.frames

/-- A slot that holds the child is its own: on its parent shard, and under its key
if that is stored. -/
theorem slot_of_get (hr : Reachable s) {q : Parent} (hq : s.mem.parent c = some q) {k : ℕ}
    (hget : (s.mem.children sh).get k = some c) :
    sh = ⟨q.node, q.shard⟩ ∧ (s.mem.key c = some k ∨ .child (.storeKey c k) ∈ s.frames) := by
  have hparent := (sound_reach hr).valid.wf.children (Slab.mem_values.mpr ⟨k, hget⟩)
  obtain rfl := Option.some.inj (hq.symm.trans hparent)
  exact ⟨rfl, placed_reach hr hget⟩

/-- Such a child has a slot. -/
theorem Enrolled.exists_slot (he : Enrolled s c) (hr : Reachable s) {q : Parent}
    (hq : s.mem.parent c = some q) : ∃ k, (s.mem.children ⟨q.node, q.shard⟩).get k = some c := by
  have hnonneg : ∀ f ∈ (s.frames : Multiset Frame), 0 ≤ f.entry c := by
    intro f hf
    unfold Frame.entry
    split
    · rename_i m
      have hne : m ≠ c := fun he' => he.registered (he' ▸ hf)
      simp [hne]
    · exact Count.bit_nonneg _
    · exact le_rfl
  have hledger := entered_reach hr c
  have hpos : 0 < s.mem.entries c := by
    rcases he.undropped with hlive | hdrop
    · have htotal := total_nonneg_of_mem hnonneg
      rw [bit_of ⟨by simp [hq], hlive⟩] at hledger
      omega
    · obtain ⟨K, hK⟩ := Multiset.exists_cons_of_mem (Multiset.mem_coe.mpr hdrop)
      have htotal := total_nonneg_of_mem fun f hf => hnonneg f (hK ▸ Multiset.mem_cons_of_mem hf)
      have hbit := Count.bit_nonneg (s.mem.parent c ≠ none ∧ 0 < s.mem.strong c)
      rw [hK, Interleave.total_cons] at hledger
      simp only [Frame.entry, Count.bit_true] at hledger
      omega
  refine Slab.mem_values.mp (List.count_pos_iff.mp ?_)
  simpa [Heap.entries, hq] using hpos

/-- Such a child has one slot. -/
theorem Enrolled.slot (he : Enrolled s c) (hr : Reachable s) {q : Parent}
    (hq : s.mem.parent c = some q) : ∃ key, s.mem.key c = some key ∧
      ∀ sh k, (s.mem.children sh).get k = some c ↔ sh = ⟨q.node, q.shard⟩ ∧ k = key := by
  obtain ⟨key, hget⟩ := he.exists_slot hr hq
  have hkey := (slot_of_get hr hq hget).2.resolve_right (he.stored key)
  refine ⟨key, hkey, fun sh k => ⟨fun h => ?_, ?_⟩⟩
  · obtain ⟨hsh, hk⟩ := slot_of_get hr hq h
    have hk := hk.resolve_right (he.stored k)
    exact ⟨hsh, Option.some.inj (hk.symm.trans hkey)⟩
  · rintro ⟨rfl, rfl⟩
    exact hget

/-! ## Drops -/

/-- The drop of a child finds its slot and empties no other. -/
theorem deregister_removes (hr : Reachable s) (hf : .life (.deregister c) ∈ s.frames) :
    ∃ q key, s.mem.parent c = some q ∧ s.mem.key c = some key ∧
      ((s.mem.children ⟨q.node, q.shard⟩).remove key).2 = some c ∧
      ∀ sh k, ((execLife s.mem (.deregister c)).1.children sh).get k =
        if sh = ⟨q.node, q.shard⟩ ∧ k = key then none else (s.mem.children sh).get k := by
  obtain ⟨K, hK⟩ := Multiset.exists_cons_of_mem (Multiset.mem_coe.mpr hf)
  have hs := sound_reach hr
  have hpl : Placed s.mem s.frames := placed_reach hr
  have hd : Deregistering s.mem s.frames := deregistering_reach hr
  have hent : Entered s.mem s.frames := entered_reach hr
  have hvalid := hs.valid.frames _ (Multiset.mem_coe.mpr hf)
  obtain ⟨p, -, i, hq⟩ := hvalid
  rw [hK] at hs hpl hd hent
  obtain ⟨key, hkey, hget⟩ := get_of_deregister hs hpl hd hent hq
  refine ⟨⟨p, i⟩, key, hq, hkey, ?_, fun sh k => ?_⟩
  · rw [Slab.remove_value, hget]
  · simp only [execLife, hq, hkey]
    by_cases hsh : sh = ⟨p, i⟩
    · subst hsh
      simp [Slab.get_remove]
    · simp [hsh]

/-! ## When no child comes or goes -/

/-- No registration of a child and no drop of one is in flight. -/
structure AllEnrolled (s : State) : Prop where
  registered : ∀ c, .child (.register c) ∉ s.frames
  stored : ∀ c k, .child (.storeKey c k) ∉ s.frames
  undropped : ∀ c, .life (.deregister c) ∉ s.frames

theorem Quiescent.allEnrolled (hq : Quiescent s) : AllEnrolled s where
  registered _ hf := by cases hq _ hf
  stored _ _ hf := by cases hq _ hf
  undropped _ hf := by cases hq _ hf

namespace AllEnrolled
variable (he : AllEnrolled s)
include he

theorem enrolled (hlive : s.mem.Live c) : Enrolled s c where
  registered := he.registered c
  stored := he.stored c
  undropped := .inl hlive

/-- Then a registered child is alive. -/
theorem live_of_get (hr : Reachable s) {k : ℕ} (hget : (s.mem.children sh).get k = some c) :
    s.mem.Live c := by
  have hmem := Slab.mem_values.mpr ⟨k, hget⟩
  have hparent := (sound_reach hr).valid.wf.children hmem
  have hzero : ∀ f ∈ (s.frames : Multiset Frame), f.entry c = 0 := by
    intro f hf
    unfold Frame.entry
    split
    · exact absurd hf (he.registered _)
    · exact absurd hf (he.undropped _)
    · rfl
  have hledger := entered_reach hr c
  rw [Interleave.total_eq_zero hzero] at hledger
  have hpos : 0 < s.mem.entries c := by
    simpa [Heap.entries, hparent] using List.count_pos_iff.mpr hmem
  by_contra hdead
  rw [bit_of_not fun h => hdead h.2] at hledger
  omega

/-- Then the slots of a shard hold different children. -/
theorem nodup_values (hr : Reachable s) (sh : ShardId) : (s.mem.children sh).values.Nodup := by
  obtain ⟨keys, hnd, -, hvalues⟩ := (s.mem.children sh).yields_values
  rw [hvalues]
  refine hnd.filterMap fun k k' c hk hk' => ?_
  have hget : (s.mem.children sh).get k = some c := hk
  have hparent := (sound_reach hr).valid.wf.children (Slab.mem_values.mpr ⟨k, hget⟩)
  obtain ⟨key, -, hslot⟩ := (he.enrolled (he.live_of_get hr hget)).slot hr hparent
  exact ((hslot sh k).mp hk).2.trans ((hslot sh k').mp hk').2.symm

/-- Then the slots of a node hold each of its live children once. -/
theorem perm_childSlots (hr : Reachable s) (n : NodeId) :
    (childSlots s.mem n).Perm (s.mem.liveChildrenOf n) := by
  have hw := (sound_reach hr).valid.wf
  refine (List.perm_ext_iff_of_nodup ?_ Heap.nodup_liveChildrenOf).mpr fun c => ?_
  · refine List.nodup_flatMap.mpr ⟨fun sh _ => he.nodup_values hr sh, ?_⟩
    have hnd : (s.mem.shards n).Nodup :=
      List.nodup_range.map fun i j hij => (ShardId.mk.inj hij).2
    refine hnd.imp fun {sh sh'} hne c hc hc' => hne ?_
    -- a child's parent shard is one
    have hparent := Option.some.inj ((hw.children hc).symm.trans (hw.children hc'))
    cases sh
    cases sh'
    cases hparent
    rfl
  · rw [Heap.mem_liveChildrenOf hw]
    simp only [childSlots, List.mem_flatMap]
    constructor
    · rintro ⟨sh, hsh, hc⟩
      obtain ⟨k, hget⟩ := Slab.mem_values.mp hc
      exact ⟨he.live_of_get hr hget, _, hw.children hc, (Heap.mem_shards.mp hsh).1⟩
    · rintro ⟨hlive, q, hp, rfl⟩
      obtain ⟨key, -, hslot⟩ := (he.enrolled hlive).slot hr hp
      refine ⟨⟨q.node, q.shard⟩, ?_, Slab.mem_values.mpr ⟨key, (hslot _ _).mpr ⟨rfl, rfl⟩⟩⟩
      exact Heap.mem_shards.mpr ⟨rfl, (hw.parent hp).2.2.1.2⟩

/-- Then a snapshot finds every slot's child alive. -/
theorem liveChildren_eq (hr : Reachable s) (n : NodeId) :
    liveChildren s.mem n = childSlots s.mem n := by
  have hall : ∀ sh, shardChildren s.mem sh = (s.mem.children sh).values := by
    intro sh
    refine List.filter_eq_self.mpr fun c hc => ?_
    obtain ⟨k, hget⟩ := Slab.mem_values.mp hc
    exact decide_eq_true (he.live_of_get hr hget)
  simp only [liveChildren, childSlots, hall]

theorem perm_liveChildren (hr : Reachable s) (n : NodeId) :
    (liveChildren s.mem n).Perm (s.mem.liveChildrenOf n) := by
  rw [he.liveChildren_eq hr]
  exact he.perm_childSlots hr n

end AllEnrolled

/-- **Children are registered exactly while alive.**  In every reachable state a child
between the end of its registration and the end of its drop occupies one slot, on the
shard and under the key of its `Parent` link; the drop in flight finds that slot and
empties no other; and with no operation in flight the slots of a node are as many as
its live children, and a snapshot returns each of these once.  So does a snapshot taken by
a stop, a count or a report while no child comes or goes and no other step interrupts it. -/
theorem children_registered (hr : Reachable s) :
    (∀ c q, s.mem.parent c = some q → Enrolled s c → ∃ key, s.mem.key c = some key ∧
      ∀ sh k, (s.mem.children sh).get k = some c ↔ sh = ⟨q.node, q.shard⟩ ∧ k = key) ∧
    (∀ c, .life (.deregister c) ∈ s.frames →
      ∃ q key, s.mem.parent c = some q ∧ s.mem.key c = some key ∧
        ((s.mem.children ⟨q.node, q.shard⟩).remove key).2 = some c ∧
        ∀ sh k, ((execLife s.mem (.deregister c)).1.children sh).get k =
          if sh = ⟨q.node, q.shard⟩ ∧ k = key then none else (s.mem.children sh).get k) ∧
    (Quiescent s → ∀ n, (childSlots s.mem n).length = (s.mem.liveChildrenOf n).length ∧
      (liveChildren s.mem n).Perm (s.mem.liveChildrenOf n)) ∧
    (AllEnrolled s → ∀ n F (i index : ℕ) b k, Snapshot n F → s.pool[i]? = some ⟨index, F 0 [] :: k⟩ →
      ∃ l, l.Perm (s.mem.liveChildrenOf n) ∧
        machine.run (fun _ _ => true) s (List.replicate (s.mem.shardCount n) (.run i b)) =
          some ⟨upgradeAll s.mem l, s.pool.set i ⟨index, F (s.mem.shardCount n) l :: k⟩⟩) := by
  refine ⟨fun c q hq he => he.slot hr hq, fun c hf => deregister_removes hr hf, fun hq n => ?_,
    fun he n F i index b k hF hi => ?_⟩
  · exact ⟨(hq.allEnrolled.perm_childSlots hr n).length_eq, hq.allEnrolled.perm_liveChildren hr n⟩
  · exact ⟨liveChildren s.mem n, he.perm_liveChildren hr n, snapshot_alone hF hi (Nat.zero_le _)⟩

/-- Two children, the first of which is being collected. -/
def collectedChild : List Act :=
  List.flatten [[.start 0 (.newRoot 2 false), .start 1 (.child 0)], List.replicate 7 (.run 1 false),
    [.start 1 (.child 0)], List.replicate 7 (.run 2 false), [.start 0 (.drop 1)],
    List.replicate 4 (.run 3 false)]

theorem children_registered_collectedChild : ∃ s : State, Reachable s ∧ s.mem.strong 1 = 0 ∧
    ∃ q key, s.mem.parent 1 = some q ∧
      ((s.mem.children ⟨q.node, q.shard⟩).remove key).2 = some 1 := by
  obtain ⟨s, hr, hs⟩ := Machine.exists_reachable (M := machine) collectedChild
    (p := fun s => .life (.deregister 1) ∈ s.frames ∧ s.mem.strong 1 = 0) (by decide)
  obtain ⟨hf, hdead⟩ := of_decide_eq_true hs
  obtain ⟨q, key, hq, -, hget, -⟩ := (children_registered hr).2.1 1 hf
  exact ⟨s, hr, hdead, q, key, hq, hget⟩

end Swansong
