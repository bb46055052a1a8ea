import Swansong.ChildSlots
import Swansong.Lib.Forest

/-!
# Subtrees at quiescence

With no operation in flight, the words say exactly which guards there are: a shard counts
the guards homed on it, and a stopped node has an arrived shard exactly if some guard in
its subtree is left.

## Main definitions

* `Heap.subtree` — the live nodes of a subtree, in the order of a walk.
* `Heap.guardsBelow` — the guards in a subtree.
* `quiescent_exact` — the words and the states.
-/

namespace Swansong

open Interleave (Machine)

variable {h : Heap} {s : State} {n m a c : NodeId} {sh : ShardId}

namespace Heap
variable (h : Heap)

/-- The parent of a node. -/
def up (c : NodeId) : Option NodeId := (h.parent c).map Parent.node

/-- The live nodes of a subtree, in the order of a walk. -/
def subtree (n : NodeId) : List NodeId := Forest.visit (liveChildren h) h.size n

/-- The guards in clients' hands that are homed in a subtree. -/
def guardsBelow (n : NodeId) : List Guard := h.guards.filter fun g => n ∈ h.lineage g.shard.node

end Heap

/-! ## Ancestors and subtrees -/

theorem Heap.Wf.mem_lineage_iff (hw : h.Wf) : a ∈ h.lineage n ↔ Forest.Above h.up n a := by
  constructor
  · refine hw.lineage_up (motive := Forest.Above h.up n) (fun c q hp hc => ?_) .refl a
    exact hc.tail (by simp [Forest.Up, Heap.up, hp])
  · intro ha
    induction ha with
    | refl => exact hw.self_mem_lineage n
    | tail _ hp ih =>
        obtain ⟨q, hq, rfl⟩ := Option.map_eq_some_iff.mp hp
        exact hw.mem_lineage_trans (hw.mem_lineage_of_parent hq (hw.self_mem_lineage _)) ih

/-- At quiescence, walks find each live child once. -/
theorem Quiescent.lists (hq : Quiescent s) (hr : Reachable s) :
    Forest.Lists s.mem.up s.mem.Live (liveChildren s.mem) s.mem.size where
  below hp := by
    obtain ⟨q, hq, rfl⟩ := Option.map_eq_some_iff.mp hp
    exact ((sound_reach hr).valid.wf.parent hq).2.1
  bounded hn := (sound_reach hr).valid.wf.lt_of_live hn
  up hp hc := by
    obtain ⟨q, hq, rfl⟩ := Option.map_eq_some_iff.mp hp
    exact (sound_reach hr).references.live_parent ((sound_reach hr).valid.wf.parent hq).1 hq hc
  mem {n c} _ := by
    rw [(hq.allEnrolled.perm_liveChildren hr n).mem_iff,
      Heap.mem_liveChildrenOf (sound_reach hr).valid.wf]
    simp [Heap.up, and_comm]
  nodup {n} _ := (hq.allEnrolled.perm_liveChildren hr n).nodup_iff.mpr Heap.nodup_liveChildrenOf

theorem Quiescent.mem_subtree (hq : Quiescent s) (hr : Reachable s) (hn : s.mem.Live n) :
    m ∈ s.mem.subtree n ↔ n ∈ s.mem.lineage m ∧ s.mem.Live m := by
  rw [(sound_reach hr).valid.wf.mem_lineage_iff]
  exact (hq.lists hr).mem_visit (Nat.le_add_left _ _) hn

/-- A guard below a live node is homed on a live one. -/
theorem live_of_guardBelow (hr : Reachable s) (hn : s.mem.Live n) {g : Guard}
    (hg : g ∈ s.mem.guards) (hbelow : n ∈ s.mem.lineage g.shard.node) :
    s.mem.Live g.shard.node := by
  have hs := sound_reach hr
  have hw := hs.valid.wf
  have hpin := (hw.guards g hg).2
  cases hp : s.mem.parent g.shard.node with
  | none =>
      -- a root's only ancestor is itself
      rw [hw.lineage_eq, hp, List.mem_singleton] at hbelow
      exact hbelow ▸ hn
  | some q =>
      refine hs.references.live_of_guard hg ?_
      rw [hpin, Heap.isRoot, hp]
      rfl

/-! ## Guards, shard by shard -/

theorem Heap.nodup_shards (n : NodeId) : (h.shards n).Nodup :=
  List.nodup_range.map fun _ _ hij => (ShardId.mk.inj hij).2

/-- The guards below a node, gathered shard by shard. -/
theorem Quiescent.perm_guardsBelow (hq : Quiescent s) (hr : Reachable s) (hn : s.mem.Live n) :
    (((s.mem.subtree n).flatMap s.mem.shards).flatMap fun sh =>
      s.mem.guards.filter fun g => g.shard = sh).Perm (s.mem.guardsBelow n) := by
  have hw := (sound_reach hr).valid.wf
  have hnd : ((s.mem.subtree n).flatMap s.mem.shards).Nodup := by
    refine List.nodup_flatMap.mpr ⟨fun m _ => Heap.nodup_shards m, ?_⟩
    refine ((hq.lists hr).nodup_visit (Nat.le_add_left _ _) hn).imp fun {m m'} hne sh hm hm' => hne ?_
    exact (Heap.mem_shards.mp hm).1.symm.trans (Heap.mem_shards.mp hm').1
  refine (Forest.perm_flatMap_filter Guard.shard s.mem.guards hnd).trans (.of_eq ?_)
  refine List.filter_congr fun g hg => decide_eq_decide.mpr ?_
  rw [List.mem_flatMap]
  constructor
  · rintro ⟨m, hm, hsh⟩
    obtain ⟨rfl, -⟩ := Heap.mem_shards.mp hsh
    exact ((hq.mem_subtree hr hn).mp hm).1
  · intro hbelow
    refine ⟨g.shard.node, (hq.mem_subtree hr hn).mpr ⟨hbelow, live_of_guardBelow hr hn hg hbelow⟩, ?_⟩
    exact Heap.mem_shards.mpr ⟨rfl, (hw.guards g hg).1.2⟩

/-! ## States -/

/-- At quiescence a live stopped node with no guard below it has no arrived shard.  The
induction is from the leaves up. -/
theorem Quiescent.zero_of_guardsBelow (hq : Quiescent s) (hr : Reachable s) :
    ∀ {k n : ℕ}, s.mem.size ≤ n + k → s.mem.Live n → (s.mem.state n).stopped = true →
      s.mem.guardsBelow n = [] → (s.mem.state n).shards = 0 := by
  have hs := sound_reach hr
  have hw := hs.valid.wf
  have hx := exact_of_quiescent hr hq
  intro k
  induction k with
  | zero => intro n hk hn; exact absurd (hw.lt_of_live hn) (not_lt.mpr hk)
  | succ k ih =>
      intro n hk hn hst hnone
      rw [hx.shards n hn]
      refine List.countP_eq_zero.mpr fun i hi ha => ?_
      have hsh : s.mem.HasShard ⟨n, i⟩ := ⟨hw.lt_of_live hn, List.mem_range.mp hi⟩
      have hlatched : (s.mem.shard ⟨n, i⟩).stopped = true :=
        latched_of_stopped hr hq.stopsDone hst hn hsh
      have hlocals : (s.mem.shard ⟨n, i⟩).locals = 0 := by
        rw [hx.locals _ hsh hn]
        refine List.countP_eq_zero.mpr fun g hg hgs => ?_
        have hgs : g.shard = ⟨n, i⟩ := by simpa using hgs
        refine List.filter_eq_nil_iff.mp hnone g hg (decide_eq_true ?_)
        rw [hgs]
        exact hw.self_mem_lineage n
      have hkids : (s.mem.shard ⟨n, i⟩).kids = 0 := by
        rw [hx.kids _ hsh hn]
        refine List.countP_eq_zero.mpr fun c _ hc => ?_
        obtain ⟨hlive, harr, hup, -⟩ := of_decide_eq_true hc
        obtain ⟨q, hqc, hnode⟩ := Option.map_eq_some_iff.mp hup
        have hqn : q.node = n := hnode
        have hlt : n < c := hqn ▸ (hw.parent hqc).2.1
        have hmem : n ∈ s.mem.lineage c :=
          hqn ▸ hw.mem_lineage_of_parent hqc (hw.self_mem_lineage _)
        refine (hx.arrived c q hqc hlive).mp harr (ih (by omega) hlive ?_ ?_)
        · exact stopped_of_parent hr hq.stopsDone hqc (hqn ▸ hst) hlive
        · refine List.filter_eq_nil_iff.mpr fun g hg hgc => ?_
          refine List.filter_eq_nil_iff.mp hnone g hg (decide_eq_true ?_)
          exact hw.mem_lineage_trans hmem (of_decide_eq_true hgc)
      rcases (hx.stopped _ hsh hn hlatched).mp ha with hc | hc
      · exact hc hlocals
      · exact hc hkids

/-- A guard below a node gives it an arrived shard. -/
theorem Quiescent.shards_of_guardBelow (hq : Quiescent s) (hr : Reachable s) {g : Guard}
    (hg : g ∈ s.mem.guards) (hbelow : n ∈ s.mem.lineage g.shard.node) :
    (s.mem.state n).shards ≠ 0 := by
  have hs := sound_reach hr
  have hpos : 0 < s.mem.homed g.shard := List.countP_pos_iff.mpr ⟨g, hg, by simp⟩
  have hahead := hq.ahead hr (.locals g.shard)
  simp only [Heap.ahead] at hahead
  refine hs.occupied_lineage ?_ n hbelow
  exact hs.occupied_of_locals (hs.valid.wf.guards g hg).1 (by omega)

/-- At quiescence a live stopped node is complete exactly if no guard below it is left. -/
theorem Quiescent.zero_iff (hq : Quiescent s) (hr : Reachable s) (hn : s.mem.Live n)
    (hst : (s.mem.state n).stopped = true) :
    (s.mem.state n).shards = 0 ↔ s.mem.guardsBelow n = [] := by
  refine ⟨fun hzero => ?_, hq.zero_of_guardsBelow hr (Nat.le_add_left s.mem.size n) hn hst⟩
  refine List.filter_eq_nil_iff.mpr fun g hg hbelow => ?_
  exact hq.shards_of_guardBelow hr hg (of_decide_eq_true hbelow) hzero

/-- The word of a stopped node that is empty. -/
def NodeWord.emptied : NodeWord := ⟨0, 0, true, false⟩

/-- At quiescence the words of a live stopped node with no guard below it are `STOPPED`. -/
theorem Quiescent.words_of_guardsBelow (hq : Quiescent s) (hr : Reachable s) (hn : s.mem.Live n)
    (hst : (s.mem.state n).stopped = true) (hnone : s.mem.guardsBelow n = []) :
    s.mem.state n = .emptied ∧ ∀ sh ∈ s.mem.shards n, s.mem.shard sh = .flushed := by
  have hs := sound_reach hr
  have hw := hs.valid.wf
  have hzero := (hq.zero_iff hr hn hst).mpr hnone
  constructor
  · have hword : (s.mem.state n).arrived = false ∧ (s.mem.state n).parentShard = 0 := by
      cases hp : s.mem.parent n with
      | none => exact hw.root hp
      | some q =>
          have ha : (s.mem.state n).arrived = false := by
            by_contra ha
            exact (hq.arrived_iff hr hp).mp (by simpa using ha) hzero
          exact ⟨ha, (hw.unarrived hp ha).2⟩
    cases hword' : s.mem.state n
    simp_all [NodeWord.emptied]
  · intro sh hsh
    have hhas := Heap.hasShard_of_mem_shards (hw.lt_of_live hn) hsh
    obtain ⟨rfl, -⟩ := Heap.mem_shards.mp hsh
    have hlatched := latched_of_stopped hr hq.stopsDone hst hn hhas
    have ha : (s.mem.shard sh).arrived = false := by
      by_contra ha
      exact hs.shards_ne_zero hhas (by simpa using ha) hzero
    obtain ⟨hl, hk⟩ := hs.ledger.unarrived ha
    cases hword' : s.mem.shard sh
    simp_all [ShardWord.flushed]

/-- With no operation in flight, a live node is complete if it is stopped and no guard is left. -/
theorem Quiescent.complete_iff (hq : Quiescent s) (hr : Reachable s) (hn : s.mem.Live n) :
    shutdownState s.mem n = .complete ↔
      (s.mem.state n).stopped = true ∧ s.mem.guardsBelow n = [] := by
  cases hst : (s.mem.state n).stopped with
  | false => simp [shutdownState, isStopped, hst]
  | true => by_cases hz : (s.mem.state n).shards = 0 <;>
      simp [shutdownState, isStopped, isZero, hst, hz, ← hq.zero_iff hr hn hst]

/-- **Exactness at quiescence.**  With no operation in flight, the words of the live nodes
are exact; `state()` is Running exactly if the node is not stopped, and of a stopped node
it is Complete exactly if no guard in its subtree is left; and then the words of all live
nodes in the subtree are `STOPPED`. -/
theorem quiescent_exact (hr : Reachable s) (hq : Quiescent s) :
    Exact s.mem ∧ ∀ n, s.mem.Live n →
      (shutdownState s.mem n = .running ↔ (s.mem.state n).stopped = false) ∧
      (shutdownState s.mem n = .complete ↔
        (s.mem.state n).stopped = true ∧ s.mem.guardsBelow n = []) ∧
      (shutdownState s.mem n = .shuttingDown ↔
        (s.mem.state n).stopped = true ∧ s.mem.guardsBelow n ≠ []) ∧
      (shutdownState s.mem n = .complete → ∀ m, s.mem.Live m → n ∈ s.mem.lineage m →
        s.mem.state m = .emptied ∧ ∀ sh ∈ s.mem.shards m, s.mem.shard sh = .flushed) := by
  refine ⟨exact_of_quiescent hr hq, fun n hn => ?_⟩
  have hcomplete := hq.complete_iff hr hn
  refine ⟨?_, hcomplete, ?_, ?_⟩
  · cases hst : (s.mem.state n).stopped with
    | false => simp [shutdownState, isStopped, hst]
    | true => by_cases hz : (s.mem.state n).shards = 0 <;>
        simp [shutdownState, isStopped, isZero, hst, hz]
  · cases hst : (s.mem.state n).stopped with
    | false => simp [shutdownState, isStopped, hst]
    | true => by_cases hz : (s.mem.state n).shards = 0 <;>
        simp [shutdownState, isStopped, isZero, hst, hz, ← hq.zero_iff hr hn hst]
  · intro hc m hm hmem
    obtain ⟨hst, hnone⟩ := hcomplete.mp hc
    have hw := (sound_reach hr).valid.wf
    refine hq.words_of_guardsBelow hr hm (stopped_of_ancestor hr hq.stopsDone hmem hst hm) ?_
    refine List.filter_eq_nil_iff.mpr fun g hg hgm => ?_
    refine List.filter_eq_nil_iff.mp hnone g hg (decide_eq_true ?_)
    exact hw.mem_lineage_trans hmem (of_decide_eq_true hgm)

/-- A guard on a child outlives the stop of the root, and is dropped. -/
def emptiedTree : List Act :=
  List.flatten [[.start 0 (.newRoot 2 false), .start 1 (.child 0)], List.replicate 7 (.run 1 false),
    [.start 1 (.guard 1 ⟨"src/tasks.rs", 120, 9⟩)], List.replicate 10 (.run 2 false),
    [.start 0 (.shutDown 0)], List.replicate 19 (.run 3 false),
    [.start 0 (.dropGuard ⟨0, ⟨1, 0⟩, true, ⟨"src/tasks.rs", 120, 9⟩, none⟩)],
    List.replicate 10 (.run 4 false)]

theorem quiescent_exact_emptiedTree : ∃ s, Reachable s ∧ s.frames = [] ∧
    shutdownState s.mem 0 = .complete ∧ s.mem.state 1 = .emptied ∧
    ∀ sh ∈ s.mem.shards 1, s.mem.shard sh = .flushed := by
  obtain ⟨s, hr, hs⟩ := Machine.exists_reachable (M := machine) emptiedTree
    (p := fun s => s.frames = [] ∧ s.mem.Live 0 ∧ s.mem.Live 1 ∧ 0 ∈ s.mem.lineage 1 ∧
      (s.mem.state 0).stopped = true ∧ s.mem.guards = []) (by decide)
  obtain ⟨hfr, hroot, hlive, hmem, hst, hnone⟩ := of_decide_eq_true hs
  have hq : Quiescent s := by simp [Quiescent, hfr]
  obtain ⟨-, hcomplete, -, hwords⟩ := (quiescent_exact hr hq).2 0 hroot
  have hdone := hcomplete.mpr ⟨hst, by simp [Heap.guardsBelow, hnone]⟩
  exact ⟨s, hr, hfr, hdone, hwords hdone 1 hlive hmem⟩

end Swansong
