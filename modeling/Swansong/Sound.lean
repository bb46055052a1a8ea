import Swansong.Ledger
import Swansong.References

/-!
# What is known of every reachable state

The invariants so far, together, and their first consequences: a collected node stays
collected, a live node's ancestors are live, and a node that counts something is
counted by every ancestor.

## Main definitions

* `Sound`, `sound_reach` — all the invariants that the later ones build on.
* `Sound.occupied_lineage` — a nonempty node makes every ancestor nonempty.
-/

namespace Swansong

open Interleave (total total_cons)
open Count (bit bit_of)

variable {index : ℕ} {choice : Bool} {h h' : Heap} {fr K : Multiset Frame} {n m c p : NodeId}
  {sh : ShardId}

/-- What holds in every reachable state. -/
structure Sound (h : Heap) (fr : Multiset Frame) : Prop where
  valid : Valid h fr
  borrowed : Borrowed h fr
  ledger : Ledger h fr
  solvent : ∀ a, 0 ≤ total (Frame.weight a) fr
  undropped : ∀ a, 0 ≤ total (Frame.debt a) fr
  references : References h fr
  counted : Counted h fr

theorem sound_reach {P : State → Act → Prop} {s : State} (hr : machine.Reach P s) :
    Sound s.mem s.frames where
  valid := valid_reach hr
  borrowed := borrowed_reach hr
  ledger := ledger_reach hr
  solvent a := discipline.solvent a hr.reachable
  undropped a := discipline.solvent_of_covered (covered_debt a) hr.reachable
  references := references_reach hr
  counted := counted_reach hr

/-! ## A collected node stays collected -/

theorem live_of_cloneArc (hm : 0 < h.strong m) (hn : 0 < (h.cloneArc m).strong n) :
    0 < h.strong n := by
  rcases eq_or_ne n m with rfl | hne
  · exact hm
  · simpa [hne] using hn

theorem live_of_upgradeAll {cs : List NodeId} (hcs : ∀ c ∈ cs, 0 < h.strong c)
    (hn : 0 < (upgradeAll h cs).strong n) : 0 < h.strong n := by
  by_cases hmem : n ∈ cs
  · exact hcs n hmem
  · simpa [upgradeAll, List.count_eq_zero_of_not_mem hmem] using hn

/-- A step brings no collected node back. -/
theorem live_of_live_exec {f : Frame} (hs : Sound h (f ::ₘ K)) (he : discipline.Enabled f K)
    (hn : n < h.size) (hlive : 0 < (exec index choice h f).1.strong n) : 0 < h.strong n := by
  have hheld : ∀ {m}, (∀ k, f.expects k → Held m k) → 0 < h.strong m := by
    intro m hm
    obtain ⟨k, hk, hkK⟩ := he.below
    exact hs.references.live_of_held hs.borrowed
      (fun g hg => Multiset.mem_cons_of_mem (hkK g hg)) (hm k hk)
  cases f with
  | arrive f => obtain ⟨_, _, he⟩ := execArrive_heap index choice h f; rw [exec, he] at hlive; exact hlive
  | depart f => obtain ⟨_, _, he⟩ := execDepart_heap h f; rw [exec, he] at hlive; exact hlive
  | stop f =>
      cases f with
      | liveChildren m i acc =>
          simp only [exec, execStop] at hlive
          split at hlive
          · exact live_of_upgradeAll (fun c hc => live_of_mem_shardChildren hc) hlive
          · exact hlive
      | _ => exact hlive
  | notify event m => exact hlive
  | life f =>
      cases f with
      | dropArc m =>
          rcases eq_or_ne n m with rfl | hne
          · have : 0 < h.strong n - 1 := by simpa [exec, execLife] using hlive
            omega
          · simpa [exec, execLife, hne] using hlive
      | deregister m => simp only [exec, execLife] at hlive; split at hlive <;> exact hlive
      | cloneArc m => exact live_of_cloneArc (hheld fun k hk => hk) hlive
      | _ => exact hlive
  | child f =>
      cases f with
      | new q => exact live_of_cloneArc (hheld fun k hk => hk) hlive
      | alloc q shard => simpa [exec, execChild, hn.ne] using hlive
      | register c => simp only [exec, execChild] at hlive; split at hlive <;> exact hlive
      | check c => simp only [exec, execChild] at hlive; split at hlive <;> exact hlive
      | _ => exact hlive
  | guard f =>
      cases f with
      | new m location => simp only [exec, execGuard, provenance] at hlive; split at hlive <;> exact hlive
      | clone g => simp only [exec, execGuard, provenance] at hlive; split at hlive <;> exact hlive
      | finish sh pin location info =>
          simp only [exec, execGuard] at hlive
          split at hlive
          · rename_i hp
            exact live_of_cloneArc (hheld fun k hk => hk hp) hlive
          · exact hlive
      | forShardAdd sh location state =>
          simp only [exec, execGuard] at hlive
          split at hlive <;> exact hlive
      | forShardFinish sh location =>
          simp only [exec, execGuard, provenance] at hlive
          split at hlive <;> exact hlive
      | upgrade sh location =>
          simp only [exec, execGuard] at hlive
          split at hlive
          · rename_i hm
            exact live_of_cloneArc hm hlive
          · exact hlive
      | flushUpgrade sh =>
          simp only [exec, execGuard] at hlive
          split at hlive
          · rename_i hm
            exact live_of_cloneArc hm hlive
          · exact hlive
      | _ => exact hlive
  | wait f =>
      cases f with
      | create event m blocking =>
          have hm : 0 < h.strong m := hheld fun k hk => hk
          simp only [exec, execWait] at hlive
          split at hlive <;> exact live_of_cloneArc hm hlive
      | _ =>
          simp only [exec, execWait, waitReady] at hlive
          (repeat' split at hlive) <;> exact hlive
  | poll f => obtain ⟨_, _, he⟩ := execPoll_heap choice h f; rw [exec, he] at hlive; exact hlive
  | walk report todo count out =>
      rcases todo with _ | ⟨item, todo⟩
      · exact hlive
      · cases item with
        | children m i acc =>
            simp only [exec, execWalk] at hlive
            split at hlive
            · exact live_of_upgradeAll (fun c hc => live_of_mem_shardChildren hc) hlive
            · exact hlive
        | shard sh => simp only [exec, execWalk] at hlive; split at hlive <;> exact hlive
        | _ => exact hlive

/-! ## Ancestors -/

namespace Heap.Wf
variable (hw : h.Wf)
include hw

/-- The walk to the root does not depend on the fuel, if there is enough. -/
theorem lineageFrom_eq : ∀ {fuel n : ℕ}, n < fuel → h.lineageFrom fuel n = h.lineage n := by
  intro fuel
  induction fuel using Nat.strong_induction_on with
  | _ fuel ih =>
      intro n hn
      cases fuel with
      | zero => omega
      | succ fuel =>
          rw [Heap.lineage, Heap.lineageFrom, Heap.lineageFrom]
          rcases hp : h.parent n with _ | q
          · rfl
          · have hlt : q.node < n := (hw.parent hp).2.1
            rcases Nat.lt_or_ge n fuel with hnf | hnf
            · show n :: h.lineageFrom fuel q.node = n :: h.lineageFrom n q.node
              rw [ih fuel (Nat.lt_succ_self _) (hlt.trans hnf), ih n (by omega) hlt]
            · obtain rfl : n = fuel := by omega
              rfl

theorem lineage_eq (n : NodeId) : h.lineage n = n :: match h.parent n with
    | none => []
    | some q => h.lineage q.node := by
  rw [Heap.lineage, Heap.lineageFrom]
  rcases hp : h.parent n with _ | q
  · rfl
  · exact congrArg (n :: ·) (hw.lineageFrom_eq (hw.parent hp).2.1)

theorem self_mem_lineage (n : NodeId) : n ∈ h.lineage n := by
  rw [hw.lineage_eq]
  simp

theorem mem_lineage_of_parent {q : Parent} (hp : h.parent n = some q) (hm : m ∈ h.lineage q.node) :
    m ∈ h.lineage n := by
  rw [hw.lineage_eq, hp]
  exact List.mem_cons_of_mem _ hm

/-- What a child passes on to its parent holds of all ancestors. -/
theorem lineage_up {motive : NodeId → Prop}
    (step : ∀ c q, h.parent c = some q → motive c → motive q.node) :
    ∀ {n}, motive n → ∀ a ∈ h.lineage n, motive a := by
  intro n
  induction n using Nat.strong_induction_on with
  | _ n ih =>
      intro hn a ha
      rw [hw.lineage_eq] at ha
      rcases List.mem_cons.mp ha with rfl | ha
      · exact hn
      · rcases hp : h.parent n with _ | q
        · rw [hp] at ha
          cases ha
        · rw [hp] at ha
          exact ih q.node (hw.parent hp).2.1 (step n q hp hn) a ha

/-- What a parent passes on to its child holds of all descendants. -/
theorem lineage_down {motive : NodeId → Prop}
    (step : ∀ c q, h.parent c = some q → motive q.node → motive c) :
    ∀ {n}, ∀ a ∈ h.lineage n, motive a → motive n := by
  intro n
  induction n using Nat.strong_induction_on with
  | _ n ih =>
      intro a ha hm
      rw [hw.lineage_eq] at ha
      rcases List.mem_cons.mp ha with rfl | ha
      · exact hm
      · rcases hp : h.parent n with _ | q
        · rw [hp] at ha
          cases ha
        · rw [hp] at ha
          exact step n q hp (ih q.node (hw.parent hp).2.1 a ha hm)

theorem mem_lineage_trans {a b : NodeId} (hab : a ∈ h.lineage b) (hbn : b ∈ h.lineage n) :
    a ∈ h.lineage n :=
  hw.lineage_down (fun _ _ hp ha => hw.mem_lineage_of_parent hp ha) b hbn hab

end Heap.Wf

/-- Later allocations do not change a node's ancestors. -/
theorem lineage_congr (hw : h.Wf) (hw' : h'.Wf) (he : h.Extends h') (hn : n < h.size) :
    h'.lineage n = h.lineage n := by
  induction n using Nat.strong_induction_on with
  | _ n ih =>
      rw [hw.lineage_eq, hw'.lineage_eq, he.parent n hn]
      rcases hp : h.parent n with _ | q
      · rfl
      · have hlt := (hw.parent hp).2.1
        exact congrArg (n :: ·) (ih q.node hlt (hlt.trans hn))

namespace Sound
variable (hs : Sound h fr)
include hs

/-- The ancestors of a live node are live. -/
theorem live_lineage (hn : 0 < h.strong n) : ∀ a ∈ h.lineage n, 0 < h.strong a :=
  hs.valid.wf.lineage_up (fun _ _ hp hc => hs.references.live_parent (hs.valid.wf.parent hp).1 hp hc) hn

/-! ## A node that counts something is counted by its ancestors -/

theorem ahead_nonneg (a : Account) : 0 ≤ h.ahead a := (hs.ledger.balanced a).symm ▸ hs.solvent a

/-- A shard that counts something has arrived. -/
theorem arrived_of_counted (hc : (h.shard sh).locals ≠ 0 ∨ (h.shard sh).kids ≠ 0) :
    (h.shard sh).arrived = true := by
  by_contra ha
  obtain ⟨hl, hk⟩ := hs.ledger.unarrived (by simpa using ha)
  rcases hc with hc | hc
  · exact hc hl
  · exact hc hk

/-- An arrived shard is counted by its node. -/
theorem shards_ne_zero (hsh : h.HasShard sh) (ha : (h.shard sh).arrived = true) :
    (h.state sh.node).shards ≠ 0 := by
  have hpos : 0 < h.shardsArrived sh.node :=
    List.countP_pos_iff.mpr ⟨sh.index, List.mem_range.mpr hsh.2, ha⟩
  have := hs.ahead_nonneg (.shards sh.node)
  simp only [Heap.ahead] at this
  omega

/-- A child that counts something has arrived at a shard of its parent, which counts it. -/
theorem occupied_parent {q : Parent} (hp : h.parent c = some q) (hc : (h.state c).shards ≠ 0) :
    (h.state q.node).shards ≠ 0 := by
  have hw := hs.valid.wf
  have ha : (h.state c).arrived = true := by
    by_contra ha
    exact hc (hw.unarrived hp (by simpa using ha)).1
  let up : ShardId := ⟨q.node, (h.state c).parentShard⟩
  have hpos : 0 < h.kidsArrived up :=
    List.countP_pos_iff.mpr ⟨c, List.mem_range.mpr (hw.parent hp).1, by
      simp [Heap.ArrivedAt, ha, hp, up]⟩
  have hkids : (h.shard up).kids ≠ 0 := by
    have := hs.ahead_nonneg (.kids up)
    simp only [Heap.ahead] at this
    omega
  exact hs.shards_ne_zero (hw.parentShard hp) (hs.arrived_of_counted (.inr hkids))

/-- A node that counts something makes every ancestor count something. -/
theorem occupied_lineage (hn : (h.state n).shards ≠ 0) : ∀ a ∈ h.lineage n, (h.state a).shards ≠ 0 :=
  hs.valid.wf.lineage_up (fun _ _ hp hc => hs.occupied_parent hp hc) hn

/-- A guard, or a guard's departure that is still to be made, is counted by its node. -/
theorem occupied_of_locals (hsh : h.HasShard sh) (hl : (h.shard sh).locals ≠ 0) :
    (h.state sh.node).shards ≠ 0 :=
  hs.shards_ne_zero hsh (hs.arrived_of_counted (.inl hl))

end Sound
end Swansong
