import Swansong.Borrow
import Swansong.Lib.Count

/-!
# The counts in the words

A shard's word counts the guards homed on it and the children that arrived at it; a
node's word counts its arrived shards.  In between the steps of an operation a count
is ahead of what it counts, or behind, by what the frames in flight owe.

## Main definitions

* `Heap.homed`, `Heap.kidsArrived`, `Heap.shardsArrived` — what the words count.
* `Ledger`, `ledger_reach` — the invariant.
-/

namespace Swansong

open Interleave (total total_coe_cons total_coe_append total_nil total_eq_zero)
open Count (bit bit_of bit_of_not)

variable {index : ℕ} {choice : Bool} {h h' : Heap} {n m c p : NodeId} {sh : ShardId} {a : Account}

/-! ## What the words count -/

namespace Heap
variable (h : Heap)

/-- The guards homed on the shard. -/
def homed (sh : ShardId) : ℕ := h.guards.countP fun g => g.shard = sh

/-- Whether `c` is arrived at this shard of its parent. -/
def ArrivedAt (c : NodeId) (sh : ShardId) : Prop :=
  (h.state c).arrived = true ∧ (h.parent c).map Parent.node = some sh.node ∧
    (h.state c).parentShard = sh.index

instance (c : NodeId) (sh : ShardId) : Decidable (h.ArrivedAt c sh) :=
  inferInstanceAs (Decidable (_ ∧ _))

/-- The children arrived at the shard. -/
def kidsArrived (sh : ShardId) : ℕ := (List.range h.size).countP fun c => h.ArrivedAt c sh

/-- The arrived shards of the node. -/
def shardsArrived (n : NodeId) : ℕ :=
  (List.range (h.shardCount n)).countP fun i => (h.shard ⟨n, i⟩).arrived

/-- By how much a count is ahead of what it counts. -/
def ahead : Account → ℤ
  | .locals sh => (h.shard sh).locals - h.homed sh
  | .kids sh => (h.shard sh).kids - h.kidsArrived sh
  | .shards n => (h.state n).shards - h.shardsArrived n

end Heap

theorem shardsArrived_setShard {w : ShardWord} (hsh : h.HasShard sh) :
    ((h.setShard sh w).shardsArrived n : ℤ) = h.shardsArrived n +
      if n = sh.node then bit (w.arrived = true) - bit ((h.shard sh).arrived = true) else 0 := by
  rcases eq_or_ne n sh.node with rfl | hne
  · have hcount := Count.countP_range_update (p := fun i => (h.shard ⟨sh.node, i⟩).arrived)
      (q := fun i => ((h.setShard sh w).shard ⟨sh.node, i⟩).arrived) hsh.2 fun j _ hj => by
        have hne : (⟨sh.node, j⟩ : ShardId) ≠ sh := fun he => hj (by rw [← he])
        simp [hne]
    have hself : ((h.setShard sh w).shard ⟨sh.node, sh.index⟩) = w := Function.update_self ..
    rw [hself] at hcount
    rw [if_pos rfl, ← add_sub_assoc]
    exact hcount
  · rw [if_neg hne, add_zero, Nat.cast_inj]
    refine Count.countP_range_congr fun j _ => ?_
    have hne : (⟨n, j⟩ : ShardId) ≠ sh := fun he => hne (by rw [← he])
    simp [hne]

theorem kidsArrived_setState {w : NodeWord} (hn : n < h.size) :
    ((h.setState n w).kidsArrived sh : ℤ) =
      h.kidsArrived sh + bit ((h.setState n w).ArrivedAt n sh) - bit (h.ArrivedAt n sh) := by
  have hcount := Count.countP_range_update (p := fun c => h.ArrivedAt c sh)
    (q := fun c => (h.setState n w).ArrivedAt c sh) hn fun j _ hj => by
      simp [Heap.ArrivedAt, hj]
  simp only [decide_eq_true_eq] at hcount
  exact hcount

/-- What changing a shard's word changes. -/
theorem ahead_setShard {w : ShardWord} (hsh : h.HasShard sh) :
    (h.setShard sh w).ahead a = h.ahead a + match a with
      | .locals s => if s = sh then (w.locals : ℤ) - (h.shard sh).locals else 0
      | .kids s => if s = sh then (w.kids : ℤ) - (h.shard sh).kids else 0
      | .shards n =>
        if n = sh.node then bit ((h.shard sh).arrived = true) - bit (w.arrived = true) else 0 := by
  cases a with
  | locals s =>
      have hhomed : (h.setShard sh w).homed s = h.homed s := rfl
      rcases eq_or_ne s sh with rfl | hne
      · simp only [Heap.ahead, hhomed, if_true]
        simp only [Heap.setShard, Function.update_self]
        omega
      · simp only [Heap.ahead, hhomed, if_neg hne, add_zero]
        simp only [Heap.setShard, Function.update_of_ne hne]
  | kids s =>
      have hkids : (h.setShard sh w).kidsArrived s = h.kidsArrived s := rfl
      rcases eq_or_ne s sh with rfl | hne
      · simp only [Heap.ahead, hkids, if_true]
        simp only [Heap.setShard, Function.update_self]
        omega
      · simp only [Heap.ahead, hkids, if_neg hne, add_zero]
        simp only [Heap.setShard, Function.update_of_ne hne]
  | shards n =>
      have hstate : (h.setShard sh w).state = h.state := rfl
      simp only [Heap.ahead, shardsArrived_setShard hsh, hstate]
      split <;> omega

/-- What changing a node's word changes. -/
theorem ahead_setState {w : NodeWord} (hn : n < h.size) :
    (h.setState n w).ahead a = h.ahead a + match a with
      | .locals _ => 0
      | .kids s => bit (h.ArrivedAt n s) - bit ((h.setState n w).ArrivedAt n s)
      | .shards m => if m = n then (w.shards : ℤ) - (h.state n).shards else 0 := by
  cases a with
  | locals s => exact (add_zero _).symm
  | kids s =>
      have hshard : (h.setState n w).shard = h.shard := rfl
      simp only [Heap.ahead, kidsArrived_setState hn, hshard]
      omega
  | shards m =>
      have harrived : (h.setState n w).shardsArrived m = h.shardsArrived m := rfl
      rcases eq_or_ne m n with rfl | hne
      · simp only [Heap.ahead, harrived, if_true]
        simp only [Heap.setState, Function.update_self]
        omega
      · simp only [Heap.ahead, harrived, if_neg hne, add_zero]
        simp only [Heap.setState, Function.update_of_ne hne]

/-! ### One lemma for each kind of write -/

/-- `state + unit`. -/
theorem ahead_add {unit : CountUnit} (hsh : h.HasShard sh) :
    (h.setShard sh ((h.shard sh).add unit)).ahead a = h.ahead a + bit (a = unit.account sh) := by
  rw [ahead_setShard hsh, ShardWord.add_arrived]
  cases a <;> cases unit <;> simp [ShardWord.add, CountUnit.account, bit]

/-- `state - unit`, of a unit that is counted. -/
theorem ahead_sub {unit : CountUnit} (hsh : h.HasShard sh)
    (hpos : 0 < h.ahead (unit.account sh)) :
    (h.setShard sh ((h.shard sh).sub unit)).ahead a = h.ahead a - bit (a = unit.account sh) := by
  rw [ahead_setShard hsh, ShardWord.sub_arrived]
  cases unit with
  | localOne =>
      have hpos : 0 < (h.shard sh).locals := by simp only [Heap.ahead, CountUnit.account] at hpos; omega
      cases a with
      | locals s =>
          simp only [ShardWord.sub, CountUnit.account, bit, Account.locals.injEq]
          split <;> omega
      | kids s => simp [ShardWord.sub, CountUnit.account]
      | shards n => simp [CountUnit.account]
  | kidsOne =>
      have hpos : 0 < (h.shard sh).kids := by simp only [Heap.ahead, CountUnit.account] at hpos; omega
      cases a with
      | locals s => simp [ShardWord.sub, CountUnit.account]
      | kids s =>
          simp only [ShardWord.sub, CountUnit.account, bit, Account.kids.injEq]
          split <;> omega
      | shards n => simp [CountUnit.account]

/-- `state | ARRIVED | unit`, of a shard that counts nothing. -/
theorem ahead_arrive {unit : CountUnit} (hsh : h.HasShard sh)
    (harrived : (h.shard sh).arrived = false)
    (hempty : (h.shard sh).locals = 0 ∧ (h.shard sh).kids = 0) :
    (h.setShard sh ((h.shard sh).arrive unit)).ahead a =
      h.ahead a + bit (a = unit.account sh) - bit (a = .shards sh.node) := by
  rw [ahead_setShard hsh]
  obtain ⟨hlocals, hkids⟩ := hempty
  cases a <;> cases unit <;>
    simp [ShardWord.arrive, CountUnit.account, bit, hlocals, hkids, harrived] <;>
    split <;> omega

/-- A write that keeps the counts and the arrival. -/
theorem ahead_setShard_of_same {w : ShardWord} (hsh : h.HasShard sh)
    (hl : w.locals = (h.shard sh).locals) (hk : w.kids = (h.shard sh).kids)
    (ha : w.arrived = (h.shard sh).arrived) : (h.setShard sh w).ahead a = h.ahead a := by
  rw [ahead_setShard hsh, hl, hk, ha]
  cases a <;> simp

/-- `STOPPED` for `ARRIVED | STOPPED`. -/
theorem ahead_flushed (hsh : h.HasShard sh) (hst : h.shard sh = .emptied) :
    (h.setShard sh .flushed).ahead a = h.ahead a + bit (a = .shards sh.node) := by
  rw [ahead_setShard hsh, hst]
  cases a <;> simp [bit]

/-- A write of a node's word that keeps its arrival. -/
theorem ahead_setState_of_same {w : NodeWord} (hn : n < h.size)
    (ha : w.arrived = (h.state n).arrived) (hp : w.parentShard = (h.state n).parentShard) :
    (h.setState n w).ahead a =
      h.ahead a + ((w.shards : ℤ) - (h.state n).shards) * bit (a = .shards n) := by
  rw [ahead_setState hn]
  cases a with
  | locals s => simp
  | kids s =>
      have hiff : (h.setState n w).ArrivedAt n s ↔ h.ArrivedAt n s := by
        simp only [Heap.ArrivedAt, Heap.setState, Function.update_self, ha, hp]
      simp only [Count.bit_congr hiff, reduceCtorEq, Count.bit_false]
      omega
  | shards m =>
      simp only [Account.shards.injEq, bit]
      split <;> simp

theorem arrivedAt_iff {u : ShardId} {i : ℕ} (hp : h.parent c = some ⟨u.node, i⟩)
    (ha : (h.state c).arrived = true) (hps : (h.state c).parentShard = u.index) :
    h.ArrivedAt c sh ↔ sh = u := by
  simp only [Heap.ArrivedAt, ha, hp, hps, Option.map_some, Option.some.injEq, true_and]
  constructor
  · rintro ⟨hnode, hindex⟩
    cases sh; cases u
    simp_all
  · rintro rfl
    exact ⟨rfl, rfl⟩

/-- `state | ARRIVED | index | 1`, of a child that counts nothing. -/
theorem ahead_arriveAt {up : ShardId} {i : ℕ} (hn : n < h.size)
    (hp : h.parent n = some ⟨up.node, i⟩) (ha : (h.state n).arrived = false)
    (hempty : (h.state n).shards = 0 ∧ (h.state n).parentShard = 0) :
    (h.setState n ((h.state n).arriveAt up.index)).ahead a =
      h.ahead a + bit (a = .shards n) - bit (a = .kids up) := by
  obtain ⟨hs, hps⟩ := hempty
  rw [ahead_setState hn]
  cases a with
  | locals s => simp
  | kids s =>
      have hold : bit (h.ArrivedAt n s) = 0 := bit_of_not fun hat => by
        rw [Heap.ArrivedAt, ha] at hat
        cases hat.1
      have hnew : (h.setState n ((h.state n).arriveAt up.index)).ArrivedAt n s ↔ s = up :=
        arrivedAt_iff hp (by simp) (by simp [NodeWord.arriveAt, hps])
      simp only [hold, Count.bit_congr hnew, Account.kids.injEq, reduceCtorEq, Count.bit_false]
      omega
  | shards m =>
      simp only [Account.shards.injEq, reduceCtorEq, NodeWord.arriveAt, hs, bit]
      split <;> simp

/-- `state & STOPPED`, of an arrived child that counts nothing. -/
theorem ahead_depart {i : ℕ} (hn : n < h.size) (hp : h.parent n = some ⟨p, i⟩)
    (ha : (h.state n).arrived = true) (hs : (h.state n).shards = 0) :
    (h.setState n (h.state n).depart).ahead a =
      h.ahead a + bit (a = .kids ⟨p, (h.state n).parentShard⟩) := by
  rw [ahead_setState hn]
  cases a with
  | locals s => simp
  | kids s =>
      have hold : h.ArrivedAt n s ↔ s = ⟨p, (h.state n).parentShard⟩ :=
        arrivedAt_iff (u := ⟨p, (h.state n).parentShard⟩) hp ha rfl
      have hnew : bit ((h.setState n (h.state n).depart).ArrivedAt n s) = 0 :=
        bit_of_not fun hat => by simp [Heap.ArrivedAt] at hat
      simp only [Count.bit_congr hold, hnew, Account.kids.injEq]
      omega
  | shards m =>
      simp only [reduceCtorEq, Count.bit_false, NodeWord.depart, hs]
      split <;> simp

/-! ## What each step changes is what the frames owe -/

@[simp] theorem weight_stop (f : StopFrame) : (Frame.stop f).weight a = 0 := rfl
@[simp] theorem weight_notify (e : Event) : (Frame.notify e n).weight a = 0 := rfl
@[simp] theorem weight_life (f : LifeFrame) : (Frame.life f).weight a = 0 := rfl
@[simp] theorem weight_child (f : ChildFrame) : (Frame.child f).weight a = 0 := rfl
@[simp] theorem weight_wait (f : WaitFrame) : (Frame.wait f).weight a = 0 := rfl
@[simp] theorem weight_poll (f : PollFrame) : (Frame.poll f).weight a = 0 := rfl
@[simp] theorem weight_walk (r : Bool) (todo : List WalkItem) (t : ℕ) (out : List InfoId) :
    (Frame.walk r todo t out).weight a = 0 := rfl

/-- The counts in the words are what they count and what the frames in flight owe. -/
structure Ledger (h : Heap) (fr : Multiset Frame) : Prop where
  balanced : ∀ a, h.ahead a = total (Frame.weight a) fr
  unarrived : ∀ {sh}, (h.shard sh).arrived = false →
    (h.shard sh).locals = 0 ∧ (h.shard sh).kids = 0
  loaded : ∀ {sh unit state}, .arrive (.shardCas sh unit state) ∈ fr →
    state.locals = 0 ∧ state.kids = 0
  departing : ∀ {n p state}, .depart (.nodeCas n p state) ∈ fr → state.arrived = true

variable {K : Multiset Frame}

/-- What a load leaves to be done adds what the arrival adds. -/
theorem total_arriveNext {unit : CountUnit} {state : ShardWord} :
    total (Frame.weight a) ↑(arriveNext sh unit state) = -bit (a = unit.account sh) := by
  unfold arriveNext
  split
  · simp [Frame.weight]
  · simp only [total_coe_cons, total_nil, Frame.weight]
    omega

theorem total_nodeArriveNext {state : NodeWord} :
    total (Frame.weight a) ↑(nodeArriveNext index h n p state) = -bit (a = .shards n) := by
  unfold nodeArriveNext
  split
  · simp [Frame.weight]
  · simp only [total_coe_cons, total_nil, Frame.weight, CountUnit.account]
    omega

theorem balanced_execArrive {f : ArriveFrame} (hw : h.Wf) (hv : (Frame.arrive f).Valid h)
    (hl : Ledger h (.arrive f ::ₘ K)) :
    (execArrive index choice h f).1.ahead a + (Frame.arrive f).weight a =
      h.ahead a + total (Frame.weight a) ↑(execArrive index choice h f).2 := by
  cases f with
  | shard sh unit =>
      simp only [execArrive, total_arriveNext, Frame.weight]
  | shardAdd sh unit state =>
      simp only [execArrive]
      split
      · rename_i hst
        simp only [← hst.1, ahead_add hv.1, Frame.weight, total_nil]
        omega
      · simp only [total_arriveNext, Frame.weight]
  | shardCas sh unit state =>
      simp only [execArrive]
      split
      · rename_i hst
        subst hst
        simp only [ahead_arrive hv.1 hv.2.1 (hl.unarrived hv.2.1), Frame.weight, total_nil]
        omega
      · simp only [total_coe_cons, total_arriveNext, Frame.weight]
        omega
  | node n =>
      simp only [execArrive]
      split
      · simp only [ahead_setState_of_same hv (NodeWord.add_arrived _) (NodeWord.add_parentShard _),
          NodeWord.add_shards, Frame.weight, total_nil]
        grind
      · simp only [total_nodeArriveNext, Frame.weight]
  | nodeAdd n parent state =>
      obtain ⟨⟨hn, i, hp⟩, ha⟩ := hv
      simp only [execArrive]
      split
      · rename_i hst
        simp only [← hst.1, ahead_setState_of_same hn (NodeWord.add_arrived _)
          (NodeWord.add_parentShard _), NodeWord.add_shards, Frame.weight, total_nil]
        grind
      · simp only [total_nodeArriveNext, Frame.weight]
  | nodeCas n up state =>
      obtain ⟨⟨hn, i, hp⟩, hup, ha⟩ := hv
      simp only [execArrive]
      split
      · rename_i hst
        subst hst
        simp only [ahead_arriveAt hn hp ha (hw.unarrived hp ha), Frame.weight, total_nil]
        omega
      · simp only [total_coe_cons, total_nodeArriveNext, Frame.weight, CountUnit.account]
        omega

/-- A count that the step takes from is positive: the other frames in flight, and what
is counted, leave it solvent. -/
theorem ahead_pos {f : Frame} (he : discipline.Enabled f K) (hl : Ledger h (f ::ₘ K))
    (hf : f.weight a = 1) : 0 < h.ahead a := by
  have hsolvent : 0 ≤ total (Frame.weight a) K := he.solvent a
  have hbal := hl.balanced a
  rw [Interleave.total_cons, hf] at hbal
  omega

theorem balanced_execDepart {f : DepartFrame} (hv : (Frame.depart f).Valid h)
    (he : discipline.Enabled (.depart f) K) (hl : Ledger h (.depart f ::ₘ K)) :
    (execDepart h f).1.ahead a + (Frame.depart f).weight a =
      h.ahead a + total (Frame.weight a) ↑(execDepart h f).2 := by
  cases f with
  | shard sh unit =>
      have hpos := ahead_pos he hl (bit_of (rfl : unit.account sh = unit.account sh))
      simp only [execDepart, ahead_sub hv hpos, Frame.weight]
      split <;> simp [Frame.weight]
  | flush sh =>
      simp only [execDepart]
      split
      · rename_i hst
        simp only [ahead_flushed hv hst, total_coe_cons, total_nil, Frame.weight]
        omega
      · simp [Frame.weight]
  | node n =>
      have hpos : 0 < h.ahead (.shards n) := ahead_pos he hl (bit_of rfl)
      have hshards : 0 < (h.state n).shards := by simp only [Heap.ahead] at hpos; omega
      have hfs : total (Frame.weight a) ↑(execDepart h (.node n)).2 = 0 := by
        simp only [execDepart]
        split
        · rfl
        · rw [total_coe_append]
          split <;> split <;> simp [Frame.weight]
      have hahead : (execDepart h (.node n)).1.ahead a
          = h.ahead a + (((h.state n).sub.shards : ℤ) - (h.state n).shards) * bit (a = .shards n) :=
        ahead_setState_of_same hv (NodeWord.sub_arrived _) (NodeWord.sub_parentShard _)
      have hsub : ((h.state n).sub.shards : ℤ) - (h.state n).shards = -1 := by
        rw [NodeWord.sub_shards]
        omega
      rw [hfs, hahead, hsub, Frame.weight]
      omega
  | nodeCas n parent state =>
      obtain ⟨⟨hn, i, hp⟩, hs, hps⟩ := hv
      simp only [execDepart]
      split
      · rename_i hst
        subst hst
        have ha := hl.departing (Multiset.mem_cons_self _ K)
        simp only [ahead_depart hn hp ha hs, total_coe_cons, total_nil, Frame.weight,
          CountUnit.account]
        omega
      · simp [Frame.weight]

theorem balanced_execStop {f : StopFrame} (hv : (Frame.stop f).Valid h) :
    (execStop h f).1.ahead a = h.ahead a + total (Frame.weight a) ↑(execStop h f).2 := by
  have hfs : total (Frame.weight a) ↑(execStop h f).2 = 0 := total_eq_zero fun g hg => by
    rcases mem_execStop hg with ⟨_, rfl⟩ | ⟨_, _, rfl⟩ | ⟨_, rfl⟩ | ⟨_, rfl⟩ <;> rfl
  rw [hfs, add_zero]
  cases f with
  | node n =>
      simp only [execStop, ahead_setState_of_same hv (NodeWord.stop_arrived _)
        (NodeWord.stop_parentShard _), NodeWord.stop_shards]
      grind
  | shard sh =>
      exact ahead_setShard_of_same hv (ShardWord.stop_locals _) (ShardWord.stop_kids _)
        (ShardWord.stop_arrived _)
  | drain sh empty => cases a <;> rfl
  | wake sh w => cases a <;> rfl
  | liveChildren n i acc =>
      simp only [execStop]
      split
      · cases a <;> rfl
      · rfl

/-- Allocating a node changes no count. -/
theorem ahead_of_fresh {k : ℕ} (hw : h.Wf) (hsize : h'.size = h.size + 1)
    (hstate : h'.state = h.state) (hshard : h'.shard = h.shard) (hguards : h'.guards = h.guards)
    (hparent : ∀ n < h.size, h'.parent n = h.parent n)
    (hcount : h'.shardCount = Function.update h.shardCount h.size k) : h'.ahead a = h.ahead a := by
  have hzero := (hw.freshNode le_rfl).1
  cases a with
  | locals s => simp [Heap.ahead, Heap.homed, hshard, hguards]
  | kids s =>
      have hnew : bit (h'.ArrivedAt h.size s) = 0 := bit_of_not fun hat => by
        simp [Heap.ArrivedAt, hstate, hzero] at hat
      have hold : (List.range h.size).countP (fun c => h'.ArrivedAt c s) = h.kidsArrived s :=
        Count.countP_range_congr fun j hj => by simp [Heap.ArrivedAt, hstate, hparent j hj]
      have hkids : (h'.kidsArrived s : ℤ) = h.kidsArrived s := by
        rw [Heap.kidsArrived, hsize, Count.countP_range_succ, hold]
        simpa using hnew
      simp only [Heap.ahead, hshard, hkids]
  | shards n =>
      have hn : h'.shardsArrived n = h.shardsArrived n := by
        rcases eq_or_ne n h.size with rfl | hne
        · have hnone : ∀ i, (h.shard ⟨h.size, i⟩).arrived = false := by
            intro i
            rw [hw.freshShard fun hs => absurd hs.1 (lt_irrefl _)]
            rfl
          simp [Heap.shardsArrived, hshard, hnone]
        · simp [Heap.shardsArrived, hshard, hcount, hne]
      simp only [Heap.ahead, hstate, hn]

theorem balanced_execLife {f : LifeFrame} :
    (execLife h f).1.ahead a = h.ahead a + total (Frame.weight a) ↑(execLife h f).2 := by
  have hfs : total (Frame.weight a) ↑(execLife h f).2 = 0 := total_eq_zero fun g hg => by
    rcases mem_execLife hg with ⟨_, rfl⟩ | ⟨_, -, rfl⟩ | ⟨_, rfl⟩ | ⟨_, -, rfl⟩ | ⟨_, -, rfl⟩ <;> rfl
  obtain ⟨_, _, _, _, _, _, he⟩ := execLife_heap h f
  rw [hfs, he, add_zero]
  cases a <;> rfl

theorem balanced_execChild {f : ChildFrame} (hw : h.Wf) :
    (execChild index h f).1.ahead a =
      h.ahead a + total (Frame.weight a) ↑(execChild index h f).2 := by
  have hfs : total (Frame.weight a) ↑(execChild index h f).2 = 0 := total_eq_zero fun g hg => by
    rcases mem_execChild hg with ⟨_, rfl⟩ | ⟨_, rfl⟩ <;> rfl
  rw [hfs, add_zero]
  cases f with
  | alloc p shard => exact ahead_of_fresh hw rfl rfl rfl rfl (fun n hn => update_of_lt hn) rfl
  | register c => simp only [execChild]; split <;> cases a <;> rfl
  | check c => simp only [execChild]; split <;> rfl
  | _ => cases a <;> rfl

theorem ahead_provenance {location : Location} :
    (provenance h sh location).1.ahead a = h.ahead a := by
  unfold provenance
  split
  · cases a <;> rfl
  · rfl

/-- A guard that goes to the client is counted. -/
theorem ahead_returnGuard {pin : Bool} {location : Location} {info : Option InfoId} :
    (returnGuard h sh pin location info).ahead a = h.ahead a - bit (a = .locals sh) := by
  cases a with
  | locals s =>
      have hhomed : ((returnGuard h sh pin location info).homed s : ℤ) = h.homed s + bit (sh = s) := by
        have := Count.countP_cons (fun g : Guard => g.shard = s)
          ⟨h.nextGuard, sh, pin, location, info⟩ h.guards
        simp only [decide_eq_true_eq] at this
        exact this
      have hshard : (returnGuard h sh pin location info).shard = h.shard := rfl
      simp only [Heap.ahead, hhomed, hshard, Account.locals.injEq, eq_comm]
      omega
  | kids s => simp [Heap.ahead, returnGuard, Heap.kidsArrived, Heap.ArrivedAt]
  | shards n => simp [Heap.ahead, returnGuard, Heap.shardsArrived]

/-- A guard that leaves the client's hands has still to be uncounted. -/
theorem ahead_takeGuard {g : Guard} (hg : g ∈ h.guards) :
    (takeGuard h g).ahead a = h.ahead a + bit (a = .locals g.shard) := by
  cases a with
  | locals s =>
      have hhomed : ((takeGuard h g).homed s : ℤ) = h.homed s - bit (g.shard = s) := by
        have := Count.countP_erase (fun g : Guard => g.shard = s) hg
        simp only [decide_eq_true_eq] at this
        exact this
      have hshard : (takeGuard h g).shard = h.shard := rfl
      simp only [Heap.ahead, hhomed, hshard, Account.locals.injEq, eq_comm]
      omega
  | kids s => simp [Heap.ahead, takeGuard, Heap.kidsArrived, Heap.ArrivedAt]
  | shards n => simp [Heap.ahead, takeGuard, Heap.shardsArrived]

theorem total_forShardNext {location : Location} {state : ShardWord} :
    total (Frame.weight a) ↑(forShardNext sh location state) = 0 := by
  unfold forShardNext
  split <;> simp [Frame.weight]

theorem balanced_execGuard {f : GuardFrame} (hv : (Frame.guard f).Valid h)
    (he : discipline.Enabled (.guard f) K) (hl : Ledger h (.guard f ::ₘ K)) :
    (execGuard index choice h f).1.ahead a + (Frame.guard f).weight a =
      h.ahead a + total (Frame.weight a) ↑(execGuard index choice h f).2 := by
  cases f with
  | new n location =>
      simp [execGuard, ahead_provenance, Frame.weight, CountUnit.account]
  | finish sh pin location info =>
      have hpin : (if pin then h.cloneArc sh.node else h).ahead a = h.ahead a := by
        split
        · cases a <;> rfl
        · rfl
      simp only [execGuard, ahead_returnGuard, hpin, Frame.weight, total_nil]
      omega
  | forShard sh location =>
      simp only [execGuard]
      split
      · simp [total_forShardNext, Frame.weight]
      · simp [Frame.weight]
  | forShardAdd sh location state =>
      simp only [execGuard]
      split
      · rename_i hst
        simp only [← hst.1, ahead_add hv.1, Frame.weight, total_coe_cons, total_nil,
          CountUnit.account]
        omega
      · simp [total_forShardNext, Frame.weight]
  | forShardFinish sh location =>
      simp only [execGuard, ahead_returnGuard, ahead_provenance, Frame.weight, total_nil]
      omega
  | upgrade sh location =>
      simp only [execGuard]
      split
      · simp only [total_coe_cons, total_nil, Frame.weight, add_zero]
        cases a <;> rfl
      · simp [Frame.weight]
  | clone g => simp [execGuard, ahead_provenance, Frame.weight]
  | cloneAdd g info =>
      simp only [execGuard, ahead_add hv.1, Frame.weight, total_coe_cons, total_nil,
        CountUnit.account]
      omega
  | release g => simp [execGuard, Frame.weight]
  | drop g =>
      have hpos : 0 < h.ahead (CountUnit.localOne.account g.shard) := ahead_pos he hl (bit_of rfl)
      have hfs : total (Frame.weight a) ↑(execGuard index choice h (.drop g)).2 = 0 := by
        refine total_eq_zero fun f hf => ?_
        simp only [execGuard] at hf
        (repeat' split at hf) <;> simp at hf <;> grind [Frame.weight]
      rw [hfs, Frame.weight]
      have := ahead_sub (a := a) hv.1 hpos
      simp only [execGuard, this, CountUnit.account]
      omega
  | flushUpgrade sh =>
      simp only [execGuard]
      split
      · simp only [total_coe_cons, total_nil, Frame.weight, add_zero]
        cases a <;> rfl
      · simp [Frame.weight]
  | dropInfo id =>
      simp only [execGuard, Frame.weight, total_nil, add_zero]
      cases a <;> rfl
  | dropValue w g => simp [execGuard, Frame.weight]

theorem balanced_exec {f : Frame} (hv : Valid h (f ::ₘ K)) (he : discipline.Enabled f K)
    (hl : Ledger h (f ::ₘ K)) :
    (exec index choice h f).1.ahead a + f.weight a =
      h.ahead a + total (Frame.weight a) ↑(exec index choice h f).2 := by
  have hw := hv.wf
  have hf := hv.frames f (Multiset.mem_cons_self f K)
  cases f with
  | arrive f => exact balanced_execArrive hw hf hl
  | depart f => exact balanced_execDepart hf he hl
  | stop f => exact (add_zero _).trans (balanced_execStop hf)
  | notify event n =>
      simp only [exec, execNotify, weight_notify, total_nil, add_zero]
      cases a <;> rfl
  | life f => exact (add_zero _).trans balanced_execLife
  | child f => exact (add_zero _).trans (balanced_execChild hw)
  | guard f => exact balanced_execGuard hf he hl
  | wait f =>
      have hfs : total (Frame.weight a) ↑(execWait h f).2 = 0 := total_eq_zero fun g hg => by
        rcases mem_execWait hg with ⟨_, rfl⟩ | ⟨_, rfl⟩ <;> rfl
      obtain ⟨_, _, _, _, he⟩ := execWait_heap h f
      rw [exec, hfs, he]
      cases a <;> rfl
  | poll f =>
      have hfs : total (Frame.weight a) ↑(execPoll choice h f).2 = 0 := total_eq_zero fun g hg => by
        obtain ⟨_, rfl⟩ := mem_execPoll hg; rfl
      obtain ⟨_, _, he⟩ := execPoll_heap choice h f
      rw [exec, hfs, he]
      cases a <;> rfl
  | walk report todo t out =>
      have hfs : total (Frame.weight a) ↑(execWalk h report t out todo).2 = 0 :=
        total_eq_zero fun g hg => by
          rcases mem_execWalk hg with ⟨_, _, _, rfl⟩ | ⟨_, rfl⟩ | ⟨_, -, rfl⟩ <;> rfl
      obtain ⟨_, _, _, he⟩ := execWalk_heap h report t out todo
      rw [exec, hfs, he]
      cases a <;> rfl

/-! ## Words that did not arrive count nothing -/

/-- A word that did not arrive counts nothing. -/
def ShardWord.Consistent (w : ShardWord) : Prop := w.arrived = false → w.locals = 0 ∧ w.kids = 0

theorem ShardWord.Consistent.sub {w : ShardWord} (hw : w.Consistent) (unit : CountUnit) :
    (w.sub unit).Consistent := by
  intro ha
  obtain ⟨hl, hk⟩ := hw (by simpa using ha)
  cases unit <;> simp [ShardWord.sub, hl, hk]

theorem ShardWord.consistent_of_arrived {w : ShardWord} (hw : w.arrived = true) : w.Consistent :=
  fun ha => by simp [hw] at ha

theorem consistent_setShard {w : ShardWord} (hu : ∀ s, (h.shard s).Consistent)
    (hw : w.Consistent) (s : ShardId) : ((h.setShard sh w).shard s).Consistent := by
  rcases eq_or_ne s sh with rfl | hne
  · simpa using hw
  · simpa [hne] using hu s

/-- A guard that can be cloned is counted on its shard. -/
theorem arrived_of_guard {g : Guard} (hg : g ∈ h.guards)
    (hu : (h.shard g.shard).Consistent) (hsolvent : 0 ≤ h.ahead (.locals g.shard)) :
    (h.shard g.shard).arrived = true := by
  by_contra ha
  have hzero := (hu (by simpa using ha)).1
  have hpos : 0 < h.homed g.shard := List.countP_pos_iff.mpr ⟨g, hg, by simp⟩
  simp only [Heap.ahead] at hsolvent
  omega

theorem consistent_exec {f : Frame} (hv : f.Valid h) (hb : Borrowed h (f ::ₘ K))
    (he : discipline.Enabled f K) (hl : Ledger h (f ::ₘ K)) (s : ShardId) :
    ((exec index choice h f).1.shard s).Consistent := by
  have hu : ∀ s, (h.shard s).Consistent := fun s => hl.unarrived
  cases f with
  | arrive f =>
      cases f with
      | shardAdd sh unit state =>
          simp only [exec, execArrive]
          split
          · exact consistent_setShard hu (ShardWord.consistent_of_arrived (by simp [hv.2])) s
          · exact hu s
      | shardCas sh unit state =>
          simp only [exec, execArrive]
          split
          · exact consistent_setShard hu (ShardWord.consistent_of_arrived (by simp)) s
          · exact hu s
      | _ => simp only [exec, execArrive]; (try split) <;> exact hu s
  | depart f =>
      cases f with
      | shard sh unit => exact consistent_setShard hu ((hu sh).sub unit) s
      | flush sh =>
          simp only [exec, execDepart]
          split
          · exact consistent_setShard hu (fun _ => ⟨rfl, rfl⟩) s
          · exact hu s
      | node n => exact hu s
      | nodeCas n p state => simp only [exec, execDepart]; split <;> exact hu s
  | stop f =>
      cases f with
      | shard sh => exact consistent_setShard (w := (h.shard sh).stop) hu (hu sh) s
      | liveChildren n i acc => simp only [exec, execStop]; split <;> exact hu s
      | _ => exact hu s
  | notify event n => exact hu s
  | life f => obtain ⟨_, _, _, _, _, _, he⟩ := execLife_heap h f; rw [exec, he]; exact hu s
  | child f => obtain ⟨_, _, _, _, _, _, _, _, _, he⟩ := execChild_heap index h f; rw [exec, he]; exact hu s
  | guard f =>
      cases f with
      | forShardAdd sh location state =>
          simp only [exec, execGuard]
          split
          · exact consistent_setShard hu (ShardWord.consistent_of_arrived (by simp [hv.2.2])) s
          · exact hu s
      | cloneAdd g info =>
          obtain ⟨k, hk, hkK⟩ := he.below
          have hg : g ∈ h.guards := hb.guard (Multiset.mem_cons_of_mem (hkK _ hk))
          have hsolvent : 0 ≤ h.ahead (.locals g.shard) := by
            rw [hl.balanced, Interleave.total_cons]
            exact (he.solvent _).trans_eq (zero_add _).symm
          have ha := arrived_of_guard hg (hu _) hsolvent
          exact consistent_setShard hu (ShardWord.consistent_of_arrived (by simp [ha])) s
      | drop g => exact consistent_setShard hu ((hu g.shard).sub _) s
      | _ =>
          simp only [exec, execGuard, provenance]
          (repeat' split) <;> exact hu s
  | wait f => obtain ⟨_, _, _, _, he⟩ := execWait_heap h f; rw [exec, he]; exact hu s
  | poll f => obtain ⟨_, _, he⟩ := execPoll_heap choice h f; rw [exec, he]; exact hu s
  | walk report todo t out =>
      obtain ⟨_, _, _, he⟩ := execWalk_heap h report t out todo
      rw [exec, he]
      exact hu s

/-- Where the frames of a first arrival and of a node's departure come from. -/
theorem mem_exec_cases {f g : Frame} (hg : g ∈ (exec index choice h f).2) :
    (∀ sh unit state, g = .arrive (.shardCas sh unit state) →
      state = h.shard sh ∧ state.arrived = false) ∧
    (∀ n p state, g = .depart (.nodeCas n p state) →
      f = .depart (.node n) ∧ state = (h.state n).sub) := by
  cases f with
  | arrive f =>
      cases f <;> simp only [exec, execArrive, arriveNext, nodeArriveNext] at hg <;>
        (repeat' split at hg) <;> simp at hg <;> grind
  | depart f =>
      cases f <;> simp only [exec, execDepart] at hg <;>
        (repeat' split at hg) <;> simp at hg <;> grind
  | stop f => rcases mem_execStop hg with ⟨_, rfl⟩ | ⟨_, _, rfl⟩ | ⟨_, rfl⟩ | ⟨_, rfl⟩ <;> simp
  | notify event n => simp [exec, execNotify] at hg
  | life f =>
      rcases mem_execLife hg with ⟨_, rfl⟩ | ⟨_, -, rfl⟩ | ⟨_, rfl⟩ | ⟨_, -, rfl⟩ | ⟨_, -, rfl⟩ <;> simp
  | child f => rcases mem_execChild hg with ⟨_, rfl⟩ | ⟨_, rfl⟩ <;> simp
  | guard f => rcases mem_execGuard hg with ⟨_, rfl, -⟩ | ⟨_, rfl⟩ | ⟨_, rfl⟩ | ⟨_, rfl⟩ <;> simp
  | wait f => rcases mem_execWait hg with ⟨_, rfl⟩ | ⟨_, rfl⟩ <;> simp
  | poll f => obtain ⟨_, rfl⟩ := mem_execPoll hg; simp
  | walk report todo t out =>
      rcases mem_execWalk hg with ⟨_, _, _, rfl⟩ | ⟨_, rfl⟩ | ⟨_, -, rfl⟩ <;> simp

theorem ledger_exec {f : Frame} (hv : Valid h (f ::ₘ K)) (hb : Borrowed h (f ::ₘ K))
    (he : discipline.Enabled f K) (hl : Ledger h (f ::ₘ K)) :
    Ledger (exec index choice h f).1 (↑(exec index choice h f).2 + K) where
  balanced a := by
    have hstep : (exec index choice h f).1.ahead a + f.weight a =
      h.ahead a + total (Frame.weight a) ↑(exec index choice h f).2 := balanced_exec hv he hl
    have hbal := hl.balanced a
    rw [Interleave.total_cons] at hbal
    rw [Interleave.total_add]
    omega
  unarrived {s} := consistent_exec (hv.frames f (Multiset.mem_cons_self f K)) hb he hl s
  loaded {s unit state} hg := by
    rcases Multiset.mem_add.mp hg with hg | hg
    · obtain ⟨rfl, ha⟩ := (mem_exec_cases hg).1 _ _ _ rfl
      exact hl.unarrived ha
    · exact hl.loaded (Multiset.mem_cons_of_mem hg)
  departing {n p state} hg := by
    rcases Multiset.mem_add.mp hg with hg | hg
    · -- the count was positive before it was left zero, so the child had arrived
      obtain ⟨rfl, rfl⟩ := (mem_exec_cases hg).2 _ _ _ rfl
      have hpos : 0 < h.ahead (.shards n) := ahead_pos he hl (bit_of rfl)
      simp only [Heap.ahead] at hpos
      by_contra ha
      obtain ⟨⟨-, i, hp⟩, -⟩ := (valid_exec hv.wf (hv.frames _ (Multiset.mem_cons_self _ K)) _ hg)
      have hp : h.parent n = some ⟨p, i⟩ := hp
      have hzero := (hv.wf.unarrived hp (by simpa using ha)).1
      omega
    · exact hl.departing (Multiset.mem_cons_of_mem hg)

theorem ahead_start {fr fs : List Frame} {op : Op} (hw : h.Wf)
    (hs : start index h fr op = some (h', fs)) :
    h'.ahead a = h.ahead a + total (Frame.weight a) ↑fs := by
  unfold start at hs
  split at hs <;> simp only [Option.ite_none_right_eq_some, Option.some.injEq, Prod.mk.injEq] at hs <;>
    obtain ⟨hop, rfl, rfl⟩ := hs
  case h_1 =>
    rename_i shards report
    have hsame : (newRoot h shards report).ahead a = h.ahead a :=
      ahead_of_fresh (k := shards) hw rfl rfl rfl rfl (fun _ _ => rfl) rfl
    rw [hsame, total_nil, add_zero]
  case h_12 => rw [ahead_takeGuard hop.1]; simp [Frame.weight]
  case h_13 => rw [ahead_takeGuard hop.1]; simp [Frame.weight]
  case h_15 =>
    rename_i i g
    have hsame : ∀ l, Heap.ahead { takeGuard h g with interrupts := l } a = (takeGuard h g).ahead a :=
      fun _ => by cases a <;> rfl
    rw [hsame, ahead_takeGuard hop.2.1]
    simp [Frame.weight]
  all_goals simp only [total_coe_cons, Frame.weight, total_nil, add_zero]
  all_goals cases a <;> rfl

/-- No operation starts inside an arrival or a departure. -/
theorem not_atomic_of_mem_start {fr fs : List Frame} {op : Op} {g : Frame}
    (hs : start index h fr op = some (h', fs)) (hg : g ∈ fs) :
    (∀ f, g ≠ .arrive f) ∧ ∀ f, g ≠ .depart f := by
  unfold start at hs
  split at hs <;> simp only [Option.ite_none_right_eq_some, Option.some.injEq, Prod.mk.injEq] at hs <;>
    obtain ⟨-, -, rfl⟩ := hs <;> simp at hg <;> grind

theorem ledger_start {fr fs : List Frame} {op : Op} (hw : h.Wf)
    (hs : start index h fr op = some (h', fs)) (hl : Ledger h fr) : Ledger h' (↑fs + ↑fr) where
  balanced a := by
    rw [ahead_start hw hs, hl.balanced a, Interleave.total_add, add_comm]
  unarrived {s} := by
    have hshard : h'.shard = h.shard := by
      unfold start at hs
      split at hs <;>
        simp only [Option.ite_none_right_eq_some, Option.some.injEq, Prod.mk.injEq] at hs <;>
        obtain ⟨-, rfl, -⟩ := hs <;> rfl
    rw [hshard]
    exact hl.unarrived
  loaded {s unit state} hg := by
    rcases Multiset.mem_add.mp hg with hg | hg
    · exact absurd rfl ((not_atomic_of_mem_start hs hg).1 _)
    · exact hl.loaded hg
  departing {n p state} hg := by
    rcases Multiset.mem_add.mp hg with hg | hg
    · exact absurd rfl ((not_atomic_of_mem_start hs hg).2 _)
    · exact hl.departing hg

/-- In every reachable state the words count what there is, up to what the frames in
flight owe. -/
theorem ledger_reach {P : State → Act → Prop} {s : State} (hr : machine.Reach P s) :
    Ledger s.mem s.frames := by
  refine discipline.invariant (J := fun h fr => Valid h fr ∧ Borrowed h fr)
    (fun hr => ⟨valid_reach hr, borrowed_reach hr⟩) ?_ ?_ ?_ hr
  · refine ⟨fun a => ?_, fun _ => ⟨rfl, rfl⟩, by simp, by simp⟩
    cases a <;> simp [machine, Heap.ahead, Heap.homed, Heap.kidsArrived, Heap.shardsArrived,
      Heap.empty]
  · rintro index b h f K he ⟨hv, hb⟩ - hl
    exact ledger_exec hv hb he hl
  · rintro index h fr op h' fs hs ⟨hv, -⟩ - hl
    exact ledger_start hv.wf hs hl

end Swansong
