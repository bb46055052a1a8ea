import Swansong.System
import Swansong.Lib.Count

/-!
# The shape of the call stacks

What a frame expects of the frames below it: a callee expects its caller, and a
function on a node expects some frame of its own thread to keep the node alive.

An arrival is counted before the frame that asked for it goes on.  So the count of a
shard or a node is ahead of, or behind, the guards, children and shards it stands
for by what the frames in flight owe.  `weight` gives this debt, which is what the
frame still has to take from (positive) or add to (negative) the count.  A frame
that still has to add is directly above the frame it adds for.
-/

namespace Swansong

open Count (bit bit_of)

/-- Whether the frame keeps a strong reference to the node, or a borrow of a value
that keeps one. -/
def Frame.holds (n : NodeId) : Frame → Prop
  | .life (.dropArc m) | .life (.dropHandle m) | .life (.release m) => m = n
  | .child (.alloc p _) => p = n
  | .child (.register c) | .child (.storeKey c _) | .child (.check c) | .child (.done c) => c = n
  | .guard (.release g) | .guard (.drop g) => g.pin = true ∧ g.shard.node = n
  | _ => False

/-- A frame of the stack holds the node. -/
def Held (n : NodeId) (k : List Frame) : Prop := ∃ g ∈ k, g.holds n

/-- What an arrival of `unit` at the shard returns to. -/
def ArrivesFor (sh : ShardId) (k : List Frame) : CountUnit → Prop
  | .localOne => ∃ pin location info k', k = .guard (.finish sh pin location info) :: k'
  | .kidsOne => ∃ n state k', k = .arrive (.nodeCas n sh state) :: k'

/-- What an arrival at the node returns to. -/
def NodeArrivesFor (n : NodeId) (k : List Frame) : Prop :=
  ∃ sh unit state k', k = .arrive (.shardCas sh unit state) :: k' ∧ sh.node = n

/-- What a frame expects of the stack below it. -/
def Frame.expects : Frame → List Frame → Prop
  | .arrive (.shard sh unit), k => ArrivesFor sh k unit
  | .arrive (.shardAdd sh unit _), k => ArrivesFor sh k unit
  | .arrive (.shardCas sh unit _), k => ArrivesFor sh k unit
  | .arrive (.node n), k => NodeArrivesFor n k
  | .arrive (.nodeAdd n _ _), k => NodeArrivesFor n k
  | .arrive (.nodeCas n _ _), k => NodeArrivesFor n k
  | .stop (.node n), k => Held n k
  | .life (.cloneHandle n), k => Held n k
  | .life (.cloneArc n), k => Held n k
  | .child (.new n), k => Held n k
  | .guard (.new n _), k => Held n k
  | .guard (.finish sh pin _ _), k => pin = true → Held sh.node k
  | .guard (.clone g), k => .guard (.release g) ∈ k
  | .guard (.cloneAdd g _), k => .guard (.release g) ∈ k
  | .guard (.dropValue .interrupt g), k => .guard (.drop g) ∈ k
  | .wait (.create _ n _), k => Held n k
  | _, _ => True

/-! ## Accounts -/

/-- The counts that are kept: a shard's guards, a shard's children, a node's shards. -/
inductive Account where
  | locals (sh : ShardId)
  | kids (sh : ShardId)
  | shards (n : NodeId)
  deriving DecidableEq

/-- The count of a shard that the unit is added to. -/
def CountUnit.account (sh : ShardId) : CountUnit → Account
  | .localOne => .locals sh
  | .kidsOne => .kids sh

/-- What the frame still has to take from the count. -/
noncomputable def Frame.weight (a : Account) : Frame → ℤ
  | .arrive (.shard sh unit) | .arrive (.shardAdd sh unit _) => -bit (a = unit.account sh)
  | .arrive (.shardCas sh unit _) => bit (a = .shards sh.node) - bit (a = unit.account sh)
  | .arrive (.node n) | .arrive (.nodeAdd n _ _) => -bit (a = .shards n)
  | .arrive (.nodeCas n up _) => bit (a = .kids up) - bit (a = .shards n)
  | .depart (.shard sh unit) => bit (a = unit.account sh)
  | .depart (.node n) => bit (a = .shards n)
  | .guard (.finish sh _ _ _) | .guard (.forShardFinish sh _) => bit (a = .locals sh)
  | .guard (.drop g) => bit (a = .locals g.shard)
  | _ => 0

/-! ## The discipline is kept -/

theorem Held.append {n : NodeId} {k l : List Frame} (h : Held n k) : Held n (k ++ l) := by
  obtain ⟨g, hg, hn⟩ := h
  exact ⟨g, List.mem_append_left _ hg, hn⟩

theorem Held.cons {n : NodeId} {k : List Frame} (h : Held n k) (f : Frame) : Held n (f :: k) := by
  obtain ⟨g, hg, hn⟩ := h
  exact ⟨g, List.mem_cons_of_mem _ hg, hn⟩

theorem ArrivesFor.append {sh : ShardId} {k l : List Frame} {unit : CountUnit}
    (h : ArrivesFor sh k unit) : ArrivesFor sh (k ++ l) unit := by
  cases unit with
  | localOne => obtain ⟨pin, location, info, k', rfl⟩ := h; exact ⟨pin, location, info, _, rfl⟩
  | kidsOne => obtain ⟨n, state, k', rfl⟩ := h; exact ⟨n, state, _, rfl⟩

theorem NodeArrivesFor.append {n : NodeId} {k l : List Frame} (h : NodeArrivesFor n k) :
    NodeArrivesFor n (k ++ l) := by
  obtain ⟨sh, unit, state, k', rfl, hn⟩ := h
  exact ⟨sh, unit, state, _, rfl, hn⟩

theorem Frame.expects_append {f : Frame} {k l : List Frame} (h : f.expects k) :
    f.expects (k ++ l) := by
  unfold expects at h ⊢
  split at h
  · exact ArrivesFor.append h
  · exact ArrivesFor.append h
  · exact ArrivesFor.append h
  · exact NodeArrivesFor.append h
  · exact NodeArrivesFor.append h
  · exact NodeArrivesFor.append h
  · exact Held.append h
  · exact Held.append h
  · exact Held.append h
  · exact Held.append h
  · exact Held.append h
  · exact fun hp => Held.append (h hp)
  · exact List.mem_append_left _ h
  · exact List.mem_append_left _ h
  · exact List.mem_append_left _ h
  · exact Held.append h
  · trivial

/-- A frame that expects nothing, whatever is below it. -/
def Frame.free (f : Frame) : Prop := ∀ k, f.expects k

open Interleave (StackOk stackOk_append_of_free)

abbrev Ordered : List Frame → Prop := StackOk Frame.expects

theorem ordered_stopShards {h : Heap} {n : NodeId} {k : List Frame} (hk : Ordered k) :
    Ordered (stopShards h n ++ k) := by
  refine stackOk_append_of_free ?_ hk
  simp only [stopShards, List.mem_map]
  rintro f ⟨sh, -, rfl⟩ k
  trivial

theorem ordered_arriveNext {sh : ShardId} {unit : CountUnit} {state : ShardWord} {k : List Frame}
    (hf : ArrivesFor sh k unit) (hk : Ordered k) : Ordered (arriveNext sh unit state ++ k) := by
  unfold arriveNext
  split
  · exact ⟨hf, hk⟩
  · exact ⟨⟨sh, unit, state, k, rfl, rfl⟩, hf, hk⟩

theorem ordered_nodeArriveNext {index : ℕ} {h : Heap} {n parent : NodeId} {state : NodeWord}
    {k : List Frame} (hf : NodeArrivesFor n k) (hk : Ordered k) :
    Ordered (nodeArriveNext index h n parent state ++ k) := by
  unfold nodeArriveNext
  split
  · exact ⟨hf, hk⟩
  · exact ⟨⟨n, state, k, rfl⟩, hf, hk⟩

theorem ordered_execArrive {index : ℕ} {choice : Bool} {h : Heap} {f : ArriveFrame}
    {k : List Frame} (hf : (Frame.arrive f).expects k) (hk : Ordered k) :
    Ordered ((execArrive index choice h f).2 ++ k) := by
  cases f with
  | shard sh unit => exact ordered_arriveNext hf hk
  | shardAdd sh unit state =>
      simp only [execArrive]
      split
      · exact hk
      · exact ordered_arriveNext hf hk
  | shardCas sh unit state =>
      simp only [execArrive]
      split
      · exact hk
      · exact ⟨trivial, ordered_arriveNext hf hk⟩
  | node n =>
      simp only [execArrive]
      split
      · exact hk
      · exact ordered_nodeArriveNext hf hk
  | nodeAdd n parent state =>
      simp only [execArrive]
      split
      · exact hk
      · exact ordered_nodeArriveNext hf hk
  | nodeCas n up state =>
      simp only [execArrive]
      split
      · exact hk
      · exact ⟨trivial, ordered_nodeArriveNext hf hk⟩

theorem ordered_execDepart {h : Heap} {f : DepartFrame} {k : List Frame} (hk : Ordered k) :
    Ordered ((execDepart h f).2 ++ k) := by
  refine stackOk_append_of_free ?_ hk
  cases f with
  | shard sh unit => simp only [execDepart]; split <;> simp [Frame.expects]
  | flush sh => simp only [execDepart]; split <;> simp [Frame.expects]
  | node n =>
      simp only [execDepart]
      split
      · simp
      · split <;> split <;> simp [Frame.expects]
  | nodeCas n parent state => simp only [execDepart]; split <;> simp [Frame.expects]

/-- Each child to stop is above the reference that keeps it alive. -/
theorem ordered_stopChildren {cs : List NodeId} {k : List Frame} (hk : Ordered k) :
    Ordered (cs.flatMap (fun c => [.stop (.node c), .life (.dropArc c)]) ++ k) := by
  induction cs with
  | nil => exact hk
  | cons c cs ih =>
      rw [List.flatMap_cons, List.append_assoc]
      exact ⟨⟨.life (.dropArc c), by simp, rfl⟩, trivial, ih⟩

theorem ordered_execStop {h : Heap} {f : StopFrame} {k : List Frame} (hk : Ordered k) :
    Ordered ((execStop h f).2 ++ k) := by
  cases f with
  | node n =>
      simp only [execStop]
      split
      · exact hk
      · rw [List.append_assoc, List.append_assoc]
        refine ordered_stopShards ⟨trivial, trivial, ?_⟩
        split
        · exact ⟨trivial, hk⟩
        · exact hk
  | shard sh => exact ⟨trivial, hk⟩
  | drain sh empty =>
      refine stackOk_append_of_free ?_ hk
      simp only [execStop, List.mem_append, List.mem_map]
      rintro f (⟨w, -, rfl⟩ | hf)
      · exact fun _ => trivial
      · split at hf <;> simp_all [Frame.expects]
  | wake sh w => exact hk
  | liveChildren n i acc =>
      simp only [execStop]
      split
      · exact ⟨trivial, hk⟩
      · exact ordered_stopChildren hk

theorem ordered_execLife {h : Heap} {f : LifeFrame} {k : List Frame}
    (hf : (Frame.life f).expects k) (hk : Ordered k) : Ordered ((execLife h f).2 ++ k) := by
  cases f with
  | dropArc n =>
      simp only [execLife]
      split
      · rw [collect, List.append_assoc]
        refine ordered_stopShards ?_
        split
        · exact hk
        · exact ⟨trivial, trivial, hk⟩
      · exact hk
  | deregister n => simp only [execLife]; split <;> exact hk
  | cloneHandle n => exact ⟨hf, hk⟩
  | cloneArc n => exact hk
  | dropHandle n =>
      simp only [execLife]
      split
      · exact ⟨⟨.life (.dropArc n), by simp, rfl⟩, trivial, hk⟩
      · exact ⟨trivial, hk⟩
  | release n => exact hk
  | shutDownReturn n => exact hk

theorem ordered_execChild {index : ℕ} {h : Heap} {f : ChildFrame} {k : List Frame}
    (hk : Ordered k) : Ordered ((execChild index h f).2 ++ k) := by
  cases f with
  | new p => exact ⟨trivial, hk⟩
  | alloc p shard => exact ⟨trivial, hk⟩
  | register c =>
      simp only [execChild]
      split
      · exact hk
      · exact ⟨trivial, hk⟩
  | storeKey c key => exact ⟨trivial, hk⟩
  | check c =>
      simp only [execChild]
      split
      · exact hk
      · split
        · exact ⟨⟨.child (.done c), by simp, rfl⟩, trivial, hk⟩
        · exact ⟨trivial, hk⟩
  | done c => exact hk

theorem ordered_execGuard {index : ℕ} {choice : Bool} {h : Heap} {f : GuardFrame}
    {k : List Frame} (hf : (Frame.guard f).expects k) (hk : Ordered k) :
    Ordered ((execGuard index choice h f).2 ++ k) := by
  cases f with
  | new n location => exact ⟨⟨_, _, _, k, rfl⟩, fun _ => hf, hk⟩
  | finish sh pin location info => exact hk
  | forShard sh location =>
      refine stackOk_append_of_free ?_ hk
      simp only [execGuard, forShardNext]
      split
      · split <;> simp [Frame.expects]
      · simp [Frame.expects]
  | forShardAdd sh location state =>
      refine stackOk_append_of_free ?_ hk
      simp only [execGuard, forShardNext]
      split
      · simp [Frame.expects]
      · split <;> simp [Frame.expects]
  | forShardFinish sh location => exact hk
  | upgrade sh location =>
      simp only [execGuard]
      split
      · exact ⟨⟨.life (.dropArc sh.node), by simp, rfl⟩, trivial, hk⟩
      · exact hk
  | clone g => exact ⟨hf, hk⟩
  | cloneAdd g info => exact ⟨fun hp => ⟨.guard (.release g), hf, hp, rfl⟩, hk⟩
  | release g => exact hk
  | drop g =>
      refine stackOk_append_of_free ?_ hk
      simp only [execGuard]
      cases g.info <;> cases g.pin <;> split <;> simp [Frame.expects]
  | flushUpgrade sh =>
      refine stackOk_append_of_free ?_ hk
      simp only [execGuard]
      split <;> simp [Frame.expects]
  | dropInfo id => exact hk
  | dropValue w g => exact hk

theorem ordered_execWait {h : Heap} {f : WaitFrame} {k : List Frame} (hk : Ordered k) :
    Ordered ((execWait h f).2 ++ k) := by
  refine stackOk_append_of_free ?_ hk
  have hready : ∀ (o : Observer) b, ∀ f ∈ (waitReady h o b).2, ∀ k, f.expects k := by
    intro o b
    unfold waitReady
    split <;> simp [Frame.expects]
  have hnext : ∀ (o : Observer) b, ∀ f ∈ waitNext o b, ∀ k, f.expects k := by
    intro o b
    unfold waitNext
    split <;> simp [Frame.expects]
  cases f with
  | create event n b => simp only [execWait]; split <;> simp [Frame.expects]
  | stopped o b =>
      simp only [execWait]
      split
      · split
        · simp [Frame.expects]
        · exact hready o b
      · exact hnext o b
  | zero o b =>
      simp only [execWait]
      split
      · exact hready o b
      · exact hnext o b
  | listen o b => simp [execWait, Frame.expects]
  | stoppedAgain o l b =>
      simp only [execWait]
      split
      · split
        · simp [Frame.expects]
        · exact hready _ b
      · simp [Frame.expects]
  | zeroAgain o l b =>
      simp only [execWait]
      split
      · exact hready _ b
      · simp [Frame.expects]
  | park o l b =>
      simp only [execWait]
      split
      · simp [Frame.expects]
      · split <;> simp [Frame.expects]

theorem ordered_execPoll {choice : Bool} {h : Heap} {f : PollFrame} {k : List Frame}
    (hk : Ordered k) : Ordered ((execPoll choice h f).2 ++ k) := by
  refine stackOk_append_of_free ?_ hk
  cases f with
  | poll i w => simp only [execPoll]; split <;> simp [pollReturn, Frame.expects]
  | wrapped i w => simp only [execPoll]; split <;> simp [pollReturn, Frame.expects]
  | registered i w => simp [execPoll, pollReturn]
  | register i w => simp only [execPoll]; split <;> simp [pollReturn]
  | drop i => simp [execPoll]

theorem ordered_execWalk {h : Heap} {report : Bool} {total : ℕ} {out : List InfoId}
    {todo : List WalkItem} {k : List Frame} (hk : Ordered k) :
    Ordered ((execWalk h report total out todo).2 ++ k) := by
  refine stackOk_append_of_free ?_ hk
  cases todo with
  | nil =>
      simp only [execWalk]
      split
      · simp only [List.mem_map]
        rintro f ⟨id, -, rfl⟩ k
        trivial
      · simp
  | cons item todo =>
      cases item with
      | node n => simp [execWalk, Frame.expects]
      | shard sh => simp only [execWalk]; split <;> simp [Frame.expects]
      | children n i acc => simp only [execWalk]; split <;> simp [Frame.expects]
      | release c => simp [execWalk, Frame.expects]

theorem ordered_exec {index : ℕ} {choice : Bool} {h : Heap} {f : Frame} {k : List Frame}
    (hfk : Ordered (f :: k)) : Ordered ((exec index choice h f).2 ++ k) := by
  obtain ⟨hf, hk⟩ := hfk
  cases f with
  | arrive f => exact ordered_execArrive hf hk
  | depart f => exact ordered_execDepart hk
  | stop f => exact ordered_execStop hk
  | notify event n => exact hk
  | life f => exact ordered_execLife hf hk
  | child f => exact ordered_execChild hk
  | guard f => exact ordered_execGuard hf hk
  | wait f => exact ordered_execWait hk
  | poll f => exact ordered_execPoll hk
  | walk report todo total out => exact ordered_execWalk hk

/-- What the operations start with keeps the discipline. -/
theorem ordered_start {index : ℕ} {h h' : Heap} {fr fs : List Frame} {op : Op}
    (hs : start index h fr op = some (h', fs)) : Ordered fs := by
  have hreleased : ∀ n (f : Frame) (k : List Frame), f.holds n → Held n (f :: k) :=
    fun n f k hf => ⟨f, by simp, hf⟩
  have hbelow : ∀ n (f g : Frame), g.holds n → Held n [f, g] :=
    fun n f g hg => ⟨g, by simp, hg⟩
  unfold start at hs
  split at hs <;> simp only [Option.ite_none_right_eq_some, Option.some.injEq, Prod.mk.injEq] at hs <;>
    obtain ⟨-, -, rfl⟩ := hs <;>
    simp [Frame.expects, Held, Frame.holds]

/-- What the frame owes by itself, not through a guard that it is dropping. -/
noncomputable def Frame.debt (a : Account) (f : Frame) : ℤ :=
  f.weight a - bit (∃ g : Guard, f = .guard (.drop g) ∧ a = .locals g.shard)

theorem ArrivesFor.cover {a : Account} {sh : ShardId} {unit : CountUnit} {k : List Frame}
    (h : ArrivesFor sh k unit) (ha : a = unit.account sh) :
    ∃ g k', k = g :: k' ∧ g.weight a = 1 ∧ g.debt a = 1 := by
  subst ha
  cases unit with
  | localOne =>
      obtain ⟨pin, location, info, k', rfl⟩ := h
      exact ⟨_, _, rfl, bit_of rfl, by simp [Frame.debt, Frame.weight, CountUnit.account]⟩
  | kidsOne =>
      obtain ⟨n, state, k', rfl⟩ := h
      exact ⟨_, _, rfl, by simp [Frame.weight, CountUnit.account],
        by simp [Frame.debt, Frame.weight, CountUnit.account]⟩

theorem NodeArrivesFor.cover {a : Account} {n : NodeId} {k : List Frame}
    (h : NodeArrivesFor n k) (ha : a = .shards n) :
    ∃ g k', k = g :: k' ∧ g.weight a = 1 ∧ g.debt a = 1 := by
  subst ha
  obtain ⟨sh, unit, state, k', rfl, rfl⟩ := h
  refine ⟨_, _, rfl, ?_, ?_⟩
  · cases unit <;> simp [Frame.weight, CountUnit.account]
  · cases unit <;> simp [Frame.debt, Frame.weight, CountUnit.account]

/-- A frame that still has to add to a count is directly above the frame it adds for. -/
theorem Frame.cover {a : Account} {f : Frame} {k : List Frame} (hf : f.expects k)
    (hw : f.weight a < 0) :
    f.weight a = -1 ∧ f.debt a = -1 ∧ ∃ g k', k = g :: k' ∧ g.weight a = 1 ∧ g.debt a = 1 := by
  have hge : ∀ p q : Prop, bit p - bit q < 0 → q ∧ bit p - bit q = -1 := by
    intro p q h
    have hp := Count.bit_nonneg p
    have hq := Count.bit_le_one q
    by_cases hq' : q
    · exact ⟨hq', by omega⟩
    · rw [Count.bit_of_not hq'] at h
      omega
  have hneg : ∀ q : Prop, -bit q < 0 → q ∧ -bit q = -1 := fun q h => by
    simpa using hge False q (by simpa using h)
  have hdebt : (∀ g, f ≠ .guard (.drop g)) → f.debt a = f.weight a := by
    intro hne
    simp [debt, hne]
  unfold weight at hw
  split at hw
  · obtain ⟨ha, hw⟩ := hneg _ hw
    exact ⟨hw, (hdebt (by simp)).trans hw, ArrivesFor.cover hf ha⟩
  · obtain ⟨ha, hw⟩ := hneg _ hw
    exact ⟨hw, (hdebt (by simp)).trans hw, ArrivesFor.cover hf ha⟩
  · obtain ⟨ha, hw⟩ := hge _ _ hw
    exact ⟨hw, (hdebt (by simp)).trans hw, ArrivesFor.cover hf ha⟩
  · obtain ⟨ha, hw⟩ := hneg _ hw
    exact ⟨hw, (hdebt (by simp)).trans hw, NodeArrivesFor.cover hf ha⟩
  · obtain ⟨ha, hw⟩ := hneg _ hw
    exact ⟨hw, (hdebt (by simp)).trans hw, NodeArrivesFor.cover hf ha⟩
  · obtain ⟨ha, hw⟩ := hge _ _ hw
    exact ⟨hw, (hdebt (by simp)).trans hw, NodeArrivesFor.cover hf ha⟩
  all_goals
    exfalso
    have := Count.bit_nonneg
    grind

theorem Frame.weight_cover {a : Account} {f : Frame} {k : List Frame} (hf : f.expects k)
    (hw : f.weight a < 0) : ∃ g k', k = g :: k' ∧ 0 ≤ f.weight a + g.weight a := by
  obtain ⟨hw, -, g, k', hk, hg, -⟩ := Frame.cover hf hw
  exact ⟨g, k', hk, by omega⟩

/-- The call stacks of the crate, with the counts kept as accounts. -/
noncomputable def discipline : Interleave.Discipline machine Account where
  ok := Frame.expects
  ok_append := Frame.expects_append
  exec_ok := ordered_exec
  start_ok := ordered_start
  weight := Frame.weight
  cover := Frame.weight_cover

/-- The frames in flight are solvent even without the guards they are dropping. -/
theorem covered_debt (a : Account) : discipline.Covered (Frame.debt a) := by
  intro f k hf hneg
  by_cases hdrop : ∃ g : Guard, f = .guard (.drop g) ∧ a = .locals g.shard
  · obtain ⟨g, rfl, rfl⟩ := hdrop
    simp [Frame.debt, Frame.weight] at hneg
  · have hw : f.weight a < 0 := by simpa [Frame.debt, Count.bit_of_not hdrop] using hneg
    obtain ⟨-, hd, g, k', hk, -, hg⟩ := Frame.cover hf hw
    exact ⟨g, k', hk, by omega⟩

end Swansong
