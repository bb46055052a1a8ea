import Swansong.System

/-!
# What a step touches

Each family of functions writes a few parts of the memory and calls a few others.
Invariants that look at other parts or frames are kept by the family at once.
-/

namespace Swansong

variable {index : ℕ} {choice : Bool} {h h' : Heap} {g : Frame}

/-! ## The parts of the memory that a family writes -/

section
variable (index choice h)

theorem execArrive_heap (f : ArriveFrame) :
    ∃ shard state, (execArrive index choice h f).1 = { h with shard := shard, state := state } := by
  cases f <;> simp only [execArrive] <;> (repeat' split) <;> exact ⟨_, _, rfl⟩

theorem execDepart_heap (f : DepartFrame) :
    ∃ shard state, (execDepart h f).1 = { h with shard := shard, state := state } := by
  cases f <;> simp only [execDepart] <;> (repeat' split) <;> exact ⟨_, _, rfl⟩

theorem execStop_heap (f : StopFrame) : ∃ shard state strong waiters drained woken,
    (execStop h f).1 = { h with
      shard := shard, state := state, strong := strong, waiters := waiters, drained := drained,
      woken := woken } := by
  cases f <;> simp only [execStop] <;> (repeat' split) <;> exact ⟨_, _, _, _, _, _, rfl⟩

theorem execLife_heap (f : LifeFrame) : ∃ strong children swansongCount handles abandoned returned,
    (execLife h f).1 = { h with
      strong := strong, children := children, swansongCount := swansongCount, handles := handles,
      abandoned := abandoned, returned := returned } := by
  cases f <;> simp only [execLife] <;> (repeat' split) <;> exact ⟨_, _, _, _, _, _, rfl⟩

theorem execChild_heap (f : ChildFrame) :
    ∃ size parent shardCount guardReport swansongCount key strong children handles,
      (execChild index h f).1 = { h with
        size := size, parent := parent, shardCount := shardCount, guardReport := guardReport,
        swansongCount := swansongCount, key := key, strong := strong, children := children,
        handles := handles } := by
  cases f <;> simp only [execChild] <;> (repeat' split) <;>
    exact ⟨_, _, _, _, _, _, _, _, _, rfl⟩

theorem execGuard_heap (f : GuardFrame) :
    ∃ shard strong infoLocation infoStrong nextInfo registry guards nextGuard,
      (execGuard index choice h f).1 = { h with
        shard := shard, strong := strong, infoLocation := infoLocation, infoStrong := infoStrong,
        nextInfo := nextInfo, registry := registry, guards := guards, nextGuard := nextGuard } := by
  cases f <;> simp only [execGuard, provenance, returnGuard] <;> (repeat' split) <;>
    exact ⟨_, _, _, _, _, _, _, _, rfl⟩

theorem execWait_heap (f : WaitFrame) : ∃ strong observers listeners nextListener,
    (execWait h f).1 = { h with
      strong := strong, observers := observers, listeners := listeners,
      nextListener := nextListener } := by
  cases f <;> simp only [execWait, waitReady] <;> (repeat' split) <;> exact ⟨_, _, _, _, rfl⟩

theorem execPoll_heap (f : PollFrame) : ∃ interrupts waiters,
    (execPoll choice h f).1 = { h with interrupts := interrupts, waiters := waiters } := by
  cases f <;> simp only [execPoll, pollReturn] <;> (repeat' split) <;> exact ⟨_, _, rfl⟩

theorem execWalk_heap (report : Bool) (total : ℕ) (out : List InfoId) (todo : List WalkItem) :
    ∃ registry infoStrong strong, (execWalk h report total out todo).1 = { h with
      registry := registry, infoStrong := infoStrong, strong := strong } := by
  rcases todo with _ | ⟨item, todo⟩
  · exact ⟨_, _, _, rfl⟩
  · cases item <;> simp only [execWalk] <;> (repeat' split) <;> exact ⟨_, _, _, rfl⟩

end

/-- Whether the frame belongs to a family that writes the words of the nodes. -/
def Frame.writesState : Frame → Bool
  | .arrive _ | .depart _ | .stop _ => true
  | _ => false

/-- Whether the frame belongs to a family that writes the words of the shards. -/
def Frame.writesShard : Frame → Bool
  | .arrive _ | .depart _ | .stop _ | .guard _ => true
  | _ => false

/-- Whether the frame belongs to a family that writes the registered children. -/
def Frame.writesChildren : Frame → Bool
  | .life _ | .child _ => true
  | _ => false

theorem state_exec {f : Frame} (hf : f.writesState = false) :
    (exec index choice h f).1.state = h.state := by
  cases f with
  | notify event n => rfl
  | life f => obtain ⟨_, _, _, _, _, _, he⟩ := execLife_heap h f; rw [exec, he]
  | child f =>
      obtain ⟨_, _, _, _, _, _, _, _, _, he⟩ := execChild_heap index h f
      rw [exec, he]
  | guard f =>
      obtain ⟨_, _, _, _, _, _, _, _, he⟩ :=
        execGuard_heap index choice h f
      rw [exec, he]
  | wait f => obtain ⟨_, _, _, _, he⟩ := execWait_heap h f; rw [exec, he]
  | poll f => obtain ⟨_, _, he⟩ := execPoll_heap choice h f; rw [exec, he]
  | walk report todo total out =>
      obtain ⟨_, _, _, he⟩ := execWalk_heap h report total out todo
      rw [exec, he]
  | _ => cases hf

theorem shard_exec {f : Frame} (hf : f.writesShard = false) :
    (exec index choice h f).1.shard = h.shard := by
  cases f with
  | notify event n => rfl
  | life f => obtain ⟨_, _, _, _, _, _, he⟩ := execLife_heap h f; rw [exec, he]
  | child f =>
      obtain ⟨_, _, _, _, _, _, _, _, _, he⟩ := execChild_heap index h f
      rw [exec, he]
  | wait f => obtain ⟨_, _, _, _, he⟩ := execWait_heap h f; rw [exec, he]
  | poll f => obtain ⟨_, _, he⟩ := execPoll_heap choice h f; rw [exec, he]
  | walk report todo total out =>
      obtain ⟨_, _, _, he⟩ := execWalk_heap h report total out todo
      rw [exec, he]
  | _ => cases hf

theorem children_exec {f : Frame} (hf : f.writesChildren = false) :
    (exec index choice h f).1.children = h.children := by
  cases f with
  | arrive f =>
      obtain ⟨_, _, he⟩ := execArrive_heap index choice h f
      rw [exec, he]
  | depart f => obtain ⟨_, _, he⟩ := execDepart_heap h f; rw [exec, he]
  | stop f => obtain ⟨_, _, _, _, _, _, he⟩ := execStop_heap h f; rw [exec, he]
  | notify event n => rfl
  | guard f =>
      obtain ⟨_, _, _, _, _, _, _, _, he⟩ :=
        execGuard_heap index choice h f
      rw [exec, he]
  | wait f => obtain ⟨_, _, _, _, he⟩ := execWait_heap h f; rw [exec, he]
  | poll f => obtain ⟨_, _, he⟩ := execPoll_heap choice h f; rw [exec, he]
  | walk report todo total out =>
      obtain ⟨_, _, _, he⟩ := execWalk_heap h report total out todo
      rw [exec, he]
  | _ => cases hf

variable (index choice h) in
/-- Only `Inner::new_child` writes the tree. -/
theorem tree_exec {f : Frame} (hf : ∀ f', f ≠ .child f') :
    (exec index choice h f).1.size = h.size ∧ (exec index choice h f).1.parent = h.parent ∧
      (exec index choice h f).1.key = h.key := by
  cases f with
  | arrive f =>
      obtain ⟨_, _, he⟩ := execArrive_heap index choice h f
      rw [exec, he]
      exact ⟨rfl, rfl, rfl⟩
  | depart f => obtain ⟨_, _, he⟩ := execDepart_heap h f; rw [exec, he]; exact ⟨rfl, rfl, rfl⟩
  | stop f =>
      obtain ⟨_, _, _, _, _, _, he⟩ := execStop_heap h f
      rw [exec, he]
      exact ⟨rfl, rfl, rfl⟩
  | notify event n => exact ⟨rfl, rfl, rfl⟩
  | life f =>
      obtain ⟨_, _, _, _, _, _, he⟩ := execLife_heap h f
      rw [exec, he]
      exact ⟨rfl, rfl, rfl⟩
  | child f => exact absurd rfl (hf f)
  | guard f =>
      obtain ⟨_, _, _, _, _, _, _, _, he⟩ :=
        execGuard_heap index choice h f
      rw [exec, he]
      exact ⟨rfl, rfl, rfl⟩
  | wait f => obtain ⟨_, _, _, _, he⟩ := execWait_heap h f; rw [exec, he]; exact ⟨rfl, rfl, rfl⟩
  | poll f =>
      obtain ⟨_, _, he⟩ := execPoll_heap choice h f
      rw [exec, he]
      exact ⟨rfl, rfl, rfl⟩
  | walk report todo total out =>
      obtain ⟨_, _, _, he⟩ := execWalk_heap h report total out todo
      rw [exec, he]
      exact ⟨rfl, rfl, rfl⟩

/-! ## The frames that a family pushes -/

theorem mem_stopShards {n : NodeId} :
    g ∈ stopShards h n ↔ ∃ sh ∈ h.shards n, g = .stop (.shard sh) := by
  simp [stopShards, eq_comm]

theorem mem_execArrive {f : ArriveFrame} (hg : g ∈ (execArrive index choice h f).2) :
    (∃ f', g = .arrive f') ∨ (∃ n, g = .depart (.node n)) ∨
      ∃ sh, g = .depart (.shard sh .kidsOne) := by
  cases f <;> simp only [execArrive, arriveNext, nodeArriveNext] at hg <;>
    (repeat' split at hg) <;> simp at hg <;> grind

theorem mem_execDepart {f : DepartFrame} (hg : g ∈ (execDepart h f).2) :
    (∃ f', g = .depart f') ∨ ∃ n, g = .notify .zero n := by
  cases f <;> simp only [execDepart] at hg <;> (repeat' split at hg) <;> simp at hg <;> grind

theorem mem_execStop {f : StopFrame} (hg : g ∈ (execStop h f).2) :
    (∃ f', g = .stop f') ∨ (∃ e n, g = .notify e n) ∨ (∃ sh, g = .depart (.flush sh)) ∨
      ∃ n, g = .life (.dropArc n) := by
  cases f <;> simp only [execStop] at hg <;> (repeat' split at hg) <;>
    simp [mem_stopShards] at hg <;> grind

theorem mem_execLife {f : LifeFrame} (hg : g ∈ (execLife h f).2) :
    (∃ sh, g = .stop (.shard sh)) ∨ (∃ n, f = .dropHandle n ∧ g = .stop (.node n)) ∨
      (∃ n, g = .life (.dropArc n)) ∨ (∃ n, f = .dropArc n ∧ g = .life (.deregister n)) ∨
      ∃ n, f = .cloneHandle n ∧ g = .life (.cloneArc n) := by
  cases f <;> simp only [execLife, collect] at hg <;> (repeat' split at hg) <;>
    simp [mem_stopShards] at hg <;> grind

theorem mem_execChild {f : ChildFrame} (hg : g ∈ (execChild index h f).2) :
    (∃ f', g = .child f') ∨ ∃ c, g = .stop (.node c) := by
  cases f <;> simp only [execChild] at hg <;> (repeat' split at hg) <;> simp at hg <;> grind

theorem mem_execGuard {f : GuardFrame} (hg : g ∈ (execGuard index choice h f).2) :
    (∃ f', g = .guard f' ∧ ∀ g, f' ≠ .release g) ∨ (∃ sh, g = .arrive (.shard sh .localOne)) ∨
      (∃ sh, g = .depart (.flush sh)) ∨ ∃ n, g = .life (.dropArc n) := by
  cases f <;> simp only [execGuard, forShardNext] at hg <;> (repeat' split at hg) <;>
    simp at hg <;> grind

theorem mem_execWait {f : WaitFrame} (hg : g ∈ (execWait h f).2) :
    (∃ f', g = .wait f') ∨ ∃ n, g = .life (.dropArc n) := by
  cases f <;> simp only [execWait, waitReady, waitNext] at hg <;> (repeat' split at hg) <;>
    simp at hg <;> grind

theorem mem_execPoll {f : PollFrame} (hg : g ∈ (execPoll choice h f).2) :
    ∃ f', g = .poll f' := by
  cases f <;> simp only [execPoll, pollReturn] at hg <;> (repeat' split at hg) <;>
    simp at hg <;> grind

theorem mem_execWalk {report : Bool} {total : ℕ} {out : List InfoId} {todo : List WalkItem}
    (hg : g ∈ (execWalk h report total out todo).2) :
    (∃ todo' total' out', g = .walk report todo' total' out') ∨ (∃ n, g = .life (.dropArc n)) ∨
      ∃ id ∈ out, g = .guard (.dropInfo id) := by
  rcases todo with _ | ⟨item, todo⟩
  · simp only [execWalk] at hg
    split at hg <;> simp at hg
    grind
  · cases item <;> simp only [execWalk] at hg <;> (repeat' split at hg) <;> simp at hg <;> grind

/-- Only `Inner::new_child` goes on with itself. -/
theorem child_of_mem_exec {f : Frame} {g : ChildFrame} (hg : .child g ∈ (exec index choice h f).2) :
    ∃ f', f = .child f' := by
  cases f with
  | arrive f => rcases mem_execArrive hg with ⟨_, hg⟩ | ⟨_, hg⟩ | ⟨_, hg⟩ <;> cases hg
  | depart f => rcases mem_execDepart hg with ⟨_, hg⟩ | ⟨_, hg⟩ <;> cases hg
  | stop f => rcases mem_execStop hg with ⟨_, hg⟩ | ⟨_, _, hg⟩ | ⟨_, hg⟩ | ⟨_, hg⟩ <;> cases hg
  | notify event n => simp [exec, execNotify] at hg
  | life f =>
      rcases mem_execLife hg with ⟨_, hg⟩ | ⟨_, -, hg⟩ | ⟨_, hg⟩ | ⟨_, -, hg⟩ | ⟨_, -, hg⟩ <;> cases hg
  | child f => exact ⟨f, rfl⟩
  | guard f => rcases mem_execGuard hg with ⟨_, hg, -⟩ | ⟨_, hg⟩ | ⟨_, hg⟩ | ⟨_, hg⟩ <;> cases hg
  | wait f => rcases mem_execWait hg with ⟨_, hg⟩ | ⟨_, hg⟩ <;> cases hg
  | poll f => obtain ⟨_, hg⟩ := mem_execPoll hg; cases hg
  | walk report todo total out =>
      rcases mem_execWalk hg with ⟨_, _, _, hg⟩ | ⟨_, hg⟩ | ⟨_, -, hg⟩ <;> cases hg

/-- Only the drop of a child's last reference deregisters it. -/
theorem deregister_of_mem_exec {f : Frame} {n : NodeId}
    (hg : .life (.deregister n) ∈ (exec index choice h f).2) :
    f = .life (.dropArc n) ∧ h.strong n = 1 := by
  cases f with
  | arrive f => rcases mem_execArrive hg with ⟨_, hg⟩ | ⟨_, hg⟩ | ⟨_, hg⟩ <;> cases hg
  | depart f => rcases mem_execDepart hg with ⟨_, hg⟩ | ⟨_, hg⟩ <;> cases hg
  | stop f => rcases mem_execStop hg with ⟨_, hg⟩ | ⟨_, _, hg⟩ | ⟨_, hg⟩ | ⟨_, hg⟩ <;> cases hg
  | notify event n => simp [exec, execNotify] at hg
  | life f =>
      cases f with
      | dropArc m =>
          simp only [exec, execLife] at hg
          split at hg
          · rename_i hone
            rcases hp : h.parent m with _ | q <;> simp [collect, hp, mem_stopShards] at hg
            subst hg
            exact ⟨rfl, hone⟩
          · cases hg
      | _ =>
          simp only [exec, execLife] at hg
          (repeat' split at hg) <;> simp at hg
  | child f => rcases mem_execChild hg with ⟨_, hg⟩ | ⟨_, hg⟩ <;> cases hg
  | guard f => rcases mem_execGuard hg with ⟨_, hg, -⟩ | ⟨_, hg⟩ | ⟨_, hg⟩ | ⟨_, hg⟩ <;> cases hg
  | wait f => rcases mem_execWait hg with ⟨_, hg⟩ | ⟨_, hg⟩ <;> cases hg
  | poll f => obtain ⟨_, hg⟩ := mem_execPoll hg; cases hg
  | walk report todo total out =>
      rcases mem_execWalk hg with ⟨_, _, _, hg⟩ | ⟨_, hg⟩ | ⟨_, -, hg⟩ <;> cases hg

/-! ## Starting an operation -/

theorem start_heap {fr fs : List Frame} {op : Op} (hs : start index h fr op = some (h', fs)) :
    ∃ size shardCount guardReport swansongCount strong handles guards observers interrupts shutDown,
      h' = { h with
        size := size, shardCount := shardCount, guardReport := guardReport,
        swansongCount := swansongCount, strong := strong, handles := handles, guards := guards,
        observers := observers, interrupts := interrupts, shutDown := shutDown } := by
  unfold start at hs
  split at hs <;> simp only [Option.ite_none_right_eq_some, Option.some.injEq, Prod.mk.injEq] at hs <;>
    obtain ⟨-, rfl, -⟩ := hs <;> exact ⟨_, _, _, _, _, _, _, _, _, _, rfl⟩

/-- The frames that operations start with. -/
def Frame.starts : Frame → Bool
  | .stop (.node _) | .life (.dropArc _) | .life (.cloneHandle _) | .life (.dropHandle _)
  | .life (.release _) | .life (.shutDownReturn _) | .child (.new _) | .guard (.new _ _)
  | .guard (.forShard _ _) | .guard (.clone _) | .guard (.release _) | .guard (.drop _)
  | .guard (.dropValue _ _) | .wait (.create _ _ _) | .wait (.stopped _ _) | .poll (.poll _ _)
  | .poll (.drop _) | .walk _ _ _ _ => true
  | _ => false

theorem starts_of_mem_start {fr fs : List Frame} {op : Op}
    (hs : start index h fr op = some (h', fs)) (hg : g ∈ fs) : g.starts = true := by
  unfold start at hs
  split at hs <;> simp only [Option.ite_none_right_eq_some, Option.some.injEq, Prod.mk.injEq] at hs <;>
    obtain ⟨-, -, rfl⟩ := hs <;> simp only [List.mem_cons, List.not_mem_nil, or_false] at hg <;>
    (repeat' rcases hg with rfl | hg) <;> rfl

/-- Only `Swansong::shut_down` starts with a stop. -/
theorem shutDown_of_mem_start {fr fs : List Frame} {op : Op} {n : NodeId}
    (hs : start index h fr op = some (h', fs)) (hn : .stop (.node n) ∈ fs) : op = .shutDown n := by
  unfold start at hs
  split at hs <;> simp only [Option.ite_none_right_eq_some, Option.some.injEq, Prod.mk.injEq] at hs <;>
    obtain ⟨-, -, rfl⟩ := hs <;> simp at hn
  rw [hn]

end Swansong
