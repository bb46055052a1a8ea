import Swansong.Touch

/-!
# What no step takes back

A node keeps its place in the tree and its shards, stop bits and notifications stay
set, and the history is only added to.
-/

namespace Swansong

/-- `h'` has all that `h` has.  What a step leaves alone is as in `refl`. -/
structure Heap.Extends (h h' : Heap) : Prop where
  size : h.size ≤ h'.size
  parent : ∀ n < h.size, h'.parent n = h.parent n
  shardCount : ∀ n < h.size, h'.shardCount n = h.shardCount n
  guardReport : ∀ n < h.size, h'.guardReport n = h.guardReport n
  stopped : ∀ n, (h.state n).stopped = true → (h'.state n).stopped = true
  latched : ∀ sh, (h.shard sh).stopped = true → (h'.shard sh).stopped = true
  nextListener : h.nextListener ≤ h'.nextListener
  listeners : ∀ l < h.nextListener, (h'.listeners l).event = (h.listeners l).event ∧
    (h'.listeners l).node = (h.listeners l).node ∧
    ((h.listeners l).notified = true → (h'.listeners l).notified = true)
  nextInfo : h.nextInfo ≤ h'.nextInfo
  infoLocation : ∀ id < h.nextInfo, h'.infoLocation id = h.infoLocation id
  shutDown : ∀ n, h.shutDown n = true → h'.shutDown n = true
  abandoned : ∀ n, h.abandoned n = true → h'.abandoned n = true
  drained : ∀ sh, h.drained sh = true → h'.drained sh = true
  woken : ∀ sh, h.woken sh ⊆ h'.woken sh

namespace Heap.Extends
variable {h h' h'' : Heap}

theorem refl (h : Heap) : h.Extends h where
  size := le_rfl
  parent _ _ := rfl
  shardCount _ _ := rfl
  guardReport _ _ := rfl
  stopped _ hn := hn
  latched _ hsh := hsh
  nextListener := le_rfl
  listeners _ _ := ⟨rfl, rfl, id⟩
  nextInfo := le_rfl
  infoLocation _ _ := rfl
  shutDown _ hn := hn
  abandoned _ hn := hn
  drained _ hsh := hsh
  woken _ := List.Subset.refl _

theorem trans (a : h.Extends h') (b : h'.Extends h'') : h.Extends h'' where
  size := a.size.trans b.size
  parent n hn := (b.parent n (hn.trans_le a.size)).trans (a.parent n hn)
  shardCount n hn := (b.shardCount n (hn.trans_le a.size)).trans (a.shardCount n hn)
  guardReport n hn := (b.guardReport n (hn.trans_le a.size)).trans (a.guardReport n hn)
  stopped n hn := b.stopped n (a.stopped n hn)
  latched sh hsh := b.latched sh (a.latched sh hsh)
  nextListener := a.nextListener.trans b.nextListener
  listeners l hl := by
    obtain ⟨he, hn, ht⟩ := a.listeners l hl
    obtain ⟨he', hn', ht'⟩ := b.listeners l (hl.trans_le a.nextListener)
    exact ⟨he'.trans he, hn'.trans hn, fun h => ht' (ht h)⟩
  nextInfo := a.nextInfo.trans b.nextInfo
  infoLocation id hid :=
    (b.infoLocation id (hid.trans_le a.nextInfo)).trans (a.infoLocation id hid)
  shutDown n hn := b.shutDown n (a.shutDown n hn)
  abandoned n hn := b.abandoned n (a.abandoned n hn)
  drained sh hsh := b.drained sh (a.drained sh hsh)
  woken sh _ hw := b.woken sh (a.woken sh hw)

/-- Writing a shard's word keeps its stop bit if the new word has it. -/
theorem setShard {sh : ShardId} {w : ShardWord}
    (hw : (h.shard sh).stopped = true → w.stopped = true) : h.Extends (h.setShard sh w) := by
  refine { Heap.Extends.refl h with latched := fun s hs => ?_ }
  rcases eq_or_ne s sh with rfl | hne
  · simpa using hw hs
  · simpa [hne] using hs

/-- Writing a node's word keeps its stop bit if the new word has it. -/
theorem setState {n : NodeId} {w : NodeWord}
    (hw : (h.state n).stopped = true → w.stopped = true) : h.Extends (h.setState n w) := by
  refine { Heap.Extends.refl h with stopped := fun m hm => ?_ }
  rcases eq_or_ne m n with rfl | hne
  · simpa using hw hm
  · simpa [hne] using hm

end Heap.Extends

variable {index : ℕ} {choice : Bool} {h h' : Heap}

theorem update_true {α : Type} [DecidableEq α] {m : α → Bool} {a b : α} (hb : m b = true) :
    Function.update m a true b = true := by
  rcases eq_or_ne b a with rfl | hne
  · simp
  · simpa [hne] using hb

theorem extends_execArrive {f : ArriveFrame} : h.Extends (execArrive index choice h f).1 := by
  cases f with
  | shard sh unit => exact { Heap.Extends.refl h with }
  | shardAdd sh unit state =>
      simp only [execArrive]
      split
      · rename_i hst; exact .setShard (by simp [hst.1])
      · exact { Heap.Extends.refl h with }
  | shardCas sh unit state =>
      simp only [execArrive]
      split
      · rename_i hst; exact .setShard (by simp [hst])
      · exact { Heap.Extends.refl h with }
  | node n =>
      simp only [execArrive]
      split
      · exact .setState (by simp)
      · exact { Heap.Extends.refl h with }
  | nodeAdd n parent state =>
      simp only [execArrive]
      split
      · rename_i hst; exact .setState (by simp [hst.1])
      · exact { Heap.Extends.refl h with }
  | nodeCas n up state =>
      simp only [execArrive]
      split
      · rename_i hst; exact .setState (by simp [hst])
      · exact { Heap.Extends.refl h with }

theorem extends_execDepart {f : DepartFrame} : h.Extends (execDepart h f).1 := by
  cases f with
  | shard sh unit => exact .setShard (by simp)
  | flush sh =>
      simp only [execDepart]
      split
      · exact .setShard (by simp)
      · exact { Heap.Extends.refl h with }
  | node n => exact .setState (by simp)
  | nodeCas n parent state =>
      simp only [execDepart]
      split
      · rename_i hst; exact .setState (by simp [hst])
      · exact { Heap.Extends.refl h with }

theorem extends_execNotify {event : Event} {n : NodeId} : h.Extends (execNotify h event n).1 := by
  refine { Heap.Extends.refl h with listeners := fun l _ => ?_ }
  simp only [execNotify]
  split <;> simp

theorem extends_execStop {f : StopFrame} : h.Extends (execStop h f).1 := by
  cases f with
  | node n => exact .setState (by simp)
  | shard sh => exact .setShard (by simp)
  | drain sh empty => exact { Heap.Extends.refl h with drained := fun _ => update_true }
  | wake sh w =>
      refine { Heap.Extends.refl h with woken := fun s => ?_ }
      simp only [execStop]
      rcases eq_or_ne s sh with rfl | hne
      · simp
      · simp [hne]
  | liveChildren n i acc =>
      simp only [execStop]
      split <;> exact { Heap.Extends.refl h with }

theorem extends_execLife {f : LifeFrame} : h.Extends (execLife h f).1 := by
  cases f with
  | deregister n => simp only [execLife]; split <;> exact { Heap.Extends.refl h with }
  | dropHandle n =>
      refine { Heap.Extends.refl h with abandoned := fun m hm => ?_ }
      simp only [execLife]
      split
      · exact update_true hm
      · exact hm
  | _ => exact { Heap.Extends.refl h with }

theorem update_of_lt {β : Type} {m : ℕ → β} {size n : ℕ} {b : β} (hn : n < size) :
    Function.update m size b n = m n := by
  simp [hn.ne]

theorem extends_execChild {f : ChildFrame} : h.Extends (execChild index h f).1 := by
  cases f with
  | alloc parent shard =>
      exact { Heap.Extends.refl h with
        size := Nat.le_succ _
        parent := fun _ => update_of_lt
        shardCount := fun _ => update_of_lt
        guardReport := fun _ => update_of_lt }
  | register c => simp only [execChild]; split <;> exact { Heap.Extends.refl h with }
  | check c => simp only [execChild]; split <;> exact { Heap.Extends.refl h with }
  | _ => exact { Heap.Extends.refl h with }

theorem extends_provenance {sh : ShardId} {location : Location} :
    h.Extends (provenance h sh location).1 := by
  unfold provenance
  split
  · exact { Heap.Extends.refl h with nextInfo := Nat.le_succ _, infoLocation := fun _ => update_of_lt }
  · exact { Heap.Extends.refl h with }

theorem extends_returnGuard {sh : ShardId} {pin : Bool} {location : Location}
    {info : Option InfoId} : h.Extends (returnGuard h sh pin location info) := { Heap.Extends.refl h with }

theorem extends_execGuard {f : GuardFrame} : h.Extends (execGuard index choice h f).1 := by
  cases f with
  | new n location => exact extends_provenance
  | finish sh pin location info =>
      simp only [execGuard]
      split
      · exact { Heap.Extends.refl h with }
      · exact { Heap.Extends.refl h with }
  | forShard sh location => exact { Heap.Extends.refl h with }
  | forShardAdd sh location state =>
      simp only [execGuard]
      split
      · rename_i hst; exact .setShard (by simp [hst.1])
      · exact { Heap.Extends.refl h with }
  | forShardFinish sh location => exact extends_provenance.trans extends_returnGuard
  | upgrade sh location => simp only [execGuard]; split <;> exact { Heap.Extends.refl h with }
  | clone g => exact extends_provenance
  | cloneAdd g info => exact .setShard (by simp)
  | drop g => exact .setShard (by simp)
  | flushUpgrade sh => simp only [execGuard]; split <;> exact { Heap.Extends.refl h with }
  | _ => exact { Heap.Extends.refl h with }

theorem extends_waitReady {o : Observer} {blocking : Bool} :
    h.Extends (waitReady h o blocking).1 := by
  unfold waitReady
  split <;> exact { Heap.Extends.refl h with }

theorem extends_execWait {f : WaitFrame} : h.Extends (execWait h f).1 := by
  cases f with
  | create event n blocking => simp only [execWait]; split <;> exact { Heap.Extends.refl h with }
  | stopped o blocking =>
      simp only [execWait]
      split
      · split
        · exact { Heap.Extends.refl h with }
        · exact extends_waitReady
      · exact { Heap.Extends.refl h with }
  | zero o blocking =>
      simp only [execWait]
      split
      · exact extends_waitReady
      · exact { Heap.Extends.refl h with }
  | listen o blocking =>
      exact { Heap.Extends.refl h with
        nextListener := Nat.le_succ _
        listeners := fun l hl => by simp [execWait, hl.ne] }
  | stoppedAgain o l blocking =>
      simp only [execWait]
      split
      · split
        · exact { Heap.Extends.refl h with }
        · exact extends_waitReady
      · exact { Heap.Extends.refl h with }
  | zeroAgain o l blocking =>
      simp only [execWait]
      split
      · exact extends_waitReady
      · exact { Heap.Extends.refl h with }
  | park o l blocking =>
      simp only [execWait]
      split
      · exact { Heap.Extends.refl h with }
      · split <;> exact { Heap.Extends.refl h with }

theorem extends_execPoll {f : PollFrame} : h.Extends (execPoll choice h f).1 := by
  obtain ⟨_, _, he⟩ := execPoll_heap choice h f
  rw [he]
  exact { Heap.Extends.refl h with }

theorem extends_execWalk {report : Bool} {total : ℕ} {out : List InfoId} {todo : List WalkItem} :
    h.Extends (execWalk h report total out todo).1 := by
  obtain ⟨_, _, _, he⟩ := execWalk_heap h report total out todo
  rw [he]
  exact { Heap.Extends.refl h with }

/-- The step of a frame only adds. -/
theorem extends_exec {f : Frame} : h.Extends (exec index choice h f).1 := by
  cases f with
  | arrive f => exact extends_execArrive
  | depart f => exact extends_execDepart
  | stop f => exact extends_execStop
  | notify event n => exact extends_execNotify
  | life f => exact extends_execLife
  | child f => exact extends_execChild
  | guard f => exact extends_execGuard
  | wait f => exact extends_execWait
  | poll f => exact extends_execPoll
  | walk report todo total out => exact extends_execWalk

/-- The start of an operation only adds. -/
theorem extends_start {fr fs : List Frame} {op : Op}
    (hs : start index h fr op = some (h', fs)) : h.Extends h' := by
  unfold start at hs
  split at hs <;> simp only [Option.ite_none_right_eq_some, Option.some.injEq, Prod.mk.injEq] at hs <;>
    obtain ⟨-, rfl, -⟩ := hs
  case h_1 => exact { Heap.Extends.refl h with
    size := Nat.le_succ _
    parent := fun _ _ => rfl
    shardCount := fun _ => update_of_lt
    guardReport := fun _ => update_of_lt }
  case h_5 => exact { Heap.Extends.refl h with shutDown := fun _ => update_true }
  all_goals exact { Heap.Extends.refl h with }

/-- A step only adds. -/
theorem extends_step {s s' : State} {a : Act} (hs : machine.step s a = some s') :
    s.mem.Extends s'.mem := by
  rcases Interleave.Machine.step_cases hs with
    ⟨i, b, index, f, k, p, q, -, -, -, rfl⟩ | ⟨index, op, m', fs, -, hstart, rfl⟩
  · exact extends_exec
  · exact extends_start hstart

/-- A run only adds. -/
theorem extends_leads {P : State → Act → Prop} {s s' : State} (hl : machine.Leads P s s') :
    s.mem.Extends s'.mem := by
  induction hl with
  | refl => exact .refl _
  | step _ _ hs ih => exact ih.trans (extends_step hs)

end Swansong
