import Swansong.Lib.Reentry
import Swansong.System

/-!
# The shards' locks

Seven functions of the crate take a shard's lock, and several run code of the executor or
of the client: a waker is cloned, woken or dropped, a wrapped value is polled or dropped.
Such code may call the crate again, on the thread that is inside the call.  `locking` says
which lock each step takes and what it does around it, in the order of the source: what
was removed under a lock is dropped after the lock is released.

The client's logger is assumed not to call the crate.  `StopListener::poll_stopped` traces
that it found the stop before it registered while it still holds the lock, so there a
logger that takes the same lock would block.

## Main definitions

* `Frame.lock`, `Frame.effectsBefore`, `Frame.effectsAfter` — what a step does around its
  critical section.
* `locking` — the crate with its locks and with code that calls it again.
* `no_self_deadlock` — the result.
-/

namespace Swansong

open Interleave (Effect Locking Point)

variable {index : ℕ} {choice : Bool} {h : Heap}

/-- The lock that `Shard::provenance` takes. -/
def provenanceLock (h : Heap) (sh : ShardId) : Option ShardId :=
  if h.guardReport sh.node then some sh else none

/-- The lock that `Shard::children` takes, for shard `i` of the node. -/
def childrenLock (h : Heap) (n : NodeId) (i : ℕ) : Option ShardId :=
  if i < h.shardCount n then some ⟨n, i⟩ else none

/-- The lock that the frame's step takes. -/
def Frame.lock (index : ℕ) (h : Heap) : Frame → Option ShardId
  | .poll (.register i _) => some i.shard
  | .poll (.drop i) => i.registration.map fun _ => i.shard
  | .stop (.drain sh _) => some sh
  | .stop (.liveChildren n i _) => childrenLock h n i
  | .life (.deregister n) =>
    match h.parent n, h.key n with
    | some p, some _ => some ⟨p.node, p.shard⟩
    | _, _ => none
  | .child (.register c) => (h.parent c).map fun p => ⟨p.node, p.shard⟩
  | .guard (.new n _) => provenanceLock h ⟨n, h.shardIndex index n⟩
  | .guard (.forShardFinish sh _) => provenanceLock h sh
  | .guard (.clone g) => provenanceLock h g.shard
  | .walk true (.shard sh :: _) _ _ => some sh
  | .walk _ (.children n i _ :: _) _ _ => childrenLock h n i
  | _ => none

/-- What the step does before its critical section. -/
def Frame.effectsBefore : Frame → List (Effect ShardId)
  /- `let (ours, theirs) = (waker.clone(), waker.clone());` -/
  | .poll (.register _ _) => [.foreign, .foreign]
  /- The wrapped value is polled. -/
  | .poll (.wrapped _ _) => [.foreign]
  /- `waker.wake();` -/
  | .stop (.wake _ _) => [.foreign]
  /- The event's listeners wake their tasks. -/
  | .notify _ _ => [.foreign]
  /- The listener is polled, and clones the task's waker. -/
  | .wait (.park _ _ _) => [.foreign]
  /- The wrapped value is dropped. -/
  | .guard (.dropValue _ _) => [.foreign]
  | _ => []

/-- Dropping a waker, if there is one. -/
def dropWaker (present : Bool) : List (Effect ShardId) := if present then [.foreign] else []

/-- What the step does after its critical section. -/
def Frame.effectsAfter (index : ℕ) (h : Heap) : Frame → List (Effect ShardId)
  | .poll (.register i _) =>
    if (h.shard i.shard).stopped then
      -- the lock is declared last, so `return` releases it before it drops the two clones
      [.unlock i.shard, .foreign, .foreign]
    else
      let replaced := i.registration.bind fun r => (h.waiters i.shard).get r.key
      -- `drop(registered); drop(replaced);`, then the old registration is overwritten
      .unlock i.shard :: (dropWaker replaced.isSome ++ dropWaker i.registration.isSome)
  | .poll (.drop i) =>
    -- last, the wrapped value is dropped; with a guard, its drop is `dropValue`
    match i.registration with
    | none => [.foreign]
    | some r =>
      -- `drop(removed); drop(waker);`
      .unlock i.shard ::
        (dropWaker ((h.waiters i.shard).get r.key).isSome ++ dropWaker true ++ [.foreign])
  | f => ((f.lock index h).map Effect.unlock).toList

/-- The crate with its locks, and with code that calls it again. -/
def locking : Locking machine ShardId where
  lock := Frame.lock
  before := Frame.effectsBefore
  after index _ := Frame.effectsAfter index

theorem dropWaker_foreign {present : Bool} : ∀ e ∈ dropWaker present, e = .foreign := by
  cases present <;> simp [dropWaker]

theorem effectsBefore_foreign (f : Frame) : ∀ e ∈ f.effectsBefore, e = .foreign := by
  unfold Frame.effectsBefore
  split <;> simp

theorem effectsAfter_locked {f : Frame} {sh : ShardId} (hl : f.lock index h = some sh) :
    ∃ es, f.effectsAfter index h = .unlock sh :: es ∧ ∀ e ∈ es, e = .foreign := by
  unfold Frame.effectsAfter
  split
  · obtain rfl := Option.some.inj hl
    split
    · exact ⟨_, rfl, by simp⟩
    · refine ⟨_, rfl, fun e he => ?_⟩
      rcases List.mem_append.mp he with he | he <;> exact dropWaker_foreign e he
  · split
    · rename_i hnone
      simp [Frame.lock, hnone] at hl
    · rename_i r hr
      obtain rfl : _ = sh := by simpa [Frame.lock, hr] using hl
      refine ⟨_, rfl, fun e he => ?_⟩
      rcases List.mem_append.mp he with he | he
      · rcases List.mem_append.mp he with he | he <;> exact dropWaker_foreign e he
      · exact List.mem_singleton.mp he
  · rw [hl]
    exact ⟨[], rfl, by simp⟩

theorem effectsAfter_unlocked {f : Frame} (hl : f.lock index h = none) :
    ∀ e ∈ f.effectsAfter index h, e = .foreign := by
  unfold Frame.effectsAfter
  split
  · cases hl
  · split
    · simp
    · rename_i r hr
      simp [Frame.lock, hr] at hl
  · rw [hl]
    simp

/-- Every lock is released before foreign code runs. -/
theorem locking_disciplined : locking.Disciplined where
  before := effectsBefore_foreign
  locked hl := effectsAfter_locked hl
  unlocked hl := effectsAfter_unlocked hl

/-- An operation sees which frames are in flight, and not in which order. -/
theorem start_perm {fr fr' : List Frame} {op : Op} (hp : fr.Perm fr') :
    start index h fr op = start index h fr' op := by
  have hhandle : ∀ n, FreeHandle h fr n ↔ FreeHandle h fr' n := by
    intro n
    rw [FreeHandle, FreeHandle, hp.mem_iff]
  have hguard : ∀ g, FreeGuard h fr g ↔ FreeGuard h fr' g := by
    intro g
    rw [FreeGuard, FreeGuard, hp.mem_iff]
  cases op with
  | dropInterrupt i g => cases g <;> simp only [start, hguard]
  | _ => simp only [start, hhandle, hguard]

/-- **No self-deadlock.**  In every run of the crate in which wakers, wrapped values and
destructors call the crate again, to any depth and on any shard, and the logger does not:
a thread that takes a shard's lock, drops a reference, or runs foreign code holds no lock;
whoever holds a lock releases it in its next step; while any thread has something to run,
some thread can go on; and the memory is one that the crate reaches when nobody calls it
again. -/
theorem no_self_deadlock {c : Interleave.LockConfig Heap Frame ShardId} (hr : locking.Reachable c) :
    (∀ i index f k, c.pool[i]? = some ⟨index, .body f :: k⟩ → ∀ sh, c.owner sh ≠ some i) ∧
    (∀ i index k, c.pool[i]? = some ⟨index, .effect .foreign :: k⟩ → ∀ sh, c.owner sh ≠ some i) ∧
    (∀ i sh b, c.owner sh = some i →
      ∃ c', locking.step c (.run i b) = some c' ∧ c'.owner sh = none) ∧
    ((∃ t ∈ c.pool, t.stack ≠ []) → ∀ b, ∃ i c', locking.step c (.run i b) = some c') ∧
    ∃ s : State, Reachable s ∧ s.mem = c.mem ∧ s.frames.Perm c.frames := by
  refine ⟨?_, ?_, ?_, ?_, ?_⟩
  · intro i index f k hi
    exact locking_disciplined.not_owner hr hi fun l he => by cases he
  · intro i index k hi
    exact locking_disciplined.not_owner hr hi fun l he => by cases he
  · intro i sh b ho
    exact locking_disciplined.released hr ho b
  · intro hrun b
    exact locking_disciplined.progress hr hrun b
  · obtain ⟨s, hs, hsim⟩ := Locking.simulated locking (fun hp => start_perm hp) hr
    exact ⟨s, hs, hsim.mem, hsim.frames⟩

/-- An interrupt is polled; its waker's clone shuts the node down, and the lock is taken. -/
def stoppedByClone : List (Interleave.LockAct Op) :=
  [.start 0 (.newRoot 1 false), .start 1 (.interrupt 0),
    .start 1 (.pollInterrupt ⟨⟨0, 0⟩, none, none⟩ ⟨7, 7⟩), .run 2 false, .run 2 false, .run 2 false,
    .run 2 false, .run 2 false, .run 2 false, .nest 2 (.shutDown 0), .run 2 false, .run 2 false,
    .run 2 false, .run 2 false, .run 2 false, .run 2 false]

theorem no_self_deadlock_stoppedByClone : ∃ c, locking.Reachable c ∧
    c.owner ⟨0, 0⟩ = some 2 ∧ (c.mem.shard ⟨0, 0⟩).stopped = true ∧
    ∃ c', locking.step c (.run 2 false) = some c' ∧ c'.owner ⟨0, 0⟩ = none := by
  obtain ⟨c, hr, hc⟩ := Locking.exists_reachable (K := locking) stoppedByClone
    (p := fun c => c.owner ⟨0, 0⟩ = some 2 ∧ (c.mem.shard ⟨0, 0⟩).stopped = true) (by decide)
  obtain ⟨ho, hst⟩ := of_decide_eq_true hc
  exact ⟨c, hr, ho, hst, (no_self_deadlock hr).2.2.1 2 ⟨0, 0⟩ false ho⟩

end Swansong
