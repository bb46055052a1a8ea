import Swansong.Heap

/-!
# Program points

A frame is a point inside one of the crate's functions, just before its next atomic
step, with the local variables it still needs.  Functions that belong together have
a frame type of their own; `Frame` is their sum.

A stack of frames is a call stack: a call pushes the callee's first frame above the
frame to which it returns.
-/

namespace Swansong

/-- `Shard::arrive` and `Inner::arrive`. -/
inductive ArriveFrame where
  /-- `Shard::arrive`: load the word. -/
  | shard (sh : ShardId) (unit : CountUnit)
  /-- The loaded word is arrived: CAS to `state + unit`. -/
  | shardAdd (sh : ShardId) (unit : CountUnit) (state : ShardWord)
  /-- The node arrival is made: CAS to `state | ARRIVED | unit`. -/
  | shardCas (sh : ShardId) (unit : CountUnit) (state : ShardWord)
  /-- `Inner::arrive`: count a root's shard, or load a child's word. -/
  | node (n : NodeId)
  /-- The loaded word of a child of `parent` is arrived: CAS to `state + 1`. -/
  | nodeAdd (n parent : NodeId) (state : NodeWord)
  /-- The arrival at the parent shard `up` is made: CAS to `state | ARRIVED | index | 1`. -/
  | nodeCas (n : NodeId) (up : ShardId) (state : NodeWord)
  deriving DecidableEq, Repr

/-- `Shard::depart`, `Shard::flush` and `Inner::depart`. -/
inductive DepartFrame where
  /-- `if shard.depart(unit) { shard.flush(node) }`. -/
  | shard (sh : ShardId) (unit : CountUnit)
  /-- `Shard::flush`. -/
  | flush (sh : ShardId)
  /-- `Inner::depart`: uncount a shard. -/
  | node (n : NodeId)
  /-- The count of a child of `parent` is zero: CAS to `state & STOPPED`. -/
  | nodeCas (n parent : NodeId) (state : NodeWord)
  deriving DecidableEq, Repr

/-- `Shard::stop` and `Inner::stop`. -/
inductive StopFrame where
  | node (n : NodeId)
  | shard (sh : ShardId)
  /-- `Shard::stop`: take the waiters under the lock, then flush if `empty`. -/
  | drain (sh : ShardId) (empty : Bool)
  | wake (sh : ShardId) (waker : Waker)
  /-- `Inner::live_children`, at shard `i`, for the stop of `n`. -/
  | liveChildren (n : NodeId) (i : ℕ) (acc : List NodeId)
  deriving DecidableEq, Repr

/-- Handles and strong references. -/
inductive LifeFrame where
  /-- Drop an `Arc<Inner>`. -/
  | dropArc (n : NodeId)
  /-- `Inner::drop`: remove the node's entry at its parent. -/
  | deregister (n : NodeId)
  /-- `Swansong::clone`. -/
  | cloneHandle (n : NodeId)
  | cloneArc (n : NodeId)
  /-- `Swansong::drop`. -/
  | dropHandle (n : NodeId)
  /-- A call on `&Swansong` returns, ending its borrow. -/
  | release (n : NodeId)
  /-- `shut_down` returns its completion. -/
  | shutDownReturn (n : NodeId)
  deriving DecidableEq, Repr

/-- `Inner::new_child`. -/
inductive ChildFrame where
  /-- Choose the parent shard and clone the parent's `Arc`. -/
  | new (parent : NodeId)
  | alloc (parent : NodeId) (shard : ℕ)
  | register (c : NodeId)
  | storeKey (c : NodeId) (key : ℕ)
  /-- `if parent.is_stopped() { inner.stop() }`. -/
  | check (c : NodeId)
  | done (c : NodeId)
  deriving DecidableEq, Repr

/-- The types that hold a guard next to a wrapped value. -/
inductive Wrapper where
  | guarded
  | interrupt
  deriving DecidableEq, Repr

/-- Creating, cloning and dropping guards. -/
inductive GuardFrame where
  /-- `Guard::at_location`: record provenance, then arrive. -/
  | new (n : NodeId) (location : Location)
  /-- The shard counts the guard; pin the node and return the guard. -/
  | finish (sh : ShardId) (pin : Bool) (location : Location) (info : Option InfoId)
  /-- `Guard::for_shard`, and `Shard::arrive_if_arrived` inside it. -/
  | forShard (sh : ShardId) (location : Location)
  | forShardAdd (sh : ShardId) (location : Location) (state : ShardWord)
  | forShardFinish (sh : ShardId) (location : Location)
  | upgrade (sh : ShardId) (location : Location)
  /-- `Guard::clone`: record provenance, then `Shard::arrive_nonempty`. -/
  | clone (g : Guard)
  | cloneAdd (g : Guard) (info : Option InfoId)
  /-- A call on `&Guard` returns, ending its borrow. -/
  | release (g : Guard)
  /-- `Guard::drop`, at its departure from the shard. -/
  | drop (g : Guard)
  /-- `Guard::drop` of an unpinned guard: upgrade the node to flush the shard. -/
  | flushUpgrade (sh : ShardId)
  | dropInfo (id : InfoId)
  /-- The destructor of the value wrapped together with `g`. -/
  | dropValue (w : Wrapper) (g : Guard)
  deriving DecidableEq, Repr

/-- `new`, `poll` and `block` of `ShutdownCompletion` and `ShuttingDown`; `blocking`
tells `block` from `poll`. -/
inductive WaitFrame where
  | create (event : Event) (n : NodeId) (blocking : Bool)
  /-- The first check of the loop: `is_stopped_relaxed`, then `is_zero_relaxed`. -/
  | stopped (o : Observer) (blocking : Bool)
  | zero (o : Observer) (blocking : Bool)
  | listen (o : Observer) (blocking : Bool)
  /-- The check after registering the listener. -/
  | stoppedAgain (o : Observer) (l : ListenerId) (blocking : Bool)
  | zeroAgain (o : Observer) (l : ListenerId) (blocking : Bool)
  /-- Poll, or wait for, the listener. -/
  | park (o : Observer) (l : ListenerId) (blocking : Bool)
  deriving DecidableEq, Repr

/-- `Interrupt::poll` and `StopListener`. -/
inductive PollFrame where
  | poll (i : Interrupt) (waker : Waker)
  /-- Poll the wrapped value. -/
  | wrapped (i : Interrupt) (waker : Waker)
  /-- `poll_stopped` of a waker that is registered already. -/
  | registered (i : Interrupt) (waker : Waker)
  /-- `poll_stopped` under the shard's lock. -/
  | register (i : Interrupt) (waker : Waker)
  /-- `StopListener::drop`. -/
  | drop (i : Interrupt)
  deriving DecidableEq, Repr

/-- What is left of a walk over a subtree. -/
inductive WalkItem where
  | node (n : NodeId)
  | shard (sh : ShardId)
  /-- `Inner::live_children`, at shard `i`. -/
  | children (n : NodeId) (i : ℕ) (acc : List NodeId)
  | release (c : NodeId)
  deriving DecidableEq, Repr

/-- A program point of the crate. -/
inductive Frame where
  | arrive (f : ArriveFrame)
  | depart (f : DepartFrame)
  | stop (f : StopFrame)
  /-- Notify every listener of the node's event. -/
  | notify (event : Event) (n : NodeId)
  | life (f : LifeFrame)
  | child (f : ChildFrame)
  | guard (f : GuardFrame)
  | wait (f : WaitFrame)
  | poll (f : PollFrame)
  /-- `guard_count_subtree`, or `guard_infos_subtree` if `report`, with what is left
  to visit, the guards counted and the records collected. -/
  | walk (report : Bool) (todo : List WalkItem) (total : ℕ) (out : List InfoId)
  deriving DecidableEq, Repr

end Swansong
