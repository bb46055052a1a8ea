import Swansong.Word
import Swansong.Slab
import Swansong.Registry
import Mathlib.Logic.Function.Basic

/-!
# The shared memory

A `Heap` is everything the threads share.  Each atomic of an `Inner` or a `Shard`
and each part of a shard's `Registered` is a location of its own, so the fields of
these types are maps, from the nodes or the shards allocated so far.  A node is an
`Inner`; its id is a pointer to it.  An id is given out once, and a parent's id is
below its children's.

The heap also holds the values that are in the clients' hands (handles, guards,
completions, interrupts) and, at its end, history that no step of the program reads.

## Main definitions

* `Heap` — the memory.
* `Guard`, `Observer`, `Interrupt` — the values clients hold.
* `Heap.lineage` — a node with all its ancestors.
-/

namespace Swansong

/-- A pointer to an `Inner`. -/
abbrev NodeId := ℕ

/-- A pointer to a shard: the node it belongs to, and its index there. -/
structure ShardId where
  node : NodeId
  index : ℕ
  deriving DecidableEq, Repr

/-- A child's link to its parent: the parent, and the parent shard it registers on. -/
structure Parent where
  node : NodeId
  shard : ℕ
  deriving DecidableEq, Repr

/-- Where a guard was created. -/
structure Location where
  file : String
  line : ℕ
  column : ℕ
  deriving DecidableEq, Repr

/-- A `Guard`: the shard that counts it, whether it pins its node, where it was
created and its provenance record.  Guards are told apart by `id`. -/
structure Guard where
  id : ℕ
  shard : ShardId
  pin : Bool
  location : Location
  info : Option InfoId
  deriving DecidableEq, Repr

/-- A node's events: `zero_event` and `stop_event`. -/
inductive Event where
  | zero
  | stop
  deriving DecidableEq, Repr

/-- An `EventListener` of the `event_listener` crate: the event it was created on and
whether it was notified. -/
structure Listener where
  event : Event
  node : NodeId
  notified : Bool
  deriving DecidableEq, Repr

abbrev ListenerId := ℕ

/-- A `ShutdownCompletion`, which waits on its node's `zero` event, or a
`ShuttingDown`, which waits on its `stop` event.  `pending` and `resolved` are
history: its last poll returned Pending, and some poll of it returned Ready. -/
structure Observer where
  event : Event
  node : NodeId
  listener : Option ListenerId
  pending : Bool
  resolved : Bool
  deriving DecidableEq, Repr

/-- A `Waker`. -/
structure Waker where
  data : ℕ
  vtable : ℕ
  deriving DecidableEq, Repr

/-- Whether two wakers wake the same task. -/
def Waker.willWake (w w' : Waker) : Bool := w.data = w'.data && w.vtable = w'.vtable

@[simp] theorem Waker.willWake_iff {w w' : Waker} : w.willWake w' = true ↔ w = w' := by
  cases w; cases w'; simp [willWake]

structure Registration where
  key : ℕ
  waker : Waker
  deriving DecidableEq, Repr

/-- An `Interrupt` around a future or stream, seen through its `StopListener`.
`pending` is history: the waker of its last poll, if that returned Pending. -/
structure Interrupt where
  shard : ShardId
  registration : Option Registration
  pending : Option Waker
  deriving DecidableEq, Repr

/-- The shared memory. -/
structure Heap where
  /-- How many nodes were allocated. -/
  size : ℕ
  parent : NodeId → Option Parent
  shardCount : NodeId → ℕ
  /-- Whether guards on the node record provenance. -/
  guardReport : NodeId → Bool
  /-- `Inner::state`. -/
  state : NodeId → NodeWord
  swansongCount : NodeId → ℕ
  /-- `Parent::key`. -/
  key : NodeId → Option ℕ
  /-- The strong count of the `Arc` that holds the node. -/
  strong : NodeId → ℕ
  /-- `Shard::state`. -/
  shard : ShardId → ShardWord
  waiters : ShardId → Slab Waker
  registry : ShardId → GuardRegistry
  children : ShardId → Slab NodeId
  /-- Event listeners, and how many were created. -/
  listeners : ListenerId → Listener
  nextListener : ℕ
  /-- Provenance records: their location, their strong count, how many were created. -/
  infoLocation : InfoId → Location
  infoStrong : InfoId → ℕ
  nextInfo : ℕ
  /-- `Swansong` values in clients' hands, for each node. -/
  handles : NodeId → ℕ
  /-- `Guard` values in clients' hands, bare or inside a wrapper. -/
  guards : List Guard
  nextGuard : ℕ
  observers : List Observer
  interrupts : List Interrupt
  /-- History: `shut_down` was called on the node. -/
  shutDown : NodeId → Bool
  /-- History: some call of `shut_down` on the node returned. -/
  returned : NodeId → Bool
  /-- History: the last handle of the root was dropped. -/
  abandoned : NodeId → Bool
  /-- History: the shard's waiters were drained, and the wakers its drains woke. -/
  drained : ShardId → Bool
  woken : ShardId → List Waker

namespace Heap

/-- The memory before anything is allocated. -/
def empty : Heap where
  size := 0
  parent := fun _ => none
  shardCount := fun _ => 0
  guardReport := fun _ => false
  state := fun _ => .zero
  swansongCount := fun _ => 0
  key := fun _ => none
  strong := fun _ => 0
  shard := fun _ => .zero
  waiters := fun _ => .empty
  registry := fun _ => .empty
  children := fun _ => .empty
  listeners := fun _ => ⟨.zero, 0, false⟩
  nextListener := 0
  infoLocation := fun _ => ⟨"", 0, 0⟩
  infoStrong := fun _ => 0
  nextInfo := 0
  handles := fun _ => 0
  guards := []
  nextGuard := 0
  observers := []
  interrupts := []
  shutDown := fun _ => false
  returned := fun _ => false
  abandoned := fun _ => false
  drained := fun _ => false
  woken := fun _ => []

variable (h : Heap)

@[simp] def setShard (sh : ShardId) (w : ShardWord) : Heap :=
  { h with shard := Function.update h.shard sh w }

@[simp] def setState (n : NodeId) (w : NodeWord) : Heap :=
  { h with state := Function.update h.state n w }

/-- `Arc::clone`, or a successful `Weak::upgrade`. -/
@[simp] def cloneArc (n : NodeId) : Heap :=
  { h with strong := Function.update h.strong n (h.strong n + 1) }

/-- Whether the node is a root. -/
def isRoot (n : NodeId) : Bool := (h.parent n).isNone

/-- The node's shard for the thread of this index. -/
def shardIndex (index : ℕ) (n : NodeId) : ℕ := index &&& (h.shardCount n - 1)

/-- The shards of a node, in order. -/
def shards (n : NodeId) : List ShardId := (List.range (h.shardCount n)).map fun i => ⟨n, i⟩

/-- Whether a weak pointer to the provenance record upgrades. -/
def infoAlive (id : InfoId) : Bool := 0 < h.infoStrong id

/-- Whether the node is allocated and not collected. -/
def Live (n : NodeId) : Prop := 0 < h.strong n

instance (n : NodeId) : Decidable (h.Live n) := inferInstanceAs (Decidable (0 < h.strong n))

/-- Whether the shard is one of an allocated node. -/
def HasShard (sh : ShardId) : Prop := sh.node < h.size ∧ sh.index < h.shardCount sh.node

instance (sh : ShardId) : Decidable (h.HasShard sh) :=
  inferInstanceAs (Decidable (_ ∧ _))

/-- The node and its ancestors, nearest first.  Parents have smaller ids, so the
walk from `n` ends within `n + 1` steps. -/
def lineageFrom : ℕ → NodeId → List NodeId
  | 0, _ => []
  | fuel + 1, n =>
    n :: match h.parent n with
      | none => []
      | some p => lineageFrom fuel p.node

/-- The node and all its ancestors. -/
def lineage (n : NodeId) : List NodeId := h.lineageFrom (n + 1) n

end Heap
end Swansong
