import Swansong.Lib.Interleave
import Swansong.Program

/-!
# The crate as a system of threads

`Op` lists what clients can do with the values they hold.  Starting an operation
takes the values that its function consumes out of their hands; a value that is only
borrowed stays, but cannot be consumed until every call that borrows it returned.

## Main definitions

* `Op`, `start` — the operations and the frames they start with.
* `machine` — the crate, as a program for threads with call stacks.
* `State`, `Reachable` — its configurations, and those that some run reaches.
-/

namespace Swansong

/-- The operations of the crate, on the values they are applied to. -/
inductive Op where
  /-- `Swansong::new` or `Swansong::with_guard_report`. -/
  | newRoot (shards : ℕ) (report : Bool)
  | clone (n : NodeId)
  | drop (n : NodeId)
  | child (n : NodeId)
  | shutDown (n : NodeId)
  | shuttingDown (n : NodeId)
  /-- `IntoFuture for Swansong`. -/
  | intoFuture (n : NodeId)
  | blockOnShutdownCompletion (n : NodeId)
  /-- `Swansong::guard` and `Swansong::guarded`. -/
  | guard (n : NodeId) (location : Location)
  /-- `Interrupt::guarded`, of an interrupt on the shard. -/
  | guarded (sh : ShardId) (location : Location)
  | cloneGuard (g : Guard)
  | dropGuard (g : Guard)
  /-- Drop a `Guarded`, fields in declaration order. -/
  | dropGuarded (g : Guard)
  /-- Drop an `Interrupt`, fields in declaration order. -/
  | dropInterrupt (i : Interrupt) (g : Option Guard)
  | guardCount (n : NodeId)
  | guardReport (n : NodeId)
  /-- Poll, block on, or drop a `ShutdownCompletion` or `ShuttingDown`. -/
  | poll (o : Observer)
  | block (o : Observer)
  | dropObserver (o : Observer)
  | interrupt (n : NodeId)
  | pollInterrupt (i : Interrupt) (waker : Waker)
  deriving DecidableEq, Repr

variable (index : ℕ) (h : Heap) (fr : List Frame)

/-- Whether a client holds a handle of the node. -/
def HasHandle (n : NodeId) : Prop := 0 < h.handles n

instance (n : NodeId) : Decidable (HasHandle h n) := inferInstanceAs (Decidable (_ < _))

/-- Whether a handle of the node can be consumed: one that no call in flight borrows. -/
def FreeHandle (n : NodeId) : Prop :=
  0 < h.handles n ∧ (1 < h.handles n ∨ .life (.release n) ∉ fr)

instance (n : NodeId) : Decidable (FreeHandle h fr n) := inferInstanceAs (Decidable (_ ∧ _))

/-- Whether the guard can be consumed: no clone of it is in flight. -/
def FreeGuard (g : Guard) : Prop := g ∈ h.guards ∧ .guard (.release g) ∉ fr

instance (g : Guard) : Decidable (FreeGuard h fr g) := inferInstanceAs (Decidable (_ ∧ _))

/-- A handle leaves the client's hands. -/
def takeHandle (n : NodeId) : Heap :=
  { h with handles := Function.update h.handles n (h.handles n - 1) }

/-- A guard leaves the client's hands. -/
def takeGuard (g : Guard) : Heap := { h with guards := h.guards.erase g }

/-- `Inner::new_root`, with its first handle. -/
def newRoot (shards : ℕ) (report : Bool) : Heap :=
  let n := h.size
  { h with
    size := n + 1
    shardCount := Function.update h.shardCount n shards
    guardReport := Function.update h.guardReport n report
    swansongCount := Function.update h.swansongCount n 1
    strong := Function.update h.strong n 1
    handles := Function.update h.handles n 1 }

def start : Op → Option (Heap × List Frame)
  | .newRoot shards report => if 0 < shards then some (newRoot h shards report, []) else none
  | .clone n =>
    if HasHandle h n then some (h, [.life (.cloneHandle n), .life (.release n)]) else none
  | .drop n =>
    if FreeHandle h fr n then some (takeHandle h n, [.life (.dropHandle n)]) else none
  | .child n =>
    if HasHandle h n then some (h, [.child (.new n), .life (.release n)]) else none
  | .shutDown n =>
    if HasHandle h n then
      some ({ h with shutDown := Function.update h.shutDown n true },
        [.stop (.node n), .wait (.create .zero n false), .life (.shutDownReturn n),
          .life (.release n)])
    else none
  | .shuttingDown n =>
    if HasHandle h n then
      some (h, [.wait (.create .stop n false), .life (.release n)])
    else none
  | .intoFuture n =>
    if FreeHandle h fr n then
      some (takeHandle h n, [.wait (.create .zero n false), .life (.dropHandle n)])
    else none
  | .blockOnShutdownCompletion n =>
    -- the handle `self` is dropped when the call returns
    if FreeHandle h fr n then
      some (takeHandle h n, [.wait (.create .zero n true), .life (.dropHandle n)])
    else none
  | .guard n location =>
    if HasHandle h n then some (h, [.guard (.new n location), .life (.release n)]) else none
  | .guarded sh location =>
    if h.HasShard sh then some (h, [.guard (.forShard sh location)]) else none
  | .cloneGuard g =>
    if g ∈ h.guards then some (h, [.guard (.clone g), .guard (.release g)]) else none
  | .dropGuard g => if FreeGuard h fr g then some (takeGuard h g, [.guard (.drop g)]) else none
  | .dropGuarded g =>
    if FreeGuard h fr g then
      some (takeGuard h g, [.guard (.drop g), .guard (.dropValue .guarded g)])
    else none
  | .dropInterrupt i none =>
    if i ∈ h.interrupts then
      some ({ h with interrupts := h.interrupts.erase i }, [.poll (.drop i)])
    else none
  | .dropInterrupt i (some g) =>
    if i ∈ h.interrupts ∧ FreeGuard h fr g then
      some ({ takeGuard h g with interrupts := h.interrupts.erase i },
        [.poll (.drop i), .guard (.dropValue .interrupt g), .guard (.drop g)])
    else none
  | .guardCount n =>
    if HasHandle h n then some (h, [.walk false [.node n] 0 [], .life (.release n)]) else none
  | .guardReport n =>
    if HasHandle h n then
      some (h, [.walk (h.guardReport n) [.node n] 0 [], .life (.release n)])
    else none
  | .poll o =>
    if o ∈ h.observers then
      some ({ h with observers := h.observers.erase o }, [.wait (.stopped o false)])
    else none
  | .block o =>
    if o ∈ h.observers then
      some ({ h with observers := h.observers.erase o }, [.wait (.stopped o true)])
    else none
  | .dropObserver o =>
    if o ∈ h.observers then
      some ({ h with observers := h.observers.erase o }, [.life (.dropArc o.node)])
    else none
  | .interrupt n =>
    if HasHandle h n then
      some ({ h with interrupts := ⟨⟨n, h.shardIndex index n⟩, none, none⟩ :: h.interrupts }, [])
    else none
  | .pollInterrupt i w =>
    if i ∈ h.interrupts then
      some ({ h with interrupts := h.interrupts.erase i }, [.poll (.poll i w)])
    else none

/-- The crate: its atomic steps and its operations. -/
def machine : Interleave.Machine Heap Frame Op where
  init := .empty
  exec := exec
  start := start

/-- The heap and the threads. -/
abbrev State := Interleave.Config Heap Frame

/-- The scheduler's and the clients' moves. -/
abbrev Act := Interleave.Act Op

/-- The states that some interleaving of some operations reaches. -/
abbrev Reachable : State → Prop := machine.Reachable

/-- No thread has anything to run. -/
def initial : State := ⟨machine.init, []⟩

end Swansong
