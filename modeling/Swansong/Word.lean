import Mathlib.Data.Nat.Notation
import Mathlib.Tactic.Common

/-!
# The packed words

A shard and a node each keep their counts and flags in one atomic word, so that a
departure and a stop that race are read-modify-writes of one location.  The words
are given here as records, one field for each group of bits; a count is a natural
number, and the widths of the fields play no part in the protocol.

## Main definitions

* `ShardWord` — the guards homed on a shard, the child nodes that arrived at it,
  whether its node stopped or was collected, and whether it arrived at its node.
* `NodeWord` — the arrived shards of a node, whether it stopped, and for a child
  whether and where it arrived at its parent.
-/

namespace Swansong

/-- What a shard counts: `LOCAL_ONE`, a guard, or `KIDS_ONE`, a child node. -/
inductive CountUnit where
  | localOne
  | kidsOne
  deriving DecidableEq, Repr

/-- A shard's `state`. -/
structure ShardWord where
  locals : ℕ
  kids : ℕ
  stopped : Bool
  arrived : Bool
  deriving DecidableEq, Repr

namespace ShardWord

/-- The word of a new shard. -/
def zero : ShardWord := ⟨0, 0, false, false⟩

/-- `state + unit`. -/
def add (w : ShardWord) : CountUnit → ShardWord
  | .localOne => { w with locals := w.locals + 1 }
  | .kidsOne => { w with kids := w.kids + 1 }

/-- `state - unit`. -/
def sub (w : ShardWord) : CountUnit → ShardWord
  | .localOne => { w with locals := w.locals - 1 }
  | .kidsOne => { w with kids := w.kids - 1 }

/-- `state | ARRIVED | unit`. -/
def arrive (w : ShardWord) : CountUnit → ShardWord
  | .localOne => { w with locals := w.locals ||| 1, arrived := true }
  | .kidsOne => { w with kids := w.kids ||| 1, arrived := true }

/-- `state | STOPPED`. -/
def stop (w : ShardWord) : ShardWord := { w with stopped := true }

/-- `ARRIVED | STOPPED`: a stopped shard that is arrived but counts nothing. -/
def emptied : ShardWord := ⟨0, 0, true, true⟩

/-- `STOPPED` alone: a stopped shard that departed. -/
def flushed : ShardWord := ⟨0, 0, true, false⟩

/-- `previous & !STOPPED == ARRIVED`: arrived but counting nothing. -/
def idle (w : ShardWord) : Bool := w.locals = 0 && w.kids = 0 && w.arrived

@[simp] theorem zero_locals : zero.locals = 0 := rfl
@[simp] theorem zero_kids : zero.kids = 0 := rfl
@[simp] theorem zero_stopped : zero.stopped = false := rfl
@[simp] theorem zero_arrived : zero.arrived = false := rfl
@[simp] theorem emptied_locals : emptied.locals = 0 := rfl
@[simp] theorem emptied_kids : emptied.kids = 0 := rfl
@[simp] theorem emptied_stopped : emptied.stopped = true := rfl
@[simp] theorem emptied_arrived : emptied.arrived = true := rfl
@[simp] theorem flushed_locals : flushed.locals = 0 := rfl
@[simp] theorem flushed_kids : flushed.kids = 0 := rfl
@[simp] theorem flushed_stopped : flushed.stopped = true := rfl
@[simp] theorem flushed_arrived : flushed.arrived = false := rfl

@[simp] theorem add_stopped (w : ShardWord) (u : CountUnit) : (w.add u).stopped = w.stopped := by
  cases u <;> rfl
@[simp] theorem add_arrived (w : ShardWord) (u : CountUnit) : (w.add u).arrived = w.arrived := by
  cases u <;> rfl
@[simp] theorem sub_stopped (w : ShardWord) (u : CountUnit) : (w.sub u).stopped = w.stopped := by
  cases u <;> rfl
@[simp] theorem sub_arrived (w : ShardWord) (u : CountUnit) : (w.sub u).arrived = w.arrived := by
  cases u <;> rfl
@[simp] theorem arrive_stopped (w : ShardWord) (u : CountUnit) :
    (w.arrive u).stopped = w.stopped := by
  cases u <;> rfl
@[simp] theorem arrive_arrived (w : ShardWord) (u : CountUnit) : (w.arrive u).arrived = true := by
  cases u <;> rfl
@[simp] theorem stop_locals (w : ShardWord) : w.stop.locals = w.locals := rfl
@[simp] theorem stop_kids (w : ShardWord) : w.stop.kids = w.kids := rfl
@[simp] theorem stop_stopped (w : ShardWord) : w.stop.stopped = true := rfl
@[simp] theorem stop_arrived (w : ShardWord) : w.stop.arrived = w.arrived := rfl

end ShardWord

/-- A node's `state`. -/
structure NodeWord where
  shards : ℕ
  parentShard : ℕ
  stopped : Bool
  arrived : Bool
  deriving DecidableEq, Repr

namespace NodeWord

/-- The word of a new node. -/
def zero : NodeWord := ⟨0, 0, false, false⟩

/-- `state + 1`. -/
def add (w : NodeWord) : NodeWord := { w with shards := w.shards + 1 }

/-- `state - 1`. -/
def sub (w : NodeWord) : NodeWord := { w with shards := w.shards - 1 }

/-- `state | ARRIVED | index << PARENT_SHARD_SHIFT | 1`. -/
def arriveAt (w : NodeWord) (index : ℕ) : NodeWord :=
  { w with shards := w.shards ||| 1, parentShard := w.parentShard ||| index, arrived := true }

/-- `state & STOPPED`. -/
def depart (w : NodeWord) : NodeWord := ⟨0, 0, w.stopped, false⟩

/-- `state | STOPPED`. -/
def stop (w : NodeWord) : NodeWord := { w with stopped := true }

@[simp] theorem zero_shards : zero.shards = 0 := rfl
@[simp] theorem zero_parentShard : zero.parentShard = 0 := rfl
@[simp] theorem zero_stopped : zero.stopped = false := rfl
@[simp] theorem zero_arrived : zero.arrived = false := rfl
@[simp] theorem add_shards (w : NodeWord) : w.add.shards = w.shards + 1 := rfl
@[simp] theorem add_parentShard (w : NodeWord) : w.add.parentShard = w.parentShard := rfl
@[simp] theorem add_stopped (w : NodeWord) : w.add.stopped = w.stopped := rfl
@[simp] theorem add_arrived (w : NodeWord) : w.add.arrived = w.arrived := rfl
@[simp] theorem sub_shards (w : NodeWord) : w.sub.shards = w.shards - 1 := rfl
@[simp] theorem sub_parentShard (w : NodeWord) : w.sub.parentShard = w.parentShard := rfl
@[simp] theorem sub_stopped (w : NodeWord) : w.sub.stopped = w.stopped := rfl
@[simp] theorem sub_arrived (w : NodeWord) : w.sub.arrived = w.arrived := rfl
@[simp] theorem arriveAt_stopped (w : NodeWord) (i : ℕ) : (w.arriveAt i).stopped = w.stopped := rfl
@[simp] theorem arriveAt_arrived (w : NodeWord) (i : ℕ) : (w.arriveAt i).arrived = true := rfl
@[simp] theorem depart_shards (w : NodeWord) : w.depart.shards = 0 := rfl
@[simp] theorem depart_parentShard (w : NodeWord) : w.depart.parentShard = 0 := rfl
@[simp] theorem depart_stopped (w : NodeWord) : w.depart.stopped = w.stopped := rfl
@[simp] theorem depart_arrived (w : NodeWord) : w.depart.arrived = false := rfl
@[simp] theorem stop_shards (w : NodeWord) : w.stop.shards = w.shards := rfl
@[simp] theorem stop_parentShard (w : NodeWord) : w.stop.parentShard = w.parentShard := rfl
@[simp] theorem stop_stopped (w : NodeWord) : w.stop.stopped = true := rfl
@[simp] theorem stop_arrived (w : NodeWord) : w.stop.arrived = w.arrived := rfl

/-- Stopping a stopped node changes nothing. -/
theorem stop_of_stopped {w : NodeWord} (h : w.stopped = true) : w.stop = w := by
  cases w; simp_all [stop]

end NodeWord
end Swansong
