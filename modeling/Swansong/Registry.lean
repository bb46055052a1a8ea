import Mathlib.Data.Nat.Notation
import Mathlib.Data.List.Basic

/-!
# The registry of guard provenance

A shard's `GuardRegistry` holds a weak pointer to the provenance record of every
guard created on the shard.  A record dies with its guard; a dead entry stays until
the next sweep, which a registration makes when the entries reach a threshold and
which every report makes.

An entry is an `InfoId`; whether it upgrades is the predicate `alive`, a reading of
the strong counts at the moment of the call.
-/

namespace Swansong

/-- A pointer to a `GuardInfo`. -/
abbrev InfoId := ℕ

structure GuardRegistry where
  guards : List InfoId
  sweepThreshold : ℕ
  deriving DecidableEq, Repr

namespace GuardRegistry

/-- The default registry. -/
def empty : GuardRegistry := ⟨[], 0⟩

def minSweepThreshold : ℕ := 16

/-- Drop the dead entries and set the threshold to twice what is left. -/
def sweep (alive : InfoId → Bool) (r : GuardRegistry) : GuardRegistry :=
  let guards := r.guards.filter alive
  ⟨guards, guards.length * 2⟩

/-- Append an entry, sweeping first if the threshold is reached. -/
def register (alive : InfoId → Bool) (r : GuardRegistry) (guard : InfoId) : GuardRegistry :=
  let r := if max r.sweepThreshold minSweepThreshold ≤ r.guards.length then r.sweep alive else r
  { r with guards := r.guards ++ [guard] }

/-- The entries that upgrade. -/
def live (alive : InfoId → Bool) (r : GuardRegistry) : List InfoId := r.guards.filter alive

@[simp] theorem guards_empty : empty.guards = [] := rfl

@[simp] theorem guards_sweep (alive : InfoId → Bool) (r : GuardRegistry) :
    (r.sweep alive).guards = r.guards.filter alive := rfl

/-- A registration appends to the entries, which it may have swept. -/
theorem guards_register (alive : InfoId → Bool) (r : GuardRegistry) (guard : InfoId) :
    (r.register alive guard).guards = r.guards ++ [guard] ∨
      (r.register alive guard).guards = r.guards.filter alive ++ [guard] := by
  unfold register
  split
  · exact .inr rfl
  · exact .inl rfl

/-- Sweeping loses no live entry. -/
theorem live_sweep (alive : InfoId → Bool) (r : GuardRegistry) :
    (r.sweep alive).live alive = r.live alive := by
  simp [live, List.filter_filter]

/-- A registration adds one entry to the live ones. -/
theorem live_register (alive : InfoId → Bool) (r : GuardRegistry) (guard : InfoId) :
    (r.register alive guard).live alive = r.live alive ++ [guard].filter alive := by
  rcases guards_register alive r guard with h | h
  · simp [live, h]
  · simp [live, h, List.filter_filter]

end GuardRegistry
end Swansong
