import Swansong.Registry
import Mathlib.Data.List.Induction
import Mathlib.Logic.Function.Basic
import Mathlib.Tactic.Common

/-!
# The registry over whole runs

Guards are created and die in any order, and reports sweep whenever they like.  The
registry nevertheless yields exactly the records alive, it stays short, and the
sweeps that registrations make are paid for by the registrations: each entry that
a sweep examines beyond those the last sweep left was registered since, and those
are at least half of them.

## Main definitions

* `RegistryOp`, `RegistryRun` — what happens to a registry, and a run's history.
* `RegistryRun.Ok` — the invariant, with the potential of the entries since the last sweep.
* `registry_exact` — what the registry yields, holds and costs.
-/

namespace Swansong

/-- Whether the next registration sweeps. -/
def GuardRegistry.full (r : GuardRegistry) : Bool :=
  max r.sweepThreshold GuardRegistry.minSweepThreshold ≤ r.guards.length

/-- What happens to a registry.  Records are numbered as they are registered. -/
inductive RegistryOp where
  /-- A guard is created, and registers its record. -/
  | register
  /-- A report sweeps. -/
  | sweep
  /-- A guard's record dies. -/
  | die (id : InfoId)

/-- A registry and what happened to it: which records are alive, how many were
registered, how many entries the last sweep left, and how many entries the sweeps
of registrations examined. -/
structure RegistryRun where
  registry : GuardRegistry
  alive : InfoId → Bool
  registered : ℕ
  left : ℕ
  examined : ℕ

namespace RegistryRun

/-- The default registry. -/
def init : RegistryRun := ⟨.empty, fun _ => false, 0, 0, 0⟩

/-- The registry and its history after one more event. -/
def apply (r : RegistryRun) : RegistryOp → RegistryRun
  | .register =>
    let alive := Function.update r.alive r.registered true
    { registry := r.registry.register alive r.registered
      alive := alive
      registered := r.registered + 1
      left := if r.registry.full then (r.registry.sweep alive).guards.length else r.left
      examined := if r.registry.full then r.examined + r.registry.guards.length else r.examined }
  | .sweep =>
    { r with
      registry := r.registry.sweep r.alive
      left := (r.registry.sweep r.alive).guards.length }
  | .die id => { r with alive := Function.update r.alive id false }

/-- The registry after a sequence of events. -/
def run (ops : List RegistryOp) : RegistryRun := ops.foldl apply init

/-- The records that `live` yields. -/
def live (r : RegistryRun) : List InfoId := r.registry.live r.alive

/-- What holds after every event.  In `paid`, an entry since the last sweep has not
spent what its registration paid in. -/
structure Ok (r : RegistryRun) : Prop where
  entry : ∀ id ∈ r.registry.guards, id < r.registered
  exact : r.live = (List.range r.registered).filter r.alive
  threshold : r.registry.sweepThreshold = 2 * r.left
  left : r.left ≤ r.registry.guards.length
  short : r.registry.guards.length ≤ max GuardRegistry.minSweepThreshold (2 * r.left)
  paid : r.examined + 2 * r.registry.guards.length ≤ 2 * r.registered + 2 * r.left

theorem ok_init : init.Ok := by
  constructor <;> simp [init, live, GuardRegistry.live, GuardRegistry.empty]

/-- What lives or dies later says nothing about the entries there are. -/
theorem filter_update {ids : List InfoId} {alive : InfoId → Bool} {id : InfoId} {b : Bool}
    (h : id ∉ ids) : ids.filter (Function.update alive id b) = ids.filter alive := by
  refine List.filter_congr fun j hj => ?_
  have hne : j ≠ id := fun he => h (he ▸ hj)
  rw [Function.update_of_ne hne]

theorem filter_update_false (ids : List InfoId) (alive : InfoId → Bool) (id : InfoId) :
    ids.filter (Function.update alive id false) = (ids.filter alive).filter (· ≠ id) := by
  rw [List.filter_filter]
  refine List.filter_congr fun j _ => ?_
  by_cases hj : j = id
  · simp [hj]
  · simp [hj]

/-- A record that is being registered is not among the entries. -/
theorem live_update {r : RegistryRun} (hr : r.Ok) :
    r.registry.live (Function.update r.alive r.registered true) = r.live :=
  filter_update fun h => Nat.lt_irrefl _ (hr.entry _ h)

theorem ok_register {r : RegistryRun} (hr : r.Ok) : (r.apply .register).Ok := by
  have hlive := live_update hr
  have hpaid := hr.paid
  have hshort := hr.short
  have hthreshold := hr.threshold
  have hleft := hr.left
  refine ⟨?_, ?_, ?_, ?_, ?_, ?_⟩
  · intro id hid
    have hcases : id ∈ r.registry.guards ∨ id = r.registered := by
      rcases GuardRegistry.guards_register (Function.update r.alive r.registered true) r.registry
        r.registered with h | h
      · simpa [apply, h] using hid
      · rw [apply, h, List.mem_append, List.mem_filter, List.mem_singleton] at hid
        exact hid.imp_left And.left
    rcases hcases with h | rfl
    · exact Nat.lt_succ_of_lt (hr.entry _ h)
    · exact Nat.lt_succ_self _
  · have hrange : r.registered ∉ List.range r.registered := by simp
    simp only [apply, live, GuardRegistry.live_register]
    rw [hlive, hr.exact, List.range_succ, List.filter_append, filter_update hrange]
  all_goals
    simp only [apply, GuardRegistry.register, GuardRegistry.full, decide_eq_true_eq]
    split
  -- a registration that sweeps: the entries it examines were paid for since the last sweep
  case refine_3.isTrue => simp [GuardRegistry.sweep, Nat.mul_comm]
  case refine_4.isTrue => simp
  case refine_5.isTrue =>
    simp only [List.length_append, List.length_singleton, GuardRegistry.minSweepThreshold]
    omega
  case refine_6.isTrue h =>
    simp only [List.length_append, List.length_singleton]
    omega
  -- one that does not
  case refine_3.isFalse => exact hthreshold
  case refine_4.isFalse =>
    simp only [List.length_append, List.length_singleton]
    omega
  case refine_5.isFalse h =>
    simp only [List.length_append, List.length_singleton]
    omega
  case refine_6.isFalse =>
    simp only [List.length_append, List.length_singleton]
    omega

theorem ok_sweep {r : RegistryRun} (hr : r.Ok) : (r.apply .sweep).Ok := by
  have hpaid := hr.paid
  have hleft := hr.left
  refine ⟨?_, ?_, ?_, ?_, ?_, ?_⟩
  · intro id hid
    exact hr.entry id (List.mem_of_mem_filter hid)
  · exact (GuardRegistry.live_sweep r.alive r.registry).trans hr.exact
  · simp [apply, GuardRegistry.sweep, Nat.mul_comm]
  · simp [apply]
  · simp only [apply]
    omega
  · simp only [apply]
    omega

theorem ok_die {r : RegistryRun} (hr : r.Ok) (id : InfoId) : (r.apply (.die id)).Ok where
  entry := hr.entry
  exact := by
    have hexact := hr.exact
    simp only [live, GuardRegistry.live] at hexact
    simp only [live, apply, GuardRegistry.live, filter_update_false, hexact]
  threshold := hr.threshold
  left := hr.left
  short := hr.short
  paid := hr.paid

theorem ok_run (ops : List RegistryOp) : (run ops).Ok := by
  induction ops using List.reverseRecOn with
  | nil => exact ok_init
  | append_singleton ops op ih =>
      have hstep : run (ops ++ [op]) = (run ops).apply op := by simp [run, List.foldl_append]
      rw [hstep]
      cases op with
      | register => exact ok_register ih
      | sweep => exact ok_sweep ih
      | die id => exact ok_die ih id

/-- What a sweep leaves: the entries that are alive. -/
structure Swept (r : RegistryRun) : Prop where
  report : (r.apply .sweep).registry.guards = r.live
  /-- A registration that sweeps appends its entry to them. -/
  register : r.registry.full = true → (r.apply .register).registry.guards = r.live ++ [r.registered]
  left : (r.apply .sweep).left = r.live.length ∧
    (r.registry.full = true → (r.apply .register).left = r.live.length)

theorem Ok.swept {r : RegistryRun} (hr : r.Ok) : r.Swept := by
  have hlive := live_update hr
  have hleft : (r.registry.sweep (Function.update r.alive r.registered true)).guards = r.live := hlive
  constructor
  · rfl
  · intro hfull
    have hfull := of_decide_eq_true hfull
    simp only [apply, GuardRegistry.register, if_pos hfull, hleft]
  · refine ⟨rfl, fun hfull => ?_⟩
    simp only [apply, if_pos hfull, hleft]

end RegistryRun

/-- **The registry is exact and cheap.**  After any sequence of registrations, sweeps
and deaths, `live` yields the records that are alive, each once and in the order of
their registration; the entries are at most twice those that the last sweep left,
or 16; the sweeps of registrations examined at most two entries for each registration;
and what a sweep leaves, that of a report or of a registration, is what is alive. -/
theorem registry_exact (ops : List RegistryOp) :
    (RegistryRun.run ops).live =
      (List.range (RegistryRun.run ops).registered).filter (RegistryRun.run ops).alive ∧
    (RegistryRun.run ops).registry.guards.length ≤ max 16 (2 * (RegistryRun.run ops).left) ∧
    (RegistryRun.run ops).examined ≤ 2 * (RegistryRun.run ops).registered ∧
    (RegistryRun.run ops).Swept := by
  have hok := RegistryRun.ok_run ops
  have hpaid := hok.paid
  have hleft := hok.left
  refine ⟨hok.exact, hok.short, ?_, hok.swept⟩
  omega

end Swansong
