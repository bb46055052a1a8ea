import Swansong.Sound

/-!
# Completion is safe

While a guard is counted, no check of completion on its node or on an ancestor
succeeds, at whatever step the other threads are.  A wrapper that drops its guard
after the wrapped value therefore delays completion until that value is gone; one
that drops it before does not.

## Main results

* `completion_safety` — no completion while a guard is outstanding.
* `delaysCompletion_iff` — which of the two wrappers delays completion.
-/

namespace Swansong

open Interleave (Machine)

/-- The guard was returned to a client and its drop has not uncounted it yet. -/
def Outstanding (s : State) (g : Guard) : Prop :=
  g ∈ s.mem.guards ∨ .guard (.drop g) ∈ s.frames

/-- An outstanding guard is counted by its shard. -/
theorem locals_ne_zero {s : State} (hs : Sound s.mem s.frames) {g : Guard}
    (hg : Outstanding s g) : (s.mem.shard g.shard).locals ≠ 0 := by
  rcases hg with hg | hg
  · have hahead := hs.ahead_nonneg (.locals g.shard)
    have hpos : 0 < s.mem.homed g.shard := List.countP_pos_iff.mpr ⟨g, hg, by simp⟩
    simp only [Heap.ahead] at hahead
    omega
  · -- what the other frames owe cannot use up what this drop still has to take
    have hahead := hs.ledger.balanced (.locals g.shard)
    have hdebt := hs.undropped (.locals g.shard)
    obtain ⟨K, hK⟩ := Multiset.exists_cons_of_mem (Multiset.mem_coe.mpr hg)
    have hsum : ∀ K : Multiset Frame, Interleave.total (Frame.weight (.locals g.shard)) K =
        Interleave.total (Frame.debt (.locals g.shard)) K + Interleave.total
          (fun f => Count.bit (∃ g', f = .guard (.drop g') ∧ Account.locals g.shard = .locals g'.shard)) K := by
      intro K
      rw [← Interleave.total_sum]
      exact Interleave.total_congr fun f _ => by rw [Frame.debt]; omega
    have hone := Interleave.le_total
      (w := fun f => Count.bit (∃ g', f = .guard (.drop g') ∧ Account.locals g.shard = .locals g'.shard))
      (fun _ => Count.bit_nonneg _) (Multiset.mem_coe.mpr hg)
    rw [Count.bit_of ⟨g, rfl, rfl⟩] at hone
    rw [hsum] at hahead
    simp only [Heap.ahead] at hahead
    omega

theorem guardOk_of_outstanding {s : State} (hs : Sound s.mem s.frames) {g : Guard}
    (hg : Outstanding s g) : s.mem.GuardOk g := by
  rcases hg with hg | hg
  · exact hs.valid.wf.guards g hg
  · exact hs.valid.frames _ (Multiset.mem_coe.mpr hg)

/-- An outstanding guard makes its node and all ancestors nonempty. -/
theorem occupied_of_outstanding {s : State} (hs : Sound s.mem s.frames) {g : Guard}
    (hg : Outstanding s g) : ∀ a ∈ s.mem.lineage g.shard.node, (s.mem.state a).shards ≠ 0 :=
  hs.occupied_lineage
    (hs.occupied_of_locals (guardOk_of_outstanding hs hg).1 (locals_ne_zero hs hg))

theorem isZero_of_shards {h : Heap} {n : NodeId} (hn : (h.state n).shards ≠ 0) :
    isZero h n = false := by
  simpa [isZero] using hn

theorem not_complete_of_shards {h : Heap} {n : NodeId} (hn : (h.state n).shards ≠ 0) :
    shutdownState h n ≠ .complete := by
  simp only [shutdownState, isZero_of_shards hn, Bool.and_false, Bool.false_eq_true, if_false]
  split <;> simp

/-- **Completion safety.**  In every reachable state, also in the middle of operations,
a guard that was returned and whose drop has not uncounted it has a nonzero count of
arrived shards at its node and every ancestor; there no check that a node is zero
succeeds, be it by `state` or by a completion, before or after registering. -/
theorem completion_safety {s : State} (hr : Reachable s) {g : Guard} (hg : Outstanding s g) :
    ∀ a ∈ s.mem.lineage g.shard.node,
      (s.mem.state a).shards ≠ 0 ∧ isZero s.mem a = false ∧ shutdownState s.mem a ≠ .complete ∧
      ∀ (o : Observer) (blocking : Bool), o.node = a →
        execWait s.mem (.zero o blocking) = (s.mem, waitNext o blocking) ∧
        ∀ l, execWait s.mem (.zeroAgain o l blocking) = (s.mem, [.wait (.park o l blocking)]) := by
  intro a ha
  have hne := occupied_of_outstanding (sound_reach hr) hg a ha
  refine ⟨hne, isZero_of_shards hne, not_complete_of_shards hne, ?_⟩
  rintro o blocking rfl
  simp [execWait, hne]

/-- A guard on a child. -/
def guardedChild : List Act :=
  List.flatten [[.start 0 (.newRoot 2 false), .start 1 (.child 0)], List.replicate 7 (.run 1 false),
    [.start 1 (.guard 1 ⟨"src/tasks.rs", 120, 9⟩)], List.replicate 10 (.run 2 false)]

theorem completion_safety_guardedChild : ∃ s, Reachable s ∧
    Outstanding s ⟨0, ⟨1, 0⟩, true, ⟨"src/tasks.rs", 120, 9⟩, none⟩ ∧
    ∀ a ∈ s.mem.lineage 1, isZero s.mem a = false := by
  obtain ⟨s, hr, hg⟩ := Machine.exists_reachable (M := machine) guardedChild
    (p := fun s => (⟨0, ⟨1, 0⟩, true, ⟨"src/tasks.rs", 120, 9⟩, none⟩ : Guard) ∈ s.mem.guards)
    (by decide)
  have hout : Outstanding s ⟨0, ⟨1, 0⟩, true, ⟨"src/tasks.rs", 120, 9⟩, none⟩ :=
    .inl (of_decide_eq_true hg)
  exact ⟨s, hr, hout, fun a ha => (completion_safety hr hout a ha).2.1⟩

/-! ## Wrappers -/

/-- No completion of the wrapper's node or an ancestor can be observed while the
destructor of the wrapped value has still to run. -/
def DelaysCompletion (w : Wrapper) : Prop :=
  ∀ s, Reachable s → ∀ g, .guard (.dropValue w g) ∈ s.frames →
    ∀ a ∈ s.mem.lineage g.shard.node, isZero s.mem a = false ∧ shutdownState s.mem a ≠ .complete

/-- While an interrupt drops the value it wraps, its guard is outstanding. -/
theorem outstanding_of_dropValue {s : State} (hr : Reachable s) {g : Guard}
    (hg : .guard (.dropValue .interrupt g) ∈ s.frames) : Outstanding s g := by
  obtain ⟨k, hk, hks⟩ := discipline.ok_of_mem hr hg
  exact .inr (hks _ hk)

/-- The guard of a `Guarded` on a root, created by `src/main.rs:1:1`. -/
def mainGuard : Guard := ⟨0, ⟨0, 0⟩, false, ⟨"src/main.rs", 1, 1⟩, none⟩

/-- A root is shut down, then the only `Guarded` on it is dropped.  Its guard goes
first; then the root's completion is polled, before the wrapped value is dropped. -/
def dropGuardedStopped : List Act :=
  List.flatten [[.start 0 (.newRoot 1 false), .start 0 (.guard 0 mainGuard.location)],
    List.replicate 6 (.run 1 false), [.start 0 (.shutDown 0)], List.replicate 8 (.run 2 false),
    [.start 0 (.dropGuarded mainGuard)], List.replicate 4 (.run 3 false),
    [.start 0 (.poll ⟨.zero, 0, none, false, false⟩), .run 4 false, .run 4 false]]

/-- `Guarded` drops its guard before the wrapped value: a completion can resolve, for the
first time, while the value's destructor has still to run. -/
theorem dropGuardedStopped_reaches : ∃ s, Reachable s ∧
    .guard (.dropValue .guarded mainGuard) ∈ s.frames ∧ s.mem.guards = [] ∧
    shutdownState s.mem 0 = .complete ∧ s.mem.observers = [⟨.zero, 0, none, false, true⟩] := by
  obtain ⟨s, hr, hs⟩ := Machine.exists_reachable (M := machine) dropGuardedStopped
    (p := fun s => .guard (.dropValue .guarded mainGuard) ∈ s.frames ∧ s.mem.guards = [] ∧
      shutdownState s.mem 0 = .complete ∧ s.mem.observers = [⟨.zero, 0, none, false, true⟩])
    (by decide)
  exact ⟨s, hr, of_decide_eq_true hs⟩

/-- A wrapper that delays completion is not a `Guarded`. -/
theorem ne_guarded_of_delaysCompletion {w : Wrapper} (hw : DelaysCompletion w) : w ≠ .guarded := by
  rintro rfl
  obtain ⟨s, hr, hg, -, hcomplete, -⟩ := dropGuardedStopped_reaches
  have hself := (sound_reach hr).valid.wf.self_mem_lineage mainGuard.shard.node
  exact (hw s hr mainGuard hg _ hself).2 hcomplete

/-- Not every wrapper delays completion until the value it wraps is gone. -/
theorem not_delaysCompletion_guarded : ¬DelaysCompletion .guarded := by
  intro hw
  exact ne_guarded_of_delaysCompletion hw rfl

/-- A wrapper delays completion exactly if it is an `Interrupt`, whose guard is its last
field, and not a `Guarded`, whose guard is its first. -/
theorem delaysCompletion_iff (w : Wrapper) : DelaysCompletion w ↔ w = .interrupt := by
  constructor
  · intro hw
    cases w with
    | interrupt => rfl
    | guarded => exact absurd rfl (ne_guarded_of_delaysCompletion hw)
  · rintro rfl s hr g hg a ha
    have hne := occupied_of_outstanding (sound_reach hr) (outstanding_of_dropValue hr hg) a ha
    exact ⟨isZero_of_shards hne, not_complete_of_shards hne⟩

end Swansong
