import Swansong.Walks
import Swansong.Wakes

/-!
# Retention

A node is alive exactly while something below it is held: by a handle, an observer, a
guard that pins it, or a call in flight.  References between nodes form no cycle, so
nothing is left of a tree of which clients hold nothing.

## Main definitions

* `Holds` — what keeps a node alive by itself.
* `retention_exact` — the result.
-/

namespace Swansong

open Interleave (Machine total total_eq_zero)

variable {s : State} {n m : NodeId}

/-- A handle, an observer, a guard that pins the node, or a call in flight holds it. -/
def Holds (s : State) (n : NodeId) : Prop :=
  0 < s.mem.handles n ∨ (∃ o ∈ s.mem.observers, o.node = n) ∨
  (∃ g ∈ s.mem.guards, g.pin = true ∧ g.shard.node = n) ∨ ∃ f ∈ s.frames, 0 < f.refs n

theorem live_of_holds (hr : Reachable s) (hn : Holds s n) : s.mem.Live n := by
  have href := references_reach hr
  rcases hn with hn | ⟨o, ho, rfl⟩ | ⟨g, hg, hpin, rfl⟩ | ⟨f, hf, hn⟩
  · exact href.live_of_handle hn
  · exact href.live_of_observer ho
  · exact href.live_of_guard hg hpin
  · exact href.live_of_refs (Multiset.mem_coe.mpr hf) hn

/-- A live node is held, or a live child of it is left. -/
theorem holds_or_kid (hr : Reachable s) (hn : s.mem.Live n) :
    Holds s n ∨ ∃ c q, s.mem.parent c = some q ∧ q.node = n ∧ s.mem.Live c := by
  by_contra hnone
  obtain ⟨hno, hkid⟩ := not_or.mp hnone
  obtain ⟨hhandle, hobserver, hguard, hframe⟩ : ¬0 < s.mem.handles n ∧
      (¬∃ o ∈ s.mem.observers, o.node = n) ∧
      (¬∃ g ∈ s.mem.guards, g.pin = true ∧ g.shard.node = n) ∧ ¬∃ f ∈ s.frames, 0 < f.refs n := by
    simpa only [Holds, not_or] using hno
  have hobserved : s.mem.observed n = 0 := by
    refine List.countP_eq_zero.mpr fun o ho hon => hobserver ⟨o, ho, ?_⟩
    exact of_decide_eq_true hon
  have hpinned : s.mem.pinned n = 0 := by
    refine List.countP_eq_zero.mpr fun g hg hgn => hguard ⟨g, hg, ?_⟩
    simpa using hgn
  have hkids : s.mem.liveKids n = 0 := by
    refine List.countP_eq_zero.mpr fun c _ hc => hkid ?_
    obtain ⟨hlive, hup⟩ := of_decide_eq_true hc
    obtain ⟨q, hq, hnode⟩ := Option.map_eq_some_iff.mp hup
    exact ⟨c, q, hq, hnode, hlive⟩
  have hframes : total (Frame.refs n) s.frames = 0 := by
    refine total_eq_zero fun f hf => ?_
    have hnonneg := f.refs_nonneg (n := n)
    have hnot : ¬0 < f.refs n := fun hpos => hframe ⟨f, Multiset.mem_coe.mp hf, hpos⟩
    omega
  have href := references_reach hr n
  have hpos : 0 < s.mem.strong n := hn
  simp only [Heap.loose] at href
  omega

/-- Below a live node something is held.  The induction is from the leaves up. -/
theorem exists_holder (hr : Reachable s) : ∀ {k n : ℕ}, s.mem.size ≤ n + k → s.mem.Live n →
    ∃ m, n ∈ s.mem.lineage m ∧ Holds s m := by
  have hw := (sound_reach hr).valid.wf
  intro k
  induction k with
  | zero =>
      intro n hk hn
      exact absurd (hw.lt_of_live hn) (not_lt.mpr hk)
  | succ k ih =>
      intro n hk hn
      rcases holds_or_kid hr hn with hholds | ⟨c, q, hq, rfl, hc⟩
      · exact ⟨n, hw.self_mem_lineage n, hholds⟩
      · have hlt : q.node < c := (hw.parent hq).2.1
        obtain ⟨m, hm, hholds⟩ := ih (n := c) (by lia) hc
        have hup : q.node ∈ s.mem.lineage c := hw.mem_lineage_of_parent hq (hw.self_mem_lineage _)
        exact ⟨m, hw.mem_lineage_trans hup hm, hholds⟩

/-- Clients hold nothing, and no call is in flight. -/
structure Abandoned (s : State) : Prop where
  frames : s.frames = []
  handles : ∀ n, s.mem.handles n = 0
  observers : s.mem.observers = []
  guards : s.mem.guards = []
  interrupts : s.mem.interrupts = []

/-- **Retention is exact.**  In every reachable state a node is alive exactly if something
in its subtree is held, and a record exactly if a guard has it or a call holds it.  If
clients hold nothing, nothing is left: no node, no record, and no entry in any registry. -/
theorem retention_exact (hr : Reachable s) :
    (∀ n, s.mem.Live n ↔ ∃ m, n ∈ s.mem.lineage m ∧ Holds s m) ∧
    (∀ id, s.mem.infoAlive id = true ↔
      (∃ r ∈ s.mem.records s.frames, r.info = some id) ∨ ∃ f ∈ s.frames, id ∈ f.heldInfos) ∧
    (Abandoned s → (∀ n, s.mem.strong n = 0) ∧ (∀ id, s.mem.infoStrong id = 0) ∧
      ∀ sh, (s.mem.children sh).values = [] ∧ (s.mem.waiters sh).values = [] ∧
        (s.mem.registry sh).live s.mem.infoAlive = []) := by
  have hlive : ∀ n, s.mem.Live n ↔ ∃ m, n ∈ s.mem.lineage m ∧ Holds s m := by
    intro n
    constructor
    · exact exists_holder hr (Nat.le_add_left _ _)
    · rintro ⟨m, hm, hholds⟩
      exact (sound_reach hr).live_lineage (live_of_holds hr hholds) n hm
  have hinfo : ∀ id, s.mem.infoAlive id = true ↔
      (∃ r ∈ s.mem.records s.frames, r.info = some id) ∨ ∃ f ∈ s.frames, id ∈ f.heldInfos := by
    intro id
    have hstrong := (recorded_reach hr).strong id
    have hrecords := Multiset.count_pos (a := id) (s := (s.mem.records s.frames).filterMap Record.info)
    have hheld := Multiset.count_pos (a := id) (s := heldInfos s.frames)
    rw [Multiset.mem_filterMap] at hrecords
    simp only [heldInfos, Multiset.mem_bind, Multiset.mem_coe] at hheld
    rw [← hrecords, ← hheld]
    simp only [Heap.infoAlive, decide_eq_true_eq, heldInfos] at hstrong ⊢
    omega
  refine ⟨hlive, hinfo, fun habandoned => ?_⟩
  have hdead : ∀ n, s.mem.strong n = 0 := by
    intro n
    by_contra hpos
    obtain ⟨m, -, hholds⟩ := (hlive n).mp (Nat.pos_of_ne_zero hpos)
    simp [Holds, habandoned.frames, habandoned.handles, habandoned.observers, habandoned.guards] at hholds
  have hnone : ∀ id, s.mem.infoStrong id = 0 := by
    intro id
    by_contra hpos
    have halive : s.mem.infoAlive id = true := by
      simp only [Heap.infoAlive, decide_eq_true_eq]
      omega
    have := (hinfo id).mp halive
    simp [Heap.records, habandoned.frames, habandoned.guards] at this
  have hq : Quiescent s := by simp [Quiescent, habandoned.frames]
  refine ⟨hdead, hnone, fun sh => ⟨?_, ?_, ?_⟩⟩
  · refine List.eq_nil_iff_forall_not_mem.mpr fun c hc => ?_
    obtain ⟨k, hget⟩ := Slab.mem_values.mp hc
    have hpos : 0 < s.mem.strong c := hq.allEnrolled.live_of_get hr hget
    rw [hdead c] at hpos
    exact lt_irrefl 0 hpos
  · have hw := waiting_reach hr
    cases hd : s.mem.drained sh with
    | true => rw [(hw.drained hd).1, Slab.values_empty]
    | false =>
        have hreg : s.mem.registered s.frames sh = 0 := by
          simp [Heap.registered, Heap.stopListeners, habandoned.interrupts, habandoned.frames]
        rw [hw.registered hd, Multiset.coe_eq_zero] at hreg
        rw [← Slab.map_waker_registrations, hreg, List.map_nil]
  · refine List.filter_eq_nil_iff.mpr fun id _ => ?_
    simp [Heap.infoAlive, hnone id]

/-- A tree with a guard and an interrupt comes and goes. -/
def abandonedTree : List Act :=
  List.flatten [guardedTree,
    [.start 1 (.interrupt 1), .start 1 (.pollInterrupt ⟨⟨1, 0⟩, none, none⟩ ⟨3, 0⟩)],
    List.replicate 3 (.run 4 false),
    [.start 1 (.dropInterrupt ⟨⟨1, 0⟩, some ⟨0, ⟨3, 0⟩⟩, some ⟨3, 0⟩⟩ none), .run 5 false],
    [.start 1 (.dropGuard ⟨0, ⟨1, 0⟩, true, ⟨"src/tasks.rs", 120, 9⟩, some 0⟩)],
    List.replicate 3 (.run 6 false), [.start 0 (.drop 1)], List.replicate 10 (.run 7 false),
    [.start 0 (.drop 0)], List.replicate 18 (.run 8 false)]

theorem retention_exact_abandonedTree : ∃ s, Reachable s ∧ s.mem.size = 2 ∧ s.mem.nextInfo = 1 ∧
    (∀ n, s.mem.strong n = 0) ∧ ∀ id, s.mem.infoStrong id = 0 := by
  obtain ⟨s, hr, hs⟩ := Machine.exists_reachable (M := machine) abandonedTree
    (p := fun s => s.frames = [] ∧ s.mem.size = 2 ∧ s.mem.nextInfo = 1 ∧
      (∀ n < s.mem.size, s.mem.handles n = 0) ∧ s.mem.observers = [] ∧ s.mem.guards = [] ∧
      s.mem.interrupts = []) (by decide)
  obtain ⟨hfr, hsize, hnext, hhandles, hobservers, hguards, hinterrupts⟩ := of_decide_eq_true hs
  have hnone : ∀ n, s.mem.handles n = 0 := by
    intro n
    by_cases hn : n < s.mem.size
    · exact hhandles n hn
    · exact ((sound_reach hr).valid.wf.freshNode (not_lt.mp hn)).2.2.2.2.1
  obtain ⟨hdead, hinfos, -⟩ :=
    (retention_exact hr).2.2 ⟨hfr, hnone, hobservers, hguards, hinterrupts⟩
  exact ⟨s, hr, hsize, hnext, hdead, hinfos⟩

end Swansong
