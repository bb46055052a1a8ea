import Swansong.Registration

/-!
# Stop propagation

A stop reaches every live descendant: a child that registers too late for its
parent's snapshot finds the parent stopped.  And it reaches nothing else.

## Main definitions

* `Frame.reaches` — the frame is on its way to stop a child.
* `Propagated`, `propagated_reach` — the invariant.

## Main results

* `stop_propagation` — which nodes are stopped, and that all of them are.
-/

namespace Swansong

open Interleave (Machine)

variable {index : ℕ} {choice : Bool} {h h' : Heap} {fr K : Multiset Frame} {n m c p : NodeId}
  {sh : ShardId}

/-- The node was told to stop: by `shut_down`, or as a root without a handle. -/
def Heap.Told (h : Heap) (n : NodeId) : Prop := h.shutDown n = true ∨ h.abandoned n = true

theorem told_of_extends (he : h.Extends h') (hn : h.Told n) : h'.Told n :=
  hn.imp (he.shutDown n) (he.abandoned n)

/-- The frame is on its way to stop the child: it stops the child, has the child's shard
of the parent still to visit or the child in its snapshot, or is the child's own
registration, which checks the parent at its end. -/
def Frame.reaches (c : NodeId) (q : Parent) : Frame → Prop
  | .stop (.node m) => m = c
  | .stop (.liveChildren m i acc) => m = q.node ∧ (i ≤ q.shard ∨ c ∈ acc)
  | .child (.register m) | .child (.storeKey m _) | .child (.check m) => m = c
  | _ => False

/-- How stops spread. -/
structure Propagated (h : Heap) (fr : Multiset Frame) : Prop where
  told : ∀ {n}, h.Told n → (h.state n).stopped = true ∨ .stop (.node n) ∈ fr
  cause : ∀ {n}, (h.state n).stopped = true ∨ .stop (.node n) ∈ fr → ∃ a ∈ h.lineage n, h.Told a
  root : ∀ {n}, h.abandoned n = true → h.isRoot n = true
  reached : ∀ {c q}, h.parent c = some q → (h.state q.node).stopped = true → 0 < h.strong c →
    (h.state c).stopped = true ∨ ∃ f ∈ fr, f.reaches c q

/-! ## Who tells a node to stop -/

variable (index choice h n) in
/-- What a step adds to the history: a root's last handle is dropped. -/
theorem history_exec (f : Frame) : (exec index choice h f).1.shutDown = h.shutDown ∧
    ((exec index choice h f).1.abandoned n = true → h.abandoned n = true ∨
      f = .life (.dropHandle n) ∧ h.isRoot n = true ∧
        .stop (.node n) ∈ (exec index choice h f).2) := by
  cases f with
  | arrive f =>
      obtain ⟨_, _, he⟩ := execArrive_heap index choice h f
      rw [exec, he]
      exact ⟨rfl, .inl⟩
  | depart f => obtain ⟨_, _, he⟩ := execDepart_heap h f; rw [exec, he]; exact ⟨rfl, .inl⟩
  | stop f =>
      obtain ⟨_, _, _, _, _, _, he⟩ := execStop_heap h f
      rw [exec, he]
      exact ⟨rfl, .inl⟩
  | notify event m => exact ⟨rfl, .inl⟩
  | life f =>
      cases f with
      | dropHandle m =>
          refine ⟨rfl, fun hn => ?_⟩
          by_cases hlast : h.swansongCount m = 1 ∧ h.isRoot m = true
          · rcases eq_or_ne n m with rfl | hne
            · exact .inr ⟨rfl, hlast.2, by simp [exec, execLife, hlast]⟩
            · exact .inl (by simpa [exec, execLife, hlast, hne] using hn)
          · exact .inl (by simpa [exec, execLife, hlast] using hn)
      | deregister m => simp only [exec, execLife]; split <;> exact ⟨rfl, .inl⟩
      | _ => exact ⟨rfl, .inl⟩
  | child f =>
      obtain ⟨_, _, _, _, _, _, _, _, _, he⟩ := execChild_heap index h f
      rw [exec, he]
      exact ⟨rfl, .inl⟩
  | guard f =>
      obtain ⟨_, _, _, _, _, _, _, _, he⟩ :=
        execGuard_heap index choice h f
      rw [exec, he]
      exact ⟨rfl, .inl⟩
  | wait f => obtain ⟨_, _, _, _, he⟩ := execWait_heap h f; rw [exec, he]; exact ⟨rfl, .inl⟩
  | poll f =>
      obtain ⟨_, _, he⟩ := execPoll_heap choice h f
      rw [exec, he]
      exact ⟨rfl, .inl⟩
  | walk report todo total out =>
      obtain ⟨_, _, _, he⟩ := execWalk_heap h report total out todo
      rw [exec, he]
      exact ⟨rfl, .inl⟩

/-- Who pushes the stop of a node: a root's last handle, the stop of the parent, or the
node's own construction under a stopped parent. -/
theorem mem_exec_stopNode {f : Frame} (hv : f.Valid h)
    (hf : .stop (.node n) ∈ (exec index choice h f).2) :
    (f = .life (.dropHandle n) ∧ (exec index choice h f).1.Told n) ∨
      ∃ q, h.parent n = some q ∧ (h.state q.node).stopped = true := by
  cases f with
  | arrive f => rcases mem_execArrive hf with ⟨_, hf⟩ | ⟨_, hf⟩ | ⟨_, hf⟩ <;> cases hf
  | depart f => rcases mem_execDepart hf with ⟨_, hf⟩ | ⟨_, hf⟩ <;> cases hf
  | stop f =>
      cases f with
      | liveChildren m i acc =>
          simp only [exec, execStop] at hf
          split at hf
          · simp at hf
          · simp only [List.mem_flatMap, List.mem_cons, Frame.stop.injEq, StopFrame.node.injEq,
              reduceCtorEq, List.not_mem_nil, or_false] at hf
            obtain ⟨c, hc, rfl⟩ := hf
            obtain ⟨-, j, hp⟩ := hv.2.2 n hc
            exact .inr ⟨⟨m, j⟩, hp, hv.2.1⟩
      | _ =>
          simp only [exec, execStop] at hf
          (repeat' split at hf) <;> simp [mem_stopShards] at hf
  | notify event m => simp [exec, execNotify] at hf
  | life f =>
      cases f with
      | dropHandle m =>
          by_cases hlast : h.swansongCount m = 1 ∧ h.isRoot m = true
          · obtain rfl : n = m := by simpa [exec, execLife, hlast] using hf
            exact .inl ⟨rfl, .inr (by simp [exec, execLife, hlast])⟩
          · simp [exec, execLife, hlast] at hf
      | _ =>
          rcases mem_execLife hf with ⟨_, hf⟩ | ⟨_, hf, -⟩ | ⟨_, hf⟩ | ⟨_, -, hf⟩ | ⟨_, -, hf⟩ <;> cases hf
  | child f =>
      cases f with
      | check m =>
          obtain ⟨p, -, i, hp⟩ := hv
          simp only [exec, execChild, hp] at hf
          split at hf
          · rename_i hst
            obtain rfl : n = m := by simpa using hf
            exact .inr ⟨_, hp, hst⟩
          · simp at hf
      | _ =>
          simp only [exec, execChild] at hf
          (repeat' split at hf) <;> simp at hf
  | guard f => rcases mem_execGuard hf with ⟨_, hf, -⟩ | ⟨_, hf⟩ | ⟨_, hf⟩ | ⟨_, hf⟩ <;> cases hf
  | wait f => rcases mem_execWait hf with ⟨_, hf⟩ | ⟨_, hf⟩ <;> cases hf
  | poll f => obtain ⟨_, hf⟩ := mem_execPoll hf; cases hf
  | walk report todo total out =>
      rcases mem_execWalk hf with ⟨_, _, _, hf⟩ | ⟨_, hf⟩ | ⟨_, -, hf⟩ <;> cases hf

/-! ## The invariant -/

theorem told_step {f : Frame} (hp : Propagated h (f ::ₘ K)) (hn : (exec index choice h f).1.Told n) :
    ((exec index choice h f).1.state n).stopped = true ∨
      .stop (.node n) ∈ (↑(exec index choice h f).2 + K : Multiset Frame) := by
  obtain ⟨hshut, habandoned⟩ := history_exec index choice h n f
  have htold : h.Told n ∨ .stop (.node n) ∈ (exec index choice h f).2 := by
    rcases hn with hn | hn
    · exact .inl (.inl (hshut ▸ hn))
    · rcases habandoned hn with hn | ⟨-, -, hmem⟩
      · exact .inl (.inr hn)
      · exact .inr hmem
  rcases htold with hpre | hmem
  · rcases hp.told hpre with hst | hmem
    · exact .inl (extends_exec.stopped n hst)
    · rcases Multiset.mem_cons.mp hmem with rfl | hmem
      · exact .inl (by simp [exec, execStop])
      · exact .inr (Multiset.mem_add.mpr (.inr hmem))
  · exact .inr (Multiset.mem_add.mpr (.inl hmem))

/-- A cause of a node's stop is a cause of its child's. -/
theorem cause_of_parent (hw : h.Wf) {q : Parent} (hq : h.parent c = some q)
    (hc : ∃ a ∈ h.lineage q.node, h.Told a) : ∃ a ∈ h.lineage c, h.Told a := by
  obtain ⟨a, ha, hta⟩ := hc
  exact ⟨a, hw.mem_lineage_of_parent hq ha, hta⟩

theorem cause_of_extends (hw : h.Wf) (hw' : h'.Wf) (he : h.Extends h') (hn : n < h.size)
    (hc : ∃ a ∈ h.lineage n, h.Told a) : ∃ a ∈ h'.lineage n, h'.Told a := by
  obtain ⟨a, ha, hta⟩ := hc
  exact ⟨a, (lineage_congr hw hw' he hn).symm ▸ ha, told_of_extends he hta⟩

/-- A node with a stop bit is allocated. -/
theorem Heap.Wf.lt_of_stopped (hw : h.Wf) (hst : (h.state n).stopped = true) : n < h.size := by
  by_contra hn
  rw [(hw.freshNode (not_lt.mp hn)).1] at hst
  cases hst

theorem cause_step {f : Frame} (hs : Sound h (f ::ₘ K))
    (hs' : Sound (exec index choice h f).1 (↑(exec index choice h f).2 + K))
    (hp : Propagated h (f ::ₘ K))
    (hn : ((exec index choice h f).1.state n).stopped = true ∨
      .stop (.node n) ∈ (↑(exec index choice h f).2 + K : Multiset Frame)) :
    ∃ a ∈ (exec index choice h f).1.lineage n, (exec index choice h f).1.Told a := by
  have hw := hs.valid.wf
  have hw' := hs'.valid.wf
  have hkeep : n < h.size → (∃ a ∈ h.lineage n, h.Told a) →
      ∃ a ∈ (exec index choice h f).1.lineage n, (exec index choice h f).1.Told a :=
    fun hn hc => cause_of_extends hw hw' extends_exec hn hc
  rcases hn with hst | hmem
  · by_cases hf : f = .stop (.node n)
    · subst hf
      exact hkeep (hs.valid.frames _ (Multiset.mem_cons_self _ K)) (hp.cause (.inr (Multiset.mem_cons_self _ K)))
    · rw [stopped_exec hf] at hst
      exact hkeep (hw.lt_of_stopped hst) (hp.cause (.inl hst))
  · rcases Multiset.mem_add.mp hmem with hmem | hmem
    · rcases mem_exec_stopNode (hs.valid.frames _ (Multiset.mem_cons_self _ K)) hmem with
        ⟨rfl, htold⟩ | ⟨q, hq, hst⟩
      · exact ⟨n, hw'.self_mem_lineage n, htold⟩
      · exact hkeep (hw.parent hq).1 (cause_of_parent hw hq (hp.cause (.inl hst)))
    · exact hkeep (hs.valid.frames _ (Multiset.mem_cons_of_mem hmem))
        (hp.cause (.inr (Multiset.mem_cons_of_mem hmem)))

/-- The step of a frame that reaches a live child stops the child, or leaves a frame that
reaches it. -/
theorem reached_of_exec {f : Frame} (hs : Sound h (f ::ₘ K)) (hent : Entered h (f ::ₘ K))
    {q : Parent} (hq : h.parent c = some q) (hst : (h.state q.node).stopped = true)
    (hlive : 0 < h.strong c) (hf : f.reaches c q) :
    ((exec index choice h f).1.state c).stopped = true ∨
      ∃ g ∈ (↑(exec index choice h f).2 + K : Multiset Frame), g.reaches c q := by
  have hpush : ∀ {g}, g ∈ (exec index choice h f).2 → g.reaches c q →
      ((exec index choice h f).1.state c).stopped = true ∨
        ∃ g ∈ (↑(exec index choice h f).2 + K : Multiset Frame), g.reaches c q :=
    fun hg hr => .inr ⟨_, Multiset.mem_add.mpr (.inl hg), hr⟩
  cases f with
  | stop f =>
      cases f with
      | node m =>
          obtain rfl := hf
          exact .inl (by simp [exec, execStop])
      | liveChildren m i acc =>
          obtain ⟨rfl, hf⟩ := hf
          by_cases hi : i < h.shardCount q.node
          · have hmem : ∀ cs, .stop (.liveChildren q.node (i + 1) (acc ++ cs)) ∈
                (exec index choice h (.stop (.liveChildren q.node i acc))).2 →
                i + 1 ≤ q.shard ∨ c ∈ acc ++ cs →
                ((exec index choice h (.stop (.liveChildren q.node i acc))).1.state c).stopped = true ∨
                  ∃ g ∈ (↑(exec index choice h (.stop (.liveChildren q.node i acc))).2 + K :
                    Multiset Frame), g.reaches c q :=
              fun cs hg hr => hpush hg ⟨rfl, hr⟩
            have hgo := hmem (shardChildren h ⟨q.node, i⟩) (by simp [exec, execStop, hi])
            rcases hf with hle | hacc
            · rcases Nat.lt_or_eq_of_le hle with hlt | rfl
              · exact hgo (.inl hlt)
              · -- this is the child's shard: the child is there, or has still to check its parent
                rcases registered_of_live hent hq hlive with hreg | hreg
                · exact hgo (.inr (List.mem_append_right _ (List.mem_filter.mpr
                    ⟨hreg, by simpa using hlive⟩)))
                · have hreg := (Multiset.mem_cons.mp hreg).resolve_left (by simp)
                  exact .inr ⟨_, Multiset.mem_add.mpr (.inr hreg), rfl⟩
            · exact hgo (.inr (List.mem_append_left _ hacc))
          · have hshard := (hs.valid.wf.parent hq).2.2.1.2
            have hacc : c ∈ acc := hf.resolve_left fun hle => hi (hle.trans_lt hshard)
            refine hpush (g := .stop (.node c)) ?_ rfl
            simp only [exec, execStop, if_neg hi, List.mem_flatMap]
            exact ⟨c, hacc, by simp⟩
      | _ => exact hf.elim
  | child f =>
      cases f with
      | register m =>
          obtain rfl := hf
          exact hpush (g := .child (.storeKey m ((h.children ⟨q.node, q.shard⟩).insert m).2))
            (by simp [exec, execChild, hq]) rfl
      | storeKey m k =>
          obtain rfl := hf
          exact hpush (g := .child (.check m)) (by simp [exec, execChild]) rfl
      | check m =>
          obtain rfl := hf
          exact hpush (g := .stop (.node m)) (by simp [exec, execChild, hq, hst]) rfl
      | _ => exact hf.elim
  | _ => exact hf.elim

/-- A step that gives a node a parent allocates it, and is followed by its registration. -/
theorem parent_exec_cases {f : Frame} {q : Parent} (hq : (exec index choice h f).1.parent c = some q) :
    h.parent c = some q ∨ .child (.register c) ∈ (exec index choice h f).2 := by
  by_cases hchild : ∃ f', f = .child f'
  · obtain ⟨f, rfl⟩ := hchild
    cases f with
    | alloc p s =>
        rcases eq_or_ne c h.size with rfl | hne
        · exact .inr (by simp [exec, execChild])
        · exact .inl (by simpa [exec, execChild, hne] using hq)
    | register m => simp only [exec, execChild] at hq; split at hq <;> exact .inl hq
    | check m => simp only [exec, execChild] at hq; split at hq <;> exact .inl hq
    | _ => exact .inl hq
  · rw [not_exists] at hchild
    rw [(tree_exec _ _ _ hchild).2.1] at hq
    exact .inl hq

theorem reached_step {f : Frame} (hs : Sound h (f ::ₘ K)) (he : discipline.Enabled f K)
    (hent : Entered h (f ::ₘ K)) (hp : Propagated h (f ::ₘ K)) {q : Parent}
    (hq' : (exec index choice h f).1.parent c = some q)
    (hst : ((exec index choice h f).1.state q.node).stopped = true)
    (hlive' : 0 < (exec index choice h f).1.strong c) :
    ((exec index choice h f).1.state c).stopped = true ∨
      ∃ g ∈ (↑(exec index choice h f).2 + K : Multiset Frame), g.reaches c q := by
  rcases parent_exec_cases hq' with hq | hreg
  · have hlive := live_of_live_exec hs he (hs.valid.wf.parent hq).1 hlive'
    by_cases hpre : (h.state q.node).stopped = true
    · rcases hp.reached hq hpre hlive with hc | ⟨g, hg, hr⟩
      · exact .inl (extends_exec.stopped c hc)
      · rcases Multiset.mem_cons.mp hg with rfl | hg
        · exact reached_of_exec hs hent hq hpre hlive hr
        · exact .inr ⟨g, Multiset.mem_add.mpr (.inr hg), hr⟩
    · -- the parent is stopped by this step, which has all its shards still to visit
      obtain rfl : f = .stop (.node q.node) := by
        by_contra hf
        rw [stopped_exec hf] at hst
        exact hpre hst
      refine .inr ⟨.stop (.liveChildren q.node 0 []), Multiset.mem_add.mpr (.inl ?_), rfl,
        .inl (Nat.zero_le _)⟩
      simp [exec, execStop, hpre]
  · exact .inr ⟨_, Multiset.mem_add.mpr (.inl hreg), rfl⟩

theorem root_step {f : Frame} (hw : h.Wf) (hp : Propagated h (f ::ₘ K))
    (hn : (exec index choice h f).1.abandoned n = true) :
    (exec index choice h f).1.isRoot n = true := by
  have hlt : ∀ {n}, h.abandoned n = true → n < h.size := by
    intro n hn
    by_contra hge
    rw [(hw.freshNode (not_lt.mp hge)).2.2.2.2.2.2] at hn
    cases hn
  rcases (history_exec _ _ _ _ _).2 hn with hpre | ⟨rfl, hroot, -⟩
  · exact (extends_exec.isRoot (hlt hpre)).trans (hp.root hpre)
  · exact hroot

/-- Only `shut_down` tells a node to stop when it starts. -/
theorem told_start {fr fs : List Frame} {op : Op} (hs : start index h fr op = some (h', fs))
    (hn : h'.Told n) : h.Told n ∨ .stop (.node n) ∈ fs := by
  unfold start at hs
  split at hs <;> simp only [Option.ite_none_right_eq_some, Option.some.injEq, Prod.mk.injEq] at hs <;>
    obtain ⟨-, rfl, rfl⟩ := hs
  case h_5 _ m =>
    rcases eq_or_ne n m with rfl | hne
    · exact .inr (by simp)
    · exact .inl (by simpa [Heap.Told, hne] using hn)
  all_goals exact .inl hn

theorem propagated_start {fr fs : List Frame} {op : Op} (hs : Sound h fr) (hs' : Sound h' (↑fs + ↑fr))
    (hp : Propagated h fr) (hop : start index h fr op = some (h', fs)) :
    Propagated h' (↑fs + ↑fr) := by
  have hext := extends_start hop
  have hw := hs.valid.wf
  have hsame : h'.state = h.state ∧ h'.parent = h.parent ∧ h'.abandoned = h.abandoned := by
    obtain ⟨_, _, _, _, _, _, _, _, _, _, rfl⟩ := start_heap hop
    exact ⟨rfl, rfl, rfl⟩
  have hold : ∀ {f : Frame}, f ∈ (fr : Multiset Frame) → f ∈ (↑fs + ↑fr : Multiset Frame) :=
    fun hf => Multiset.mem_add.mpr (.inr hf)
  constructor
  · intro n hn
    rw [hsame.1]
    rcases told_start hop hn with hn | hmem
    · exact (hp.told hn).imp_right hold
    · exact .inr (Multiset.mem_add.mpr (.inl hmem))
  · intro n hn
    have hkeep : n < h.size → (h.state n).stopped = true ∨ .stop (.node n) ∈ (fr : Multiset Frame) →
        ∃ a ∈ h'.lineage n, h'.Told a :=
      fun hlt hc => cause_of_extends hw hs'.valid.wf hext hlt (hp.cause hc)
    rcases hn with hst | hmem
    · rw [hsame.1] at hst
      exact hkeep (hw.lt_of_stopped hst) (.inl hst)
    · rcases Multiset.mem_add.mp hmem with hmem | hmem
      · obtain rfl := shutDown_of_mem_start hop hmem
        refine ⟨n, hs'.valid.wf.self_mem_lineage n, .inl ?_⟩
        obtain ⟨-, hop⟩ := Option.ite_none_right_eq_some.mp hop
        obtain ⟨rfl, -⟩ := Prod.mk.inj (Option.some.inj hop)
        simp
      · exact hkeep (hs.valid.frames _ hmem) (.inr hmem)
  · intro n hn
    simpa [Heap.isRoot, hsame.2.1] using hp.root (hsame.2.2 ▸ hn)
  · intro c q hq hst hlive
    rw [hsame.2.1] at hq
    rw [hsame.1] at hst ⊢
    rw [strong_start hop (hw.parent hq).1] at hlive
    rcases hp.reached hq hst hlive with hst | ⟨f, hf, hr⟩
    · exact .inl hst
    · exact .inr ⟨f, hold hf, hr⟩

theorem propagated_reach {P : State → Act → Prop} {s : State} (hr : machine.Reach P s) :
    Propagated s.mem s.frames := by
  refine discipline.invariant (J := fun h fr => Sound h fr ∧ Entered h fr)
    (fun hr => ⟨sound_reach hr, entered_reach hr⟩) ?_ ?_ ?_ hr
  · constructor <;> simp [machine, Heap.empty, Heap.Told]
  · rintro index b h f K he ⟨hs, hent⟩ ⟨hs', -⟩ hp
    exact ⟨told_step hp, cause_step hs hs' hp, root_step hs.valid.wf hp, reached_step hs he hent hp⟩
  · rintro index h fr op h' fs hop ⟨hs, -⟩ ⟨hs', -⟩ hp
    exact propagated_start hs hs' hp hop

/-! ## Exact propagation -/

/-- The frame belongs to the stop of a node, and not to the collection of one. -/
def StopFrame.ofStop (h : Heap) : StopFrame → Prop
  | .node _ | .liveChildren _ _ _ => True
  | .shard sh | .drain sh _ | .wake sh _ => h.Live sh.node

/-- No stop and no `child()` is in flight. -/
structure StopsDone (s : State) : Prop where
  stop : ∀ f : StopFrame, .stop f ∈ s.frames → ¬f.ofStop s.mem
  child : ∀ f : ChildFrame, .child f ∉ s.frames

/-- Once stops are done, a live child of a stopped node is stopped. -/
theorem stopped_of_parent {s : State} (hr : Reachable s) (hdone : StopsDone s) {q : Parent}
    (hq : s.mem.parent c = some q) (hst : (s.mem.state q.node).stopped = true)
    (hlive : 0 < s.mem.strong c) : (s.mem.state c).stopped = true := by
  refine ((propagated_reach hr).reached hq hst hlive).resolve_right ?_
  rintro ⟨f, hf, hr⟩
  cases f with
  | stop f =>
      cases f with
      | node m => exact hdone.stop _ (Multiset.mem_coe.mp hf) trivial
      | liveChildren m i acc => exact hdone.stop _ (Multiset.mem_coe.mp hf) trivial
      | _ => exact hr.elim
  | child f => exact hdone.child f (Multiset.mem_coe.mp hf)
  | _ => exact hr.elim

/-- Once stops are done, the live descendants of a stopped node are stopped. -/
theorem stopped_of_ancestor {s : State} (hr : Reachable s) (hdone : StopsDone s) {a : NodeId}
    (ha : a ∈ s.mem.lineage n) (hst : (s.mem.state a).stopped = true) (hlive : 0 < s.mem.strong n) :
    (s.mem.state n).stopped = true := by
  have hs := sound_reach hr
  refine hs.valid.wf.lineage_down
    (motive := fun m => 0 < s.mem.strong m → (s.mem.state m).stopped = true) ?_ a ha (fun _ => hst) hlive
  intro c q hq ih hc
  have hparent := hs.references.live_parent (hs.valid.wf.parent hq).1 hq hc
  exact stopped_of_parent hr hdone hq (ih hparent) hc

/-- Once stops are done, the shards of a live stopped node are latched. -/
theorem latched_of_stopped {s : State} (hr : Reachable s) (hdone : StopsDone s)
    (hst : (s.mem.state sh.node).stopped = true) (hlive : 0 < s.mem.strong sh.node)
    (hsh : s.mem.HasShard sh) : (s.mem.shard sh).stopped = true :=
  ((latched_reach hr).ended hsh (.inl hst)).resolve_right fun hf =>
    hdone.stop _ (Multiset.mem_coe.mp hf) hlive

/-- **Exact stop propagation.**  In every reachable state a node is stopped only if
`shut_down` was called on it or on an ancestor, or the last handle of its root was
dropped; and when no stop and no `child()` is in flight, each live descendant of such a
node is stopped, with all its shards latched. -/
theorem stop_propagation {s : State} (hr : Reachable s) :
    (∀ n, (s.mem.state n).stopped = true → ∃ a ∈ s.mem.lineage n,
      s.mem.shutDown a = true ∨ s.mem.isRoot a = true ∧ s.mem.abandoned a = true) ∧
    (StopsDone s → ∀ n, 0 < s.mem.strong n → ∀ a ∈ s.mem.lineage n,
      s.mem.shutDown a = true ∨ s.mem.abandoned a = true →
        (s.mem.state n).stopped = true ∧ ∀ sh ∈ s.mem.shards n, (s.mem.shard sh).stopped = true) := by
  have hp := propagated_reach hr
  refine ⟨fun n hst => ?_, fun hdone n hlive a ha htold => ?_⟩
  · obtain ⟨a, ha, htold⟩ := hp.cause (.inl hst)
    exact ⟨a, ha, htold.imp_right fun hab => ⟨hp.root hab, hab⟩⟩
  · have hsta : (s.mem.state a).stopped = true :=
      (hp.told htold).resolve_right fun hf => hdone.stop _ (Multiset.mem_coe.mp hf) trivial
    have hst := stopped_of_ancestor hr hdone ha hsta hlive
    refine ⟨hst, fun sh hsh => ?_⟩
    obtain ⟨i, hi, rfl⟩ := List.mem_map.mp hsh
    have hlt := (sound_reach hr).valid.wf.lt_of_live hlive
    exact latched_of_stopped hr hdone hst hlive ⟨hlt, List.mem_range.mp hi⟩

/-- A root with a child is shut down. -/
def shutDownTree : List Act :=
  List.flatten [[.start 0 (.newRoot 2 false), .start 1 (.child 0)], List.replicate 7 (.run 1 false),
    [.start 0 (.shutDown 0)], List.replicate 21 (.run 2 false)]

theorem stop_propagation_shutDownTree : ∃ s : State, Reachable s ∧ s.mem.shutDown 1 = false ∧
    (s.mem.state 1).stopped = true ∧ ∀ sh ∈ s.mem.shards 1, (s.mem.shard sh).stopped = true := by
  obtain ⟨s, hr, hs⟩ := Machine.exists_reachable (M := machine) shutDownTree
    (p := fun s => s.frames = [] ∧ s.mem.shutDown 1 = false ∧ 0 < s.mem.strong 1 ∧
      0 ∈ s.mem.lineage 1 ∧ s.mem.shutDown 0 = true) (by decide)
  obtain ⟨hfr, hno, hlive, hmem, htold⟩ := of_decide_eq_true hs
  have hdone : StopsDone s := ⟨by simp [hfr], by simp [hfr]⟩
  exact ⟨s, hr, hno, (stop_propagation hr).2 hdone 1 hlive 0 hmem (.inl htold)⟩

end Swansong
