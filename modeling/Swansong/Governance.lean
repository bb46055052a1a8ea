import Swansong.Quiescence

/-!
# Roots without a handle

Once the clients of a root have no handle left, none will ever have one again.  If the
handles were dropped or awaited, the root is stopped.  A call of
`block_on_shutdown_completion` that consumed one keeps it until it returns: unless
`shut_down` was called before, the root then runs on, and the call never returns.

## Main definitions

* `Orphaned` — no client has a handle of the root.
* `Blocking` — a call that blocks keeps a handle.
* `orphaned_root` — the result.
-/

namespace Swansong

open Interleave (Machine total total_eq_zero)

variable {index : ℕ} {choice : Bool} {h h' : Heap} {s s' : State} {n : NodeId}

/-! ## Who can stop a root -/

/-- The frame stops the node, or has a handle of it. -/
def Frame.governs (n : NodeId) : Frame → Bool
  | .stop (.node m) | .life (.cloneHandle m) | .life (.cloneArc m) | .life (.dropHandle m) => m = n
  | _ => false

/-- No client has a handle of the root, and none is being cloned. -/
structure Orphaned (s : State) (n : NodeId) : Prop where
  allocated : n < s.mem.size
  root : s.mem.isRoot n = true
  handles : s.mem.handles n = 0
  cloning : ∀ f ∈ s.frames, f ≠ .life (.cloneHandle n) ∧ f ≠ .life (.cloneArc n)

/-- The frame is a step of a blocking wait for the node's completion. -/
def WaitFrame.BlocksOn (n : NodeId) : WaitFrame → Prop
  | .create event m blocking => event = .zero ∧ m = n ∧ blocking = true
  | .stopped o blocking | .zero o blocking | .listen o blocking | .stoppedAgain o _ blocking
  | .zeroAgain o _ blocking | .park o _ blocking => o.event = .zero ∧ o.node = n ∧ blocking = true

/-- A call of `block_on_shutdown_completion` waits, and keeps the handle it consumed. -/
def Blocking (n : NodeId) (k : List Frame) : Prop :=
  ∃ w : WaitFrame, w.BlocksOn n ∧ k = [.wait w, .life (.dropHandle n)]

/-- Nothing is done with the node's handles, except that calls block with them. -/
def Relinquished (s : State) (n : NodeId) : Prop :=
  ∀ t ∈ s.pool, Blocking n t.stack ∨ ∀ f ∈ t.stack, f.governs n = false

/-! ## Handles -/

/-- Only a clone and a new child give a client a handle. -/
theorem handles_exec_of_ne {f : Frame} (hclone : f ≠ .life (.cloneArc n))
    (hdone : f ≠ .child (.done n)) : (exec index choice h f).1.handles n = h.handles n := by
  cases f with
  | arrive f => obtain ⟨_, _, he⟩ := execArrive_heap index choice h f; rw [exec, he]
  | depart f => obtain ⟨_, _, he⟩ := execDepart_heap h f; rw [exec, he]
  | stop f => obtain ⟨_, _, _, _, _, _, he⟩ := execStop_heap h f; rw [exec, he]
  | notify event m => rfl
  | life f =>
      cases f with
      | cloneArc m =>
          have hne : n ≠ m := fun he => hclone (he ▸ rfl)
          simp [exec, execLife, hne]
      | deregister m => simp only [exec, execLife]; split <;> rfl
      | _ => rfl
  | child f =>
      cases f with
      | done m =>
          have hne : n ≠ m := fun he => hdone (he ▸ rfl)
          simp [exec, execChild, hne]
      | register m => simp only [exec, execChild]; split <;> rfl
      | check m => simp only [exec, execChild]; split <;> rfl
      | _ => rfl
  | guard f => obtain ⟨_, _, _, _, _, _, _, _, he⟩ := execGuard_heap index choice h f; rw [exec, he]
  | wait f => obtain ⟨_, _, _, _, he⟩ := execWait_heap h f; rw [exec, he]
  | poll f => obtain ⟨_, _, he⟩ := execPoll_heap choice h f; rw [exec, he]
  | walk report todo count out => obtain ⟨_, _, _, he⟩ := execWalk_heap h report count out todo; rw [exec, he]

/-- Only the drop of a root's last handle stops the root, and only a clone goes on with
another handle. -/
theorem governs_of_mem_exec {f g : Frame} (hv : f.Valid h) (hroot : h.isRoot n = true)
    (hg : g ∈ (exec index choice h f).2) (hgov : g.governs n = true) :
    f = .life (.dropHandle n) ∧ g = .stop (.node n) ∨
      f = .life (.cloneHandle n) ∧ g = .life (.cloneArc n) := by
  by_cases hstop : g = .stop (.node n)
  · subst hstop
    rcases mem_exec_stopNode hv hg with ⟨rfl, -⟩ | ⟨q, hq, -⟩
    · exact .inl ⟨rfl, rfl⟩
    · simp [Heap.isRoot, hq] at hroot
  · cases f with
    | arrive f => rcases mem_execArrive hg with ⟨_, rfl⟩ | ⟨_, rfl⟩ | ⟨_, rfl⟩ <;> cases hgov
    | depart f => rcases mem_execDepart hg with ⟨_, rfl⟩ | ⟨_, rfl⟩ <;> cases hgov
    | stop f =>
        rcases mem_execStop hg with ⟨f', rfl⟩ | ⟨_, _, rfl⟩ | ⟨_, rfl⟩ | ⟨_, rfl⟩
        · cases f' with
          | node m => exact absurd (by rw [of_decide_eq_true hgov]) hstop
          | _ => cases hgov
        all_goals cases hgov
    | notify event m => simp [exec, execNotify] at hg
    | life f =>
        rcases mem_execLife hg with ⟨_, rfl⟩ | ⟨m, rfl, rfl⟩ | ⟨_, rfl⟩ | ⟨_, -, rfl⟩ | ⟨m, rfl, rfl⟩
        · cases hgov
        · exact absurd (by rw [of_decide_eq_true hgov]) hstop
        · cases hgov
        · cases hgov
        · obtain rfl : m = n := of_decide_eq_true hgov
          exact .inr ⟨rfl, rfl⟩
    | child f =>
        rcases mem_execChild hg with ⟨_, rfl⟩ | ⟨m, rfl⟩
        · cases hgov
        · exact absurd (by rw [of_decide_eq_true hgov]) hstop
    | guard f => rcases mem_execGuard hg with ⟨_, rfl, -⟩ | ⟨_, rfl⟩ | ⟨_, rfl⟩ | ⟨_, rfl⟩ <;> cases hgov
    | wait f => rcases mem_execWait hg with ⟨_, rfl⟩ | ⟨_, rfl⟩ <;> cases hgov
    | poll f => obtain ⟨_, rfl⟩ := mem_execPoll hg; cases hgov
    | walk report todo count out =>
        rcases mem_execWalk hg with ⟨_, _, _, rfl⟩ | ⟨_, rfl⟩ | ⟨_, -, rfl⟩ <;> cases hgov

/-- Without a handle, no operation governs the node. -/
theorem governs_of_mem_start {fr fs : List Frame} {op : Op} {g : Frame}
    (hs : start index h fr op = some (h', fs)) (hn : h.handles n = 0) (hg : g ∈ fs) :
    g.governs n = false := by
  unfold start at hs
  split at hs <;> simp only [Option.ite_none_right_eq_some, Option.some.injEq, Prod.mk.injEq] at hs <;>
    obtain ⟨hop, -, rfl⟩ := hs <;> simp only [List.mem_cons, List.not_mem_nil, or_false] at hg <;>
    (repeat' rcases hg with rfl | hg) <;> simp only [Frame.governs, decide_eq_false_iff_not]
  all_goals
    rintro rfl
    first
      | exact absurd hop (by simp [HasHandle, hn])
      | exact absurd hop.1 (by simp [hn])

/-- Without a handle, an operation leaves the node without one. -/
theorem handles_start_of_zero {fr fs : List Frame} {op : Op}
    (hs : start index h fr op = some (h', fs)) (hlt : n < h.size) (hn : h.handles n = 0) :
    h'.handles n = 0 := by
  have hne : n ≠ h.size := hlt.ne
  unfold start at hs
  split at hs <;> simp only [Option.ite_none_right_eq_some, Option.some.injEq, Prod.mk.injEq] at hs <;>
    obtain ⟨-, rfl, -⟩ := hs <;> simp [newRoot, takeHandle, takeGuard, hn, hne, Function.update_apply]
  all_goals
    rintro rfl
    rw [hn]

/-- **Handles do not come back.** -/
theorem Orphaned.step (ho : Orphaned s n) (hr : Reachable s) {a : Act}
    (hs : machine.step s a = some s') : Orphaned s' n := by
  have hext := extends_step hs
  have hv := valid_reach hr
  refine ⟨ho.allocated.trans_le hext.size, (hext.isRoot ho.allocated).trans ho.root, ?_, ?_⟩
  · rcases Machine.step_cases hs with
      ⟨i, b, index, f, k, p, q, -, -, hpool, rfl⟩ | ⟨index, op, m', fs, -, hstart, rfl⟩
    · have hf : f ∈ s.frames := List.mem_flatMap.mpr ⟨⟨index, f :: k⟩, by simp [hpool], by simp⟩
      refine (handles_exec_of_ne (ho.cloning f hf).2 ?_).trans ho.handles
      rintro rfl
      obtain ⟨p', -, j, hparent⟩ := hv.frames _ (Multiset.mem_coe.mpr hf)
      have hroot := ho.root
      simp [Heap.isRoot, hparent] at hroot
    · exact handles_start_of_zero hstart ho.allocated ho.handles
  · intro g hg
    rcases Machine.step_cases hs with
      ⟨i, b, index, f, k, p, q, -, -, hpool, rfl⟩ | ⟨index, op, m', fs, -, hstart, rfl⟩
    · have hf : f ∈ s.frames := List.mem_flatMap.mpr ⟨⟨index, f :: k⟩, by simp [hpool], by simp⟩
      have hold : g ∈ (exec index b s.mem f).2 ∨ g ∈ s.frames := by
        have hg : g ∈ Interleave.frames (p ++ ⟨index, (exec index b s.mem f).2 ++ k⟩ :: q) := hg
        have hframes : s.frames = Interleave.frames (p ++ ⟨index, f :: k⟩ :: q) :=
          congrArg Interleave.frames hpool
        rw [hframes]
        simp only [Interleave.frames_append, Interleave.frames_cons, List.mem_append,
          List.mem_cons] at hg ⊢
        tauto
      rcases hold with hg | hg
      · by_cases hgov : g.governs n = true
        · rcases governs_of_mem_exec (hv.frames _ (Multiset.mem_coe.mpr hf)) ho.root hg hgov with
            ⟨-, rfl⟩ | ⟨rfl, -⟩
          · simp
          · exact absurd rfl (ho.cloning _ hf).1
        · constructor <;> rintro rfl <;> simp [Frame.governs] at hgov
      · exact ho.cloning g hg
    · have hg : g ∈ Interleave.frames (s.pool ++ [⟨index, fs⟩]) := hg
      simp only [Interleave.frames_append, Interleave.frames_cons, Interleave.frames_nil,
        List.append_nil, List.mem_append] at hg
      rcases hg with hg | hg
      · exact ho.cloning g hg
      · have hgov := governs_of_mem_start hstart ho.handles hg
        constructor <;> rintro rfl <;> simp [Frame.governs] at hgov

/-! ## Calls that block -/

/-- A blocking wait goes on as long as the node is not stopped. -/
theorem WaitFrame.BlocksOn.exec {w : WaitFrame} (hw : w.BlocksOn n) (hv : (Frame.wait w).Valid h)
    (hst : (h.state n).stopped = false) :
    ∃ w' : WaitFrame, w'.BlocksOn n ∧ (execWait h w).2 = [.wait w'] := by
  have hnext : ∀ {o : Observer}, o.event = .zero → o.node = n →
      ∃ w' : WaitFrame, w'.BlocksOn n ∧ waitNext o true = [.wait w'] := by
    intro o hevent hnode
    cases hl : o.listener with
    | none => exact ⟨.listen o true, ⟨hevent, hnode, rfl⟩, by simp [waitNext, hl]⟩
    | some l => exact ⟨.park o l true, ⟨hevent, hnode, rfl⟩, by simp [waitNext, hl]⟩
  cases w with
  | create event m blocking =>
      obtain ⟨rfl, rfl, rfl⟩ := hw
      exact ⟨.stopped ⟨.zero, m, none, false, false⟩ true, ⟨rfl, rfl, rfl⟩, rfl⟩
  | stopped o blocking =>
      obtain ⟨hevent, rfl, rfl⟩ := hw
      obtain ⟨w', hw', he⟩ := hnext hevent rfl
      exact ⟨w', hw', by simp [execWait, hst, he]⟩
  | listen o blocking =>
      obtain ⟨hevent, rfl, rfl⟩ := hw
      exact ⟨.stoppedAgain o h.nextListener true, ⟨hevent, rfl, rfl⟩, rfl⟩
  | stoppedAgain o l blocking =>
      obtain ⟨hevent, rfl, rfl⟩ := hw
      exact ⟨.park o l true, ⟨hevent, rfl, rfl⟩, by simp [execWait, hst]⟩
  | park o l blocking =>
      obtain ⟨hevent, rfl, rfl⟩ := hw
      by_cases hn : (h.listeners l).notified = true
      · exact ⟨.stopped { o with listener := none } true, ⟨hevent, rfl, rfl⟩, by simp [execWait, hn]⟩
      · exact ⟨.park o l true, ⟨hevent, rfl, rfl⟩, by simp [execWait, hn]⟩
  | zero o blocking =>
      obtain ⟨-, rfl, -⟩ := hw
      rw [hv.2.2] at hst
      cases hst
  | zeroAgain o l blocking =>
      obtain ⟨-, rfl, -⟩ := hw
      rw [hv.2.2.2] at hst
      cases hst

/-- **One step of a relinquished root that runs.**  It runs on, and the calls that block go on
blocking. -/
theorem Relinquished.step (hn : Relinquished s n) (ho : Orphaned s n) (hr : Reachable s)
    (hst : (s.mem.state n).stopped = false) {a : Act} (hs : machine.step s a = some s') :
    Relinquished s' n ∧ (s'.mem.state n).stopped = false ∧
      ∀ (i index : ℕ) k, s.pool[i]? = some ⟨index, k⟩ → Blocking n k →
        ∃ k', s'.pool[i]? = some ⟨index, k'⟩ ∧ Blocking n k' := by
  have hv := valid_reach hr
  have hframe : ∀ {index f k}, (⟨index, f :: k⟩ : Interleave.Thread Frame) ∈ s.pool → f.Valid s.mem := fun ht =>
    hv.frames _ (Multiset.mem_coe.mpr (List.mem_flatMap.mpr ⟨_, ht, List.mem_cons_self⟩))
  -- a thread's own step
  have hexec : ∀ {index b f k}, (⟨index, f :: k⟩ : Interleave.Thread Frame) ∈ s.pool → f ≠ .stop (.node n) ∧
      (Blocking n ((exec index b s.mem f).2 ++ k) ∨
        ∀ g ∈ (exec index b s.mem f).2 ++ k, g.governs n = false) ∧
      (Blocking n (f :: k) → Blocking n ((exec index b s.mem f).2 ++ k)) := by
    intro index b f k ht
    rcases hn _ ht with ⟨w, hw, he⟩ | hno
    · obtain ⟨rfl, rfl⟩ := List.cons.inj he
      obtain ⟨w', hw', hpush⟩ := hw.exec (hframe ht) hst
      have hblock : Blocking n ((Swansong.exec index b s.mem (.wait w)).2 ++ [.life (.dropHandle n)]) :=
        ⟨w', hw', by rw [Swansong.exec, hpush]; rfl⟩
      exact ⟨by simp, .inl hblock, fun _ => hblock⟩
    · refine ⟨?_, .inr fun g hg => ?_, ?_⟩
      · rintro rfl
        simpa [Frame.governs] using hno _ List.mem_cons_self
      · rcases List.mem_append.mp hg with hg | hg
        · by_contra hgov
          have hf := hno f List.mem_cons_self
          rcases governs_of_mem_exec (hframe ht) ho.root hg (by simpa using hgov) with
            ⟨rfl, -⟩ | ⟨rfl, -⟩ <;> simp [Frame.governs] at hf
        · exact hno g (List.mem_cons_of_mem f hg)
      · rintro ⟨w, -, he⟩
        obtain ⟨rfl, rfl⟩ := List.cons.inj he
        simpa [Frame.governs] using hno (.life (.dropHandle n)) (by simp)
  refine ⟨?_, ?_, ?_⟩
  · intro t ht
    rcases Machine.step_cases hs with
      ⟨i, b, index, f, k, p, q, -, -, hpool, rfl⟩ | ⟨index, op, m', fs, -, hstart, rfl⟩
    · simp only [List.mem_append, List.mem_cons] at ht
      rcases ht with ht | rfl | ht
      · exact hn t (by simp [hpool, ht])
      · exact (hexec (by simp [hpool])).2.1
      · exact hn t (by simp [hpool, ht])
    · rcases List.mem_append.mp ht with ht | ht
      · exact hn t ht
      · obtain rfl := List.mem_singleton.mp ht
        exact .inr fun g hg => governs_of_mem_start hstart ho.handles hg
  · rcases Machine.step_cases hs with
      ⟨i, b, index, f, k, p, q, -, -, hpool, rfl⟩ | ⟨index, op, m', fs, -, hstart, rfl⟩
    · have ht : (⟨index, f :: k⟩ : Interleave.Thread Frame) ∈ s.pool := by simp [hpool]
      exact (stopped_exec (hexec (b := b) ht).1).trans hst
    · obtain ⟨_, _, _, _, _, _, _, _, _, _, rfl⟩ := start_heap hstart
      exact hst
  · intro i index k hi hblock
    rcases Machine.step_thread hs hi with ⟨hi', -⟩ | ⟨b, f, l, -, rfl, -, hi'⟩
    · exact ⟨k, hi', hblock⟩
    · exact ⟨_, hi', (hexec (List.mem_of_getElem? hi)).2.2 hblock⟩

/-! ## Which roots run on -/

theorem cloneHandle_not_mem_exec {f : Frame} : .life (.cloneHandle n) ∉ (exec index choice h f).2 := by
  intro hg
  cases f with
  | arrive f => rcases mem_execArrive hg with ⟨_, hg⟩ | ⟨_, hg⟩ | ⟨_, hg⟩ <;> cases hg
  | depart f => rcases mem_execDepart hg with ⟨_, hg⟩ | ⟨_, hg⟩ <;> cases hg
  | stop f => rcases mem_execStop hg with ⟨_, hg⟩ | ⟨_, _, hg⟩ | ⟨_, hg⟩ | ⟨_, hg⟩ <;> cases hg
  | notify event m => simp [exec, execNotify] at hg
  | life f =>
      rcases mem_execLife hg with ⟨_, hg⟩ | ⟨_, -, hg⟩ | ⟨_, hg⟩ | ⟨_, -, hg⟩ | ⟨_, -, hg⟩ <;> cases hg
  | child f => rcases mem_execChild hg with ⟨_, hg⟩ | ⟨_, hg⟩ <;> cases hg
  | guard f => rcases mem_execGuard hg with ⟨_, hg, -⟩ | ⟨_, hg⟩ | ⟨_, hg⟩ | ⟨_, hg⟩ <;> cases hg
  | wait f => rcases mem_execWait hg with ⟨_, hg⟩ | ⟨_, hg⟩ <;> cases hg
  | poll f => obtain ⟨_, hg⟩ := mem_execPoll hg; cases hg
  | walk report todo count out =>
      rcases mem_execWalk hg with ⟨_, _, _, hg⟩ | ⟨_, hg⟩ | ⟨_, -, hg⟩ <;> cases hg

/-- A handle that is being cloned is borrowed. -/
theorem release_of_cloneHandle (hr : Reachable s) (hf : .life (.cloneHandle n) ∈ s.frames) :
    .life (.release n) ∈ s.frames := by
  have hstack : ∀ t ∈ s.pool, t.stack = [.life (.cloneHandle n), .life (.release n)] ∨
      .life (.cloneHandle n) ∉ t.stack := by
    refine Machine.stack_invariant (M := machine) (P := fun _ _ => True)
      (I := fun _ k => k = [.life (.cloneHandle n), .life (.release n)] ∨ .life (.cloneHandle n) ∉ k)
      ?_ (fun _ hk => hk) ?_ hr
    · intro index b m f k hk
      have hpush : .life (.cloneHandle n) ∉ (machine.exec index b m f).2 := cloneHandle_not_mem_exec
      have hbelow : .life (.cloneHandle n) ∉ k := by
        rcases hk with he | hno
        · obtain ⟨-, rfl⟩ := List.cons.inj he
          simp
        · exact fun hk => hno (List.mem_cons_of_mem f hk)
      exact .inr fun hk => (List.mem_append.mp hk).elim hpush hbelow
    · intro index m fr op m' fs hs
      replace hs : start index m fr op = some (m', fs) := hs
      unfold start at hs
      split at hs <;> simp only [Option.ite_none_right_eq_some, Option.some.injEq, Prod.mk.injEq] at hs <;>
        obtain ⟨-, -, rfl⟩ := hs
      case h_2 m =>
        by_cases hm : m = n
        · exact .inl (by rw [hm])
        · exact .inr (by simp [Ne.symm hm])
      all_goals exact .inr (by simp)
  obtain ⟨t, ht, hf⟩ := List.mem_flatMap.mp hf
  refine List.mem_flatMap.mpr ⟨t, ht, ?_⟩
  rcases hstack t ht with he | hno
  · simp [he]
  · exact absurd hf hno

/-- Handles are counted, those in flight included. -/
theorem swansongCount_pos (hr : Reachable s) (hn : 0 < s.mem.handles n) : 0 < s.mem.swansongCount n := by
  have hbal := (counted_reach hr).balanced n
  have hnonneg := Interleave.total_nonneg (Frame.handles_nonneg (n := n)) s.frames
  omega

/-- Only a clone, and the construction of a node, count another handle. -/
theorem swansongCount_exec_le {f : Frame} (hclone : f ≠ .life (.cloneHandle n))
    (halloc : ∀ q shard, f = .child (.alloc q shard) → n ≠ h.size) :
    (exec index choice h f).1.swansongCount n ≤ h.swansongCount n := by
  cases f with
  | arrive f => obtain ⟨_, _, he⟩ := execArrive_heap index choice h f; rw [exec, he]
  | depart f => obtain ⟨_, _, he⟩ := execDepart_heap h f; rw [exec, he]
  | stop f => obtain ⟨_, _, _, _, _, _, he⟩ := execStop_heap h f; rw [exec, he]
  | notify event m => rfl
  | life f =>
      cases f with
      | cloneHandle m =>
          have hne : n ≠ m := fun he => hclone (he ▸ rfl)
          simp [exec, execLife, hne]
      | dropHandle m =>
          by_cases hm : n = m
          · subst hm
            simp [exec, execLife]
          · simp [exec, execLife, hm]
      | deregister m => simp only [exec, execLife]; split <;> rfl
      | _ => rfl
  | child f =>
      cases f with
      | alloc q shard => simp [exec, execChild, halloc q shard rfl]
      | register m => simp only [exec, execChild]; split <;> rfl
      | check m => simp only [exec, execChild]; split <;> rfl
      | _ => rfl
  | guard f => obtain ⟨_, _, _, _, _, _, _, _, he⟩ := execGuard_heap index choice h f; rw [exec, he]
  | wait f => obtain ⟨_, _, _, _, he⟩ := execWait_heap h f; rw [exec, he]
  | poll f => obtain ⟨_, _, he⟩ := execPoll_heap choice h f; rw [exec, he]
  | walk report todo count out => obtain ⟨_, _, _, he⟩ := execWalk_heap h report count out todo; rw [exec, he]

/-- A root that was abandoned has no handle. -/
theorem swansongCount_of_abandoned (hr : Reachable s) (hn : s.mem.abandoned n = true) :
    s.mem.swansongCount n = 0 := by
  induction hr with
  | init => simp [machine, Heap.empty]
  | @step s a s' hr _ hs ih =>
      have hw := (valid_reach hr).wf
      rcases Machine.step_cases hs with
        ⟨i, b, index, f, k, p, q, -, -, hpool, rfl⟩ | ⟨index, op, m', fs, -, hstart, rfl⟩
      · have hf : f ∈ s.frames := List.mem_flatMap.mpr ⟨⟨index, f :: k⟩, by simp [hpool], by simp⟩
        rcases (history_exec index b s.mem n f).2 hn with hold | ⟨rfl, -, hmem⟩
        · refine Nat.le_zero.mp ((swansongCount_exec_le ?_ ?_).trans (ih hold).le)
          · -- a clone borrows a handle
            rintro rfl
            have hpos := swansongCount_pos hr
              ((borrowed_reach hr).handle (Multiset.mem_coe.mpr (release_of_cloneHandle hr hf)))
            rw [ih hold] at hpos
            exact lt_irrefl 0 hpos
          · rintro q shard - rfl
            rw [(hw.freshNode le_rfl).2.2.2.2.2.2] at hold
            cases hold
        · by_cases hlast : s.mem.swansongCount n = 1 ∧ s.mem.isRoot n = true
          · simp [machine, exec, execLife, hlast]
          · simp [exec, execLife, hlast] at hmem
      · have hcount : m'.swansongCount n = s.mem.swansongCount n ∨ n = s.mem.size := by
          replace hstart : start index s.mem s.frames op = some (m', fs) := hstart
          by_cases hsize : n = s.mem.size
          · exact .inr hsize
          · unfold start at hstart
            split at hstart <;>
              simp only [Option.ite_none_right_eq_some, Option.some.injEq, Prod.mk.injEq] at hstart <;>
              obtain ⟨-, rfl, -⟩ := hstart <;> left <;> simp [newRoot, takeHandle, takeGuard, hsize]
        have hold : s.mem.abandoned n = true := by
          obtain ⟨_, _, _, _, _, _, _, _, _, _, rfl⟩ := start_heap hstart
          exact hn
        rcases hcount with hcount | rfl
        · exact hcount.trans (ih hold)
        · rw [(hw.freshNode le_rfl).2.2.2.2.2.2] at hold
          cases hold

/-- The handles of an orphaned root are those that calls block with. -/
theorem Relinquished.swansongCount_eq_zero_iff (hn : Relinquished s n) (ho : Orphaned s n) (hr : Reachable s) :
    s.mem.swansongCount n = 0 ↔ ¬∃ t ∈ s.pool, Blocking n t.stack := by
  have hbal := (counted_reach hr).balanced n
  have hhandles := ho.handles
  constructor
  · rintro hzero ⟨t, ht, w, -, he⟩
    have hmem : .life (.dropHandle n) ∈ s.frames := List.mem_flatMap.mpr ⟨t, ht, by simp [he]⟩
    have hle := Interleave.le_total (Frame.handles_nonneg (n := n)) (Multiset.mem_coe.mpr hmem)
    simp only [Frame.handles, Count.bit_true] at hle
    omega
  · intro hnone
    have hplain : total (Frame.handles n) s.frames = 0 := by
      refine total_eq_zero fun f hf => ?_
      have hf := Multiset.mem_coe.mp hf
      obtain ⟨t, ht, hft⟩ := List.mem_flatMap.mp hf
      have hgov := ((hn t ht).resolve_left fun hblock => hnone ⟨t, ht, hblock⟩) f hft
      have hchild : ∀ {c}, (∃ q, s.mem.IsChild c q) → c ≠ n := by
        rintro c ⟨q, -, j, hparent⟩ rfl
        have hroot := ho.root
        simp [Heap.isRoot, hparent] at hroot
      have hv := (valid_reach hr).frames f (Multiset.mem_coe.mpr hf)
      unfold Frame.handles
      split
      · exact Count.bit_of_not (of_decide_eq_false hgov)
      · exact Count.bit_of_not (of_decide_eq_false hgov)
      · exact Count.bit_of_not (hchild hv)
      · exact Count.bit_of_not (hchild hv)
      · exact Count.bit_of_not (hchild hv)
      · exact Count.bit_of_not (hchild hv)
      · rfl
    omega

/-- A relinquished root without a handle runs on exactly if it was not shut down and a call
blocks with a handle of it. -/
theorem Relinquished.running_iff (hn : Relinquished s n) (ho : Orphaned s n) (hr : Reachable s) :
    (s.mem.state n).stopped = false ↔
      s.mem.shutDown n = false ∧ ∃ t ∈ s.pool, Blocking n t.stack := by
  have hp := propagated_reach hr
  constructor
  · intro hst
    have hnot : ¬s.mem.Told n := by
      intro htold
      rcases hp.told htold with hstop | hmem
      · rw [hst] at hstop
        cases hstop
      · obtain ⟨t, ht, hmem⟩ := List.mem_flatMap.mp (Multiset.mem_coe.mp hmem)
        rcases hn t ht with ⟨w, -, he⟩ | hno
        · simp [he] at hmem
        · simpa [Frame.governs] using hno _ hmem
    obtain ⟨hshut, habandoned⟩ := not_or.mp hnot
    refine ⟨by simpa using hshut, ?_⟩
    by_contra hnone
    have hzero := (hn.swansongCount_eq_zero_iff ho hr).mpr hnone
    exact habandoned ((counted_reach hr).abandoned n ho.allocated ho.root hzero)
  · rintro ⟨hshut, hblock⟩
    by_contra hst
    obtain ⟨a, ha, htold⟩ := hp.cause (.inl (by simpa using hst))
    have hparent : s.mem.parent n = none := by simpa [Heap.isRoot] using ho.root
    rw [(valid_reach hr).wf.lineage_eq, hparent, List.mem_singleton] at ha
    subst ha
    rcases htold with htold | htold
    · rw [hshut] at htold
      cases htold
    · exact (hn.swansongCount_eq_zero_iff ho hr).mp (swansongCount_of_abandoned hr htold) hblock

/-! ## Runs -/

theorem Orphaned.leads (ho : Orphaned s n) (hr : Reachable s)
    (hl : machine.Leads (fun _ _ => True) s s') : Orphaned s' n := by
  have hboth : Reachable s' ∧ Orphaned s' n := by
    induction hl with
    | refl => exact ⟨hr, ho⟩
    | step _ _ hs ih => exact ⟨ih.1.step trivial hs, ih.2.step ih.1 hs⟩
  exact hboth.2

/-- **A relinquished root that runs does so for ever**, and so do the calls that block on it. -/
theorem Relinquished.leads (hn : Relinquished s n) (ho : Orphaned s n) (hr : Reachable s)
    (hst : (s.mem.state n).stopped = false) (hl : machine.Leads (fun _ _ => True) s s') :
    Relinquished s' n ∧ (s'.mem.state n).stopped = false ∧
      ∀ (i index : ℕ) k, s.pool[i]? = some ⟨index, k⟩ → Blocking n k →
        ∃ k', s'.pool[i]? = some ⟨index, k'⟩ ∧ Blocking n k' := by
  induction hl with
  | refl => exact ⟨hn, hst, fun i index k hi hk => ⟨k, hi, hk⟩⟩
  | step hl _ hs ih =>
      obtain ⟨hn', hst', hblock⟩ := ih
      obtain ⟨hn'', hst'', hblock'⟩ := hn'.step (ho.leads hr hl) (hr.leads hl) hst' hs
      refine ⟨hn'', hst'', fun i index k hi hk => ?_⟩
      obtain ⟨k', hi', hk'⟩ := hblock i index k hi hk
      exact hblock' i index k' hi' hk'

theorem shutdownState_of_running (hst : (h.state n).stopped = false) : shutdownState h n = .running := by
  simp [shutdownState, isStopped, hst]

/-- **Roots without a handle.**  If no client has a handle of a root and none is being
cloned, this is so for ever.  Once the handles that were given up are dropped, except those
that calls of `block_on_shutdown_completion` keep, the root runs exactly if it was not
shut down and there is such a call; and then it runs for ever, and no such call returns. -/
theorem orphaned_root (hr : Reachable s) (ho : Orphaned s n) :
    (∀ s', machine.Leads (fun _ _ => True) s s' → Orphaned s' n) ∧
    (Relinquished s n → ((s.mem.state n).stopped = false ↔
      s.mem.shutDown n = false ∧ ∃ t ∈ s.pool, Blocking n t.stack)) ∧
    (Relinquished s n → (s.mem.state n).stopped = false → ∀ s', machine.Leads (fun _ _ => True) s s' →
      shutdownState s'.mem n = .running ∧
      ∀ (i index : ℕ) k, s.pool[i]? = some ⟨index, k⟩ → Blocking n k →
        ∃ k', s'.pool[i]? = some ⟨index, k'⟩ ∧ Blocking n k') := by
  refine ⟨fun s' hl => ho.leads hr hl, fun hn => hn.running_iff ho hr, fun hn hst s' hl => ?_⟩
  obtain ⟨-, hst', hblock⟩ := hn.leads ho hr hst hl
  exact ⟨shutdownState_of_running hst', hblock⟩

/-- The last handle of a root is consumed by a call that blocks. -/
def blockedOnLast : List Act :=
  [.start 0 (.newRoot 2 false), .start 1 (.blockOnShutdownCompletion 0)] ++ List.replicate 4 (.run 1 false)

theorem orphaned_root_blockedOnLast : ∃ s, Reachable s ∧ ∀ s',
    machine.Leads (fun _ _ => True) s s' → Orphaned s' 0 ∧ shutdownState s'.mem 0 = .running := by
  obtain ⟨s, hr, hs⟩ := Machine.exists_reachable (M := machine) blockedOnLast
    (p := fun s => 0 < s.mem.size ∧ s.mem.isRoot 0 = true ∧ s.mem.handles 0 = 0 ∧
      s.mem.shutDown 0 = false ∧ s.pool.map Interleave.Thread.stack =
        [[], [.wait (.park ⟨.zero, 0, none, false, false⟩ 0 true), .life (.dropHandle 0)]]) (by decide)
  obtain ⟨hsize, hroot, hhandles, hshut, hpool⟩ := of_decide_eq_true hs
  have hblock : Blocking 0 [.wait (.park ⟨.zero, 0, none, false, false⟩ 0 true), .life (.dropHandle 0)] :=
    ⟨.park ⟨.zero, 0, none, false, false⟩ 0 true, ⟨rfl, rfl, rfl⟩, rfl⟩
  have hn : Relinquished s 0 := by
    intro t ht
    have hstack := List.mem_map_of_mem (f := Interleave.Thread.stack) ht
    rw [hpool] at hstack
    rcases List.mem_cons.mp hstack with he | he
    · exact .inr (by simp [he])
    · exact .inl (List.mem_singleton.mp he ▸ hblock)
  have ho : Orphaned s 0 := by
    refine ⟨hsize, hroot, hhandles, fun f hf => ?_⟩
    rw [Interleave.Config.frames, Interleave.frames, List.flatMap, hpool] at hf
    constructor <;> rintro rfl <;> simp at hf
  obtain ⟨t, ht, he⟩ : ∃ t ∈ s.pool, t.stack =
      [.wait (.park ⟨.zero, 0, none, false, false⟩ 0 true), .life (.dropHandle 0)] :=
    List.mem_map.mp (by rw [hpool]; simp)
  obtain ⟨horphaned, hruns, hforever⟩ := orphaned_root hr ho
  have hst := (hruns hn).mpr ⟨hshut, t, ht, he ▸ hblock⟩
  exact ⟨s, hr, fun s' hl => ⟨horphaned s' hl, (hforever hn hst s' hl).1⟩⟩

/-! ## The last handle -/

/-- The stack has a handle of the node only for the call that awaits it. -/
def Awaits (n : NodeId) (k : List Frame) : Prop :=
  .life (.dropHandle n) ∈ k →
    k = [.wait (.create .zero n false), .life (.dropHandle n)] ∨ k = [.life (.dropHandle n)]

theorem not_blocking_of_awaits {k : List Frame} (hk : Awaits n k) : ¬Blocking n k := by
  rintro ⟨w, hw, rfl⟩
  rcases hk (by simp) with he | he
  · obtain ⟨he, -⟩ := List.cons.inj he
    obtain rfl : w = .create .zero n false := Frame.wait.inj he
    cases hw.2.2
  · cases he

/-- A handle that is awaited is dropped next. -/
theorem awaits_leads (ho : Orphaned s n) (hr : Reachable s) (hn : ∀ t ∈ s.pool, Awaits n t.stack)
    (hl : machine.Leads (fun _ _ => True) s s') : ∀ t ∈ s'.pool, Awaits n t.stack := by
  induction hl with
  | refl => exact hn
  | @step s₁ a s₂ hl _ hs ih =>
      have ho₁ := ho.leads hr hl
      have hv := valid_reach (hr.leads hl)
      intro t ht
      rcases Machine.step_cases hs with
        ⟨i, b, index, f, k, p, q, -, -, hpool, rfl⟩ | ⟨index, op, m', fs, -, hstart, rfl⟩
      · simp only [List.mem_append, List.mem_cons] at ht
        rcases ht with ht | rfl | ht
        · exact ih t (by simp [hpool, ht])
        · have htop : (⟨index, f :: k⟩ : Interleave.Thread Frame) ∈ s₁.pool := by simp [hpool]
          have hf := hv.frames f (Multiset.mem_coe.mpr (List.mem_flatMap.mpr ⟨_, htop, List.mem_cons_self⟩))
          intro hmem
          rcases List.mem_append.mp hmem with hpush | hbelow
          · have hgov := governs_of_mem_exec hf ho₁.root hpush (by simp [Frame.governs])
            rcases hgov with ⟨-, he⟩ | ⟨-, he⟩ <;> cases he
          · rcases ih _ htop (List.mem_cons_of_mem f hbelow) with he | he
            · obtain ⟨rfl, rfl⟩ := List.cons.inj he
              exact .inr rfl
            · obtain ⟨-, rfl⟩ := List.cons.inj he
              cases hbelow
        · exact ih t (by simp [hpool, ht])
      · rcases List.mem_append.mp ht with ht | ht
        · exact ih t ht
        · obtain rfl := List.mem_singleton.mp ht
          intro hmem
          have hgov := governs_of_mem_start hstart ho₁.handles hmem
          simp [Frame.governs] at hgov

/-- **Awaiting the last handle stops a root, blocking on it does not.**  Let a root that
was not shut down have one handle left, with no call in flight that has another.  If
`block_on_shutdown_completion` consumes it, then whatever happens the root runs for ever
and the call never returns.  If it is awaited, the root is stopped as soon as the handle is
dropped. -/
theorem last_handle_consumed (hr : Reachable s) (hlt : n < s.mem.size) (hroot : s.mem.isRoot n = true)
    (hone : s.mem.handles n = 1) (hshut : s.mem.shutDown n = false)
    (hcalls : ∀ f ∈ s.frames, f.governs n = false) {index : ℕ} {s₁ s' : State} :
    (machine.step s (.start index (.blockOnShutdownCompletion n)) = some s₁ →
      machine.Leads (fun _ _ => True) s₁ s' → shutdownState s'.mem n = .running ∧
        ∃ k, s'.pool[s.pool.length]? = some ⟨index, k⟩ ∧ Blocking n k) ∧
    (machine.step s (.start index (.intoFuture n)) = some s₁ →
      machine.Leads (fun _ _ => True) s₁ s' → Relinquished s' n → (s'.mem.state n).stopped = true) := by
  have hold : ∀ t ∈ s.pool, ∀ f ∈ t.stack, f.governs n = false := fun t ht f hf =>
    hcalls f (List.mem_flatMap.mpr ⟨t, ht, hf⟩)
  have horphan : ∀ fs : List Frame, (∀ f ∈ fs, f ≠ .life (.cloneHandle n) ∧ f ≠ .life (.cloneArc n)) →
      Orphaned ⟨takeHandle s.mem n, s.pool ++ [⟨index, fs⟩]⟩ n := by
    intro fs hfs
    refine ⟨hlt, hroot, by simp [takeHandle, hone], fun f hf => ?_⟩
    simp only [Interleave.Config.frames, Interleave.frames_append, Interleave.frames_cons,
      Interleave.frames_nil, List.append_nil, List.mem_append] at hf
    rcases hf with hf | hf
    · have hgov := hcalls f hf
      constructor <;> rintro rfl <;> simp [Frame.governs] at hgov
    · exact hfs f hf
  constructor
  · intro hs hl
    have hr₁ := hr.step trivial hs
    obtain ⟨r, hstart, rfl⟩ := Option.map_eq_some_iff.mp hs
    obtain ⟨-, he⟩ := Option.ite_none_right_eq_some.mp hstart
    obtain rfl := Option.some.inj he
    have ho := horphan [.wait (.create .zero n true), .life (.dropHandle n)] (by simp)
    have hblock : Blocking n [.wait (.create .zero n true), .life (.dropHandle n)] :=
      ⟨.create .zero n true, ⟨rfl, rfl, rfl⟩, rfl⟩
    have hn : Relinquished ⟨takeHandle s.mem n,
        s.pool ++ [⟨index, [.wait (.create .zero n true), .life (.dropHandle n)]⟩]⟩ n := by
      intro t ht
      rcases List.mem_append.mp ht with ht | ht
      · exact .inr (hold t ht)
      · obtain rfl := List.mem_singleton.mp ht
        exact .inl hblock
    have hst := (hn.running_iff ho hr₁).mpr ⟨hshut, _, List.mem_append_right _ List.mem_cons_self, hblock⟩
    obtain ⟨-, hst', hgo⟩ := hn.leads ho hr₁ hst hl
    exact ⟨shutdownState_of_running hst', hgo _ _ _ (by simp) hblock⟩
  · intro hs hl hn
    have hr₁ := hr.step trivial hs
    obtain ⟨r, hstart, rfl⟩ := Option.map_eq_some_iff.mp hs
    obtain ⟨-, he⟩ := Option.ite_none_right_eq_some.mp hstart
    obtain rfl := Option.some.inj he
    have ho := horphan [.wait (.create .zero n false), .life (.dropHandle n)] (by simp)
    have hawaits := awaits_leads ho hr₁ (fun t ht => by
      rcases List.mem_append.mp ht with ht | ht
      · intro hmem
        simpa [Frame.governs] using hold t ht _ hmem
      · obtain rfl := List.mem_singleton.mp ht
        exact fun _ => .inl rfl) hl
    by_contra hst
    obtain ⟨-, t, ht, hblock⟩ :=
      (hn.running_iff (ho.leads hr₁ hl) (hr₁.leads hl)).mp (by simpa using hst)
    exact not_blocking_of_awaits (hawaits t ht) hblock

theorem last_handle_consumed_newRoot : ∃ s s₁ s₂ : State, Reachable s ∧
    (machine.step s (.start 1 (.blockOnShutdownCompletion 0)) = some s₁ ∧ ∀ s',
      machine.Leads (fun _ _ => True) s₁ s' → shutdownState s'.mem 0 = .running) ∧
    machine.Leads (fun _ _ => True) s s₂ ∧ (s₂.mem.state 0).stopped = true := by
  obtain ⟨s, hr, hs⟩ := Machine.exists_reachable (M := machine) [.start 0 (.newRoot 2 false)]
    (p := fun s => 0 < s.mem.size ∧ s.mem.isRoot 0 = true ∧ s.mem.handles 0 = 1 ∧
      s.mem.shutDown 0 = false ∧ s.frames = [] ∧
      (machine.step s (.start 1 (.blockOnShutdownCompletion 0))).isSome = true ∧
      (machine.step s (.start 1 (.intoFuture 0))).any fun s₁ =>
        (machine.run (fun _ _ => true) s₁ (List.replicate 13 (.run 1 false))).any fun s₂ =>
          decide (s₂.frames = [])) (by decide)
  obtain ⟨hsize, hroot, hone, hshut, hfr, hblock, hawait⟩ := of_decide_eq_true hs
  obtain ⟨s₁, hs₁⟩ := Option.isSome_iff_exists.mp hblock
  rw [Option.any_eq_true] at hawait
  obtain ⟨s₂, hs₂, hrun⟩ := hawait
  rw [Option.any_eq_true] at hrun
  obtain ⟨s₃, hrun, hdone⟩ := hrun
  have hl : machine.Leads (fun _ _ => True) s₂ s₃ := .of_run (fun _ _ _ => trivial) hrun
  have hcalls : ∀ f ∈ s.frames, f.governs 0 = false := by simp [hfr]
  have hn : Relinquished s₃ 0 := by
    intro t ht
    refine .inr fun f hf => ?_
    have hmem : f ∈ s₃.frames := List.mem_flatMap.mpr ⟨t, ht, hf⟩
    rw [of_decide_eq_true hdone] at hmem
    cases hmem
  refine ⟨s, s₁, s₃, hr, ⟨hs₁, fun s' hl' => ?_⟩, hl.head trivial hs₂, ?_⟩
  · exact ((last_handle_consumed hr hsize hroot hone hshut hcalls).1 hs₁ hl').1
  · exact (last_handle_consumed hr hsize hroot hone hshut hcalls).2 hs₂ hl hn

end Swansong
