import Swansong.Flush

/-!
# Steady state

While a node runs its arrived shards stay arrived, and the calls that create and drop
guards on an arrived shard write no word but the shard's, whatever races them.

`Interrupt::guarded` counts on the interrupt's own shard if that has arrived by the time
it looks, and else on the calling thread's shard of the node.

## Main definitions

* `Heap.Running` — neither stopped nor collected.
* `Frame.OnShard` — the points that such a call goes through.
* `Op.OnShard` — the calls.
* `Heap.Steady` — what a step of such a call may write.
* `steady_guards` — the result.
-/

namespace Swansong

open Interleave (Machine)

variable {index : ℕ} {choice : Bool} {h h' : Heap} {s s' : State} {n : NodeId}
  {sh : ShardId}

/-- The node is neither stopped nor collected. -/
def Heap.Running (h : Heap) (n : NodeId) : Prop := (h.state n).stopped = false ∧ h.Live n

theorem running_iff : h.Running n ↔ ¬h.Ended n := by
  simp [Heap.Running, Heap.Ended, Heap.Live, Nat.pos_iff_ne_zero]

/-- A node that ended has ended for good. -/
theorem ended_step {a : Act} (hr : Reachable s) (hs : machine.step s a = some s')
    (hn : n < s.mem.size) (hend : s.mem.Ended n) : s'.mem.Ended n := by
  rcases discipline.step_cases hr hs with
    ⟨i, b, index, f, k, K, rfl, -, he, hfr, hmem, -⟩ | ⟨index, op, fs, rfl, hstart, -⟩
  · have hsound := sound_reach hr
    rw [hfr] at hsound
    rw [hmem]
    exact ended_exec hsound he hn hend
  · exact (ended_start hstart hn).mpr hend

/-- A node that runs after a step ran before it. -/
theorem running_of_step {a : Act} (hr : Reachable s) (hs : machine.step s a = some s')
    (hn : n < s.mem.size) (hrun : s'.mem.Running n) : s.mem.Running n :=
  running_iff.mpr fun hend => running_iff.mp hrun (ended_step hr hs hn hend)

/-! ## Arrived shards -/

/-- The shards of a running node are not stopped. -/
theorem not_stopped_of_running (hr : Reachable s) (hrun : s.mem.Running sh.node) :
    (s.mem.shard sh).stopped = false := by
  by_contra hst
  exact running_iff.mp hrun ((latched_reach hr).latched (by simpa using hst))

/-- A shard that arrived is one of an allocated node. -/
theorem Heap.Wf.hasShard_of_arrived (hw : h.Wf) (ha : (h.shard sh).arrived = true) :
    h.HasShard sh := by
  by_contra hsh
  rw [hw.freshShard hsh] at ha
  cases ha

/-- While its node runs, an arrived shard stays arrived. -/
theorem arrived_step {a : Act} (hr : Reachable s) (hs : machine.step s a = some s')
    (ha : (s.mem.shard sh).arrived = true) (hrun : s.mem.Running sh.node) :
    (s'.mem.shard sh).arrived = true := by
  rcases discipline.step_cases hr hs with
    ⟨i, b, index, f, k, K, rfl, -, -, -, hmem, -⟩ | ⟨index, op, fs, rfl, hstart, -⟩
  · rw [hmem]
    refine arrived_exec ha fun _ hempty => ?_
    have hst := not_stopped_of_running hr hrun
    rw [hempty] at hst
    cases hst
  · obtain ⟨_, _, _, _, _, _, _, _, _, _, he⟩ := start_heap hstart
    rw [he]
    exact ha

theorem arrived_leads {P : State → Act → Prop} (hr : Reachable s) (hl : machine.Leads P s s')
    (ha : (s.mem.shard sh).arrived = true) (hrun : s'.mem.Running sh.node) :
    (s'.mem.shard sh).arrived = true := by
  have hsh := (sound_reach hr).valid.wf.hasShard_of_arrived ha
  induction hl with
  | refl => exact ha
  | step hl _ hs ih =>
      have hr' := hr.leads (hl.mono fun _ _ _ => trivial)
      have hrun' := running_of_step hr' hs (hsh.1.trans_le (extends_leads hl).size) hrun
      exact arrived_step hr' hs (ih hrun') hrun'

/-! ## Calls on an arrived shard -/

/-- The guard that `Interrupt::guarded` creates for an interrupt on `s` is on `sh`, on its
fast path or on its slow path. -/
def ShardId.GuardsOn (index : ℕ) (h : Heap) (s sh : ShardId) : Prop :=
  s = sh ∨ ⟨s.node, h.shardIndex index s.node⟩ = sh

/-- The frame is a point of a call, of `op`, that creates or drops a guard on the shard,
when the shard is arrived and its node runs. -/
def Frame.OnShard (index : ℕ) (h : Heap) (op : Op) (sh : ShardId) : Frame → Prop
  | .guard (.new n _) => ⟨n, h.shardIndex index n⟩ = sh
  | .arrive (.shard s unit) | .arrive (.shardAdd s unit _) => s = sh ∧ unit = .localOne
  | .guard (.finish s _ _ _) => s = sh
  | .guard (.forShard s location) | .guard (.forShardAdd s location _) =>
    op = .guarded s location ∧ s.GuardsOn index h sh
  | .guard (.upgrade s _) => ⟨s.node, h.shardIndex index s.node⟩ = sh
  | .guard (.clone g) | .guard (.cloneAdd g _) | .guard (.drop g) => g.shard = sh
  | .life (.dropArc n) => n = sh.node
  | .life (.release _) | .guard (.release _) | .guard (.dropInfo _) | .guard (.dropValue _ _)
  | .guard (.forShardFinish _ _) | .poll (.drop _) => True
  | _ => False

/-- The operation creates or drops a guard on the shard.  Creating a guard on a node does
so on the calling thread's shard. -/
def Op.OnShard (index : ℕ) (h : Heap) (sh : ShardId) : Op → Prop
  | .guard n _ => ⟨n, h.shardIndex index n⟩ = sh
  | .guarded s _ => s.GuardsOn index h sh
  | .cloneGuard g | .dropGuard g | .dropGuarded g | .dropInterrupt _ (some g) => g.shard = sh
  | _ => False

theorem onShard_start {fr fs : List Frame} {op : Op} (hop : op.OnShard index h sh)
    (hs : start index h fr op = some (h', fs)) : ∀ f ∈ fs, f.OnShard index h' op sh := by
  unfold start at hs
  split at hs <;> simp only [Option.ite_none_right_eq_some, Option.some.injEq, Prod.mk.injEq] at hs <;>
    obtain ⟨-, rfl, rfl⟩ := hs <;> simp only [Op.OnShard] at hop <;>
    simp [Frame.OnShard, hop]

theorem shardIndex_extends (he : h.Extends h') (hn : n < h.size) :
    h'.shardIndex index n = h.shardIndex index n := by
  rw [Heap.shardIndex, Heap.shardIndex, he.shardCount n hn]

/-- A point of a call is one as the memory grows. -/
theorem onShard_extends {op : Op} (he : h.Extends h') (hsh : h.HasShard sh) {f : Frame}
    (hf : f.OnShard index h op sh) : f.OnShard index h' op sh := by
  have hown : ∀ {n : NodeId}, ⟨n, h.shardIndex index n⟩ = sh → ⟨n, h'.shardIndex index n⟩ = sh := by
    rintro n rfl
    rw [shardIndex_extends he hsh.1]
  revert hf
  unfold Frame.OnShard
  split <;> intro hf
  case h_1 => exact hown hf
  case h_5 | h_6 => exact ⟨hf.1, hf.2.imp_right hown⟩
  case h_7 => exact hown hf
  all_goals exact hf

/-- A child has one shard, which any thread uses. -/
theorem own_shard_of_child (hw : h.Wf) (hsh : h.HasShard sh) (hchild : h.isRoot sh.node ≠ true) :
    (⟨sh.node, h.shardIndex index sh.node⟩ : ShardId) = sh := by
  obtain ⟨q, hq⟩ : ∃ q, h.parent sh.node = some q := by
    simpa [Heap.isRoot, ← Option.isSome_iff_exists, Option.isSome_iff_ne_none] using hchild
  have hcount := (hw.parent hq).2.2.2
  have hindex := hsh.2
  rw [hcount] at hindex
  have hzero : sh.index = 0 := by omega
  have hmask : h.shardIndex index sh.node = 0 := by simp [Heap.shardIndex, hcount]
  rw [hmask, ← hzero]

/-- The call is `Interrupt::guarded` on its fast path, and has just counted the guard on
the interrupt's shard `t`; `rest` remains to be run. -/
def Op.CountedOn (op : Op) (t : ShardId) (rest : List Frame) : Prop :=
  ∃ location k, op = .guarded t location ∧ rest = .guard (.forShardFinish t location) :: k

/-- A step of such a call writes no word of a node, and the word of one shard at most: of
`sh`, or of the shard on which `Interrupt::guarded` counts by its fast path. -/
def Heap.Steady (h h' : Heap) (op : Op) (sh : ShardId) (rest : List Frame) : Prop :=
  h'.state = h.state ∧ ∃ t, (t = sh ∨ op.CountedOn t rest) ∧ ∀ u, u ≠ t → h'.shard u = h.shard u

theorem Heap.Steady.of_same {op : Op} {rest : List Frame} (hstate : h'.state = h.state)
    (hshard : ∀ u, u ≠ sh → h'.shard u = h.shard u) : h.Steady h' op sh rest :=
  ⟨hstate, sh, .inl rfl, hshard⟩

/-- The shard's own word may be written. -/
theorem Heap.Steady.setShard {op : Op} {rest : List Frame} {w : ShardWord} :
    h.Steady (h.setShard sh w) op sh rest := by
  refine .of_same rfl fun u hu => ?_
  simp [hu]

theorem Heap.Steady.append {op : Op} {rest k : List Frame} (hs : h.Steady h' op sh rest) :
    h.Steady h' op sh (rest ++ k) := by
  obtain ⟨hstate, t, ht, hshard⟩ := hs
  refine ⟨hstate, t, ht.imp_right ?_, hshard⟩
  rintro ⟨location, l, hop, rfl⟩
  exact ⟨location, l ++ k, hop, rfl⟩

/-- A point at which such a call creates, clones or drops the guard. -/
theorem onShard_execGuard {op : Op} {f : GuardFrame} (hw : h.Wf) (ha : (h.shard sh).arrived = true)
    (hst : (h.shard sh).stopped = false) (hf : (Frame.guard f).OnShard index h op sh) :
    h.Steady (execGuard index choice h f).1 op sh (execGuard index choice h f).2 ∧
      ∀ g ∈ (execGuard index choice h f).2, g.OnShard index h op sh := by
  have hhas := hw.hasShard_of_arrived ha
  -- an interrupt's shard is looked at again: it is `sh`, or the thread's own shard is
  have hnext : ∀ {s : ShardId} {location : Location}, op = .guarded s location →
      s.GuardsOn index h sh → ∀ g ∈ forShardNext s location (h.shard s), g.OnShard index h op sh := by
    intro s location hop hon g hg
    by_cases has : (h.shard s).arrived = true
    · simp [forShardNext, has] at hg
      subst hg
      exact ⟨hop, hon⟩
    · simp [forShardNext, has] at hg
      subst hg
      refine hon.resolve_left ?_
      rintro rfl
      exact has ha
  cases f with
  | new n location =>
      obtain rfl := hf
      refine ⟨.of_same ?_ fun t _ => ?_, fun g hg => ?_⟩
      · simp only [execGuard, provenance]
        split <;> rfl
      · simp only [execGuard, shard_provenance]
      · simp [execGuard] at hg
        rcases hg with rfl | rfl
        · exact ⟨rfl, rfl⟩
        · exact rfl
  | finish s pin location info =>
      simp only [execGuard]
      split <;> exact ⟨.of_same rfl fun _ _ => rfl, by simp⟩
  | forShard s location =>
      obtain ⟨hop, hon⟩ := hf
      refine ⟨.of_same rfl fun _ _ => rfl, fun g hg => ?_⟩
      by_cases hroot : h.isRoot s.node = true
      · simp only [execGuard, hroot, if_true] at hg
        exact hnext hop hon g hg
      · simp [execGuard, hroot] at hg
        subst hg
        rcases hon with rfl | hown
        · exact own_shard_of_child hw hhas hroot
        · exact hown
  | forShardAdd s location state =>
      obtain ⟨hop, hon⟩ := hf
      simp only [execGuard]
      split
      · refine ⟨⟨rfl, s, .inr ⟨location, [], hop, rfl⟩, fun u hu => ?_⟩, fun g hg => ?_⟩
        · simp [hu]
        · obtain rfl := List.mem_singleton.mp hg
          trivial
      · exact ⟨.of_same rfl fun _ _ => rfl, hnext hop hon⟩
  | forShardFinish s location =>
      refine ⟨.of_same ?_ fun t _ => ?_, by simp [execGuard]⟩
      · simp only [execGuard, provenance, returnGuard]
        split <;> rfl
      · simp only [execGuard, returnGuard, shard_provenance]
  | upgrade s location =>
      have hown : (⟨s.node, h.shardIndex index s.node⟩ : ShardId) = sh := hf
      simp only [execGuard]
      split
      · refine ⟨.of_same rfl fun _ _ => rfl, fun g hg => ?_⟩
        simp at hg
        rcases hg with rfl | rfl
        · exact hown
        · have hnode : s.node = sh.node := by rw [← hown]
          exact hnode
      · exact ⟨.of_same rfl fun _ _ => rfl, by simp⟩
  | clone g =>
      obtain rfl := hf
      refine ⟨.of_same ?_ fun t _ => ?_, fun g' hg => ?_⟩
      · simp only [execGuard, provenance]
        split <;> rfl
      · simp only [execGuard, shard_provenance]
      · simp [execGuard] at hg
        subst hg
        exact rfl
  | cloneAdd g info =>
      obtain rfl := hf
      refine ⟨.setShard, fun g' hg => ?_⟩
      simp [execGuard] at hg
      subst hg
      exact rfl
  | drop g =>
      obtain rfl := hf
      -- the shard is not stopped, so there is nothing to flush
      have hne : (h.shard g.shard).sub .localOne ≠ .emptied := fun he => by
        have hsub := ShardWord.sub_stopped (h.shard g.shard) .localOne
        rw [he, hst] at hsub
        cases hsub
      refine ⟨.setShard, fun g' hg => ?_⟩
      simp only [execGuard, if_neg hne, List.nil_append, List.mem_append] at hg
      rcases hg with hg | hg
      · split at hg
        · obtain rfl := List.mem_singleton.mp hg
          exact rfl
        · cases hg
      · split at hg
        · cases hg
        · obtain rfl := List.mem_singleton.mp hg
          trivial
  | release g => exact ⟨.of_same rfl fun _ _ => rfl, by simp [execGuard]⟩
  | dropInfo id => exact ⟨.of_same rfl fun _ _ => rfl, by simp [execGuard]⟩
  | dropValue w g => exact ⟨.of_same rfl fun _ _ => rfl, by simp [execGuard]⟩
  | flushUpgrade s => cases hf

/-- A point of such a call writes no word but the shard's, and goes on with such points. -/
theorem onShard_exec {op : Op} {f : Frame} (hw : h.Wf) (ha : (h.shard sh).arrived = true)
    (hrun : (exec index choice h f).1.Running sh.node) (hst : (h.shard sh).stopped = false)
    (hf : f.OnShard index h op sh) :
    h.Steady (exec index choice h f).1 op sh (exec index choice h f).2 ∧
      ∀ g ∈ (exec index choice h f).2, g.OnShard index h op sh := by
  cases f with
  | arrive f =>
      cases f with
      | shard s unit =>
          obtain ⟨rfl, rfl⟩ := hf
          refine ⟨.of_same rfl fun _ _ => rfl, fun g hg => ?_⟩
          simp [exec, execArrive, arriveNext, ha] at hg
          subst hg
          exact ⟨rfl, rfl⟩
      | shardAdd s unit state =>
          obtain ⟨rfl, rfl⟩ := hf
          simp only [exec, execArrive]
          split
          · exact ⟨.setShard, by simp⟩
          · refine ⟨.of_same rfl fun _ _ => rfl, fun g hg => ?_⟩
            simp [arriveNext, ha] at hg
            subst hg
            exact ⟨rfl, rfl⟩
      | _ => cases hf
  | life f =>
      cases f with
      | dropArc n =>
          obtain rfl := hf
          -- the reference dropped is not the node's last
          have hmore : h.strong sh.node ≠ 1 := fun hone => by
            have hlive := hrun.2
            simp [exec, execLife, Heap.Live, hone] at hlive
          refine ⟨.of_same rfl fun _ _ => rfl, ?_⟩
          simp [exec, execLife, hmore]
      | release n => exact ⟨.of_same rfl fun _ _ => rfl, by simp [exec, execLife]⟩
      | _ => cases hf
  | guard f => exact onShard_execGuard hw ha hst hf
  | poll f =>
      cases f with
      | drop i => exact ⟨.of_same rfl fun _ _ => rfl, by simp [exec, execPoll]⟩
      | _ => cases hf
  | _ => cases hf

/-! ## Whole calls -/

/-- A step of such a call, in a run. -/
theorem onShard_step {i : ℕ} {b : Bool} {op : Op} {f : Frame} {k : List Frame} (hr : Reachable s)
    (hs : machine.step s (.run i b) = some s') (hi : s.pool[i]? = some ⟨index, f :: k⟩)
    (ha : (s.mem.shard sh).arrived = true) (hrun : s'.mem.Running sh.node)
    (hf : f.OnShard index s.mem op sh) :
    s.mem.Steady s'.mem op sh (exec index b s.mem f).2 ∧
      ∀ g ∈ (exec index b s.mem f).2, g.OnShard index s.mem op sh := by
  rcases discipline.step_cases hr hs with
    ⟨j, b', index', f', k', K, hact, hj, -, -, hmem, -⟩ | ⟨index', op, fs, hact, -, -⟩
  · obtain ⟨rfl, rfl⟩ := by simpa using hact
    obtain ⟨rfl, rfl, -⟩ := by simpa using hi.symm.trans hj
    have hw := (sound_reach hr).valid.wf
    have hrun' := running_of_step hr hs (hw.hasShard_of_arrived ha).1 hrun
    have hmem : s'.mem = (exec index b s.mem f).1 := hmem
    rw [hmem] at hrun ⊢
    exact onShard_exec hw ha hrun (not_stopped_of_running hr hrun') hf
  · cases hact

/-- While the node runs, the thread of such a call is at points of it. -/
theorem onShard_leads {P : State → Act → Prop} {i : ℕ} {op : Op} (hr : Reachable s)
    (hl : machine.Leads P s s') (ha : (s.mem.shard sh).arrived = true)
    (hi : ∃ k, s.pool[i]? = some ⟨index, k⟩ ∧ ∀ f ∈ k, f.OnShard index s.mem op sh)
    (hrun : s'.mem.Running sh.node) :
    ∃ k, s'.pool[i]? = some ⟨index, k⟩ ∧ ∀ f ∈ k, f.OnShard index s'.mem op sh := by
  have hsh := (sound_reach hr).valid.wf.hasShard_of_arrived ha
  induction hl with
  | refl => exact hi
  | @step s₁ s₂ a hl _ hs ih =>
      have hr' := hr.leads (hl.mono fun _ _ _ => trivial)
      have hext := extends_leads hl
      have hsh' := hext.hasShard hsh
      have hrun' := running_of_step hr' hs hsh'.1 hrun
      obtain ⟨k, hk, hon⟩ := ih hrun'
      have hkeep : ∀ {f : Frame}, f.OnShard index s₁.mem op sh → f.OnShard index s₂.mem op sh :=
        fun hf => onShard_extends (extends_step hs) hsh' hf
      rcases Machine.step_thread hs hk with ⟨hsame, -⟩ | ⟨b, f, l, rfl, rfl, hmem, hpool⟩
      · exact ⟨k, hsame, fun f hf => hkeep (hon f hf)⟩
      · refine ⟨_, hpool, fun g hg => hkeep ?_⟩
        rcases List.mem_append.mp hg with hg | hg
        · refine (onShard_step hr' hs hk (arrived_leads hr hl ha hrun') hrun ?_).2 g hg
          exact hon f (List.mem_cons_self ..)
        · exact hon g (List.mem_cons_of_mem _ hg)

/-- **Steady state.**  While a node is neither stopped nor collected, a shard of it that
arrived stays arrived; and the steps of a call that creates or drops a guard on the shard,
started after the shard arrived, write no word of a node and no word of another shard, up
to the end of the call and whatever steps come in between.  `Interrupt::guarded` decides on
the shard of its guard as it goes: it is such a call for the interrupt's shard and for the
calling thread's, and if it counts the guard on the interrupt's by its fast path, it
writes the word of that shard alone. -/
theorem steady_guards (hr : Reachable s) (ha : (s.mem.shard sh).arrived = true) :
    (∀ s', machine.Leads (fun _ _ => True) s s' → s'.mem.Running sh.node →
      (s'.mem.shard sh).arrived = true) ∧
    ∀ index op, op.OnShard index s.mem sh → ∀ s₁, machine.step s (.start index op) = some s₁ →
      (s₁.mem.state = s.mem.state ∧ s₁.mem.shard = s.mem.shard) ∧
      ∀ s₂ s₃ b, machine.Leads (fun _ _ => True) s₁ s₂ →
        machine.step s₂ (.run s.pool.length b) = some s₃ → s₃.mem.Running sh.node →
          ∃ k, s₃.pool[s.pool.length]? = some ⟨index, k⟩ ∧ s₂.mem.Steady s₃.mem op sh k := by
  refine ⟨fun s' hl hrun => arrived_leads hr hl ha hrun, fun index op hop s₁ hs₁ => ?_⟩
  have hr₁ : Reachable s₁ := .step hr trivial hs₁
  obtain ⟨⟨h₁, fs⟩, hstart, rfl⟩ := Option.map_eq_some_iff.mp hs₁
  have hsame : h₁.state = s.mem.state ∧ h₁.shard = s.mem.shard := by
    obtain ⟨_, _, _, _, _, _, _, _, _, _, he⟩ := start_heap hstart
    rw [he]
    exact ⟨rfl, rfl⟩
  refine ⟨hsame, fun s₂ s₃ b hl hs₃ hrun => ?_⟩
  have hr₂ := hr₁.leads hl
  have ha₁ : (h₁.shard sh).arrived = true := by rw [hsame.2, ha]
  have hsh := (extends_leads hl).hasShard ((sound_reach hr₁).valid.wf.hasShard_of_arrived ha₁)
  have hrun₂ := running_of_step hr₂ hs₃ hsh.1 hrun
  have hi₁ : ∃ k, (s.pool ++ [⟨index, fs⟩])[s.pool.length]? = some ⟨index, k⟩ ∧
      ∀ f ∈ k, f.OnShard index h₁ op sh := ⟨fs, by simp, onShard_start hop hstart⟩
  obtain ⟨k, hk, hon⟩ := onShard_leads hr₁ hl ha₁ hi₁ hrun₂
  rcases Machine.step_thread hs₃ hk with ⟨-, hno⟩ | ⟨b', f, l, hact, rfl, -, hpool⟩
  · exact absurd rfl (hno b)
  · obtain rfl := by simpa using hact
    have hstep := onShard_step hr₂ hs₃ hk (arrived_leads hr₁ hl ha₁ hrun₂) hrun
      (hon f (List.mem_cons_self ..))
    exact ⟨_, hpool, hstep.1.append⟩

/-- A guard on a root was created and dropped. -/
def droppedGuard : List Act :=
  List.flatten [[.start 0 (.newRoot 2 false), .start 1 (.guard 0 ⟨"src/server.rs", 40, 17⟩)],
    List.replicate 6 (.run 1 false),
    [.start 1 (.dropGuard ⟨0, ⟨0, 1⟩, false, ⟨"src/server.rs", 40, 17⟩, none⟩), .run 2 false]]

/-- `Interrupt::guarded` of an interrupt on the root's other shard, which has not arrived:
it takes the slow path and counts on the thread's shard. -/
theorem steady_guards_droppedGuard : ∃ s s₁ s₂ s₃ : State, Reachable s ∧
    (s.mem.shard ⟨0, 0⟩).arrived = false ∧
    machine.step s (.start 1 (.guarded ⟨0, 0⟩ ⟨"src/server.rs", 52, 9⟩)) = some s₁ ∧
    machine.Leads (fun _ _ => True) s₁ s₂ ∧ machine.step s₂ (.run 3 false) = some s₃ ∧
    (s₂.mem.shard ⟨0, 1⟩).locals = 0 ∧ (s₃.mem.shard ⟨0, 1⟩).locals = 1 ∧
    s₃.mem.state = s₂.mem.state ∧ ∀ t, t ≠ ⟨0, 1⟩ → s₃.mem.shard t = s₂.mem.shard t := by
  obtain ⟨s, hr, hs⟩ := Machine.exists_reachable (M := machine) droppedGuard
    (p := fun s => (s.mem.shard ⟨0, 1⟩).arrived = true ∧ (s.mem.shard ⟨0, 0⟩).arrived = false ∧
      s.mem.shardIndex 1 0 = 1 ∧ s.pool.length = 3 ∧
      ((machine.step s (.start 1 (.guarded ⟨0, 0⟩ ⟨"src/server.rs", 52, 9⟩))).any fun s₁ =>
        (machine.run (fun _ _ => true) s₁ (List.replicate 4 (.run 3 false))).any fun s₂ =>
          (s₂.mem.shard ⟨0, 1⟩).locals = 0 ∧ ((machine.step s₂ (.run 3 false)).any fun s₃ =>
            (s₃.mem.state 0).stopped = false ∧ s₃.mem.Live 0 ∧ (s₃.mem.shard ⟨0, 1⟩).locals = 1 ∧
              s₃.pool[3]?.map Interleave.Thread.stack =
                some [.guard (.finish ⟨0, 1⟩ false ⟨"src/server.rs", 52, 9⟩ none),
                  .life (.dropArc 0)]))) (by decide)
  obtain ⟨ha, hfresh, hindex, hlen, hsteps⟩ := of_decide_eq_true hs
  obtain ⟨s₁, hs₁, hany⟩ := (Option.any_eq_true _ _).mp hsteps
  obtain ⟨s₂, hl, hany⟩ := Machine.exists_leads _ hany
  obtain ⟨h0, hany⟩ := of_decide_eq_true hany
  obtain ⟨s₃, hs₃, hany⟩ := (Option.any_eq_true _ _).mp hany
  obtain ⟨hst, hlive, h1, hstack⟩ := of_decide_eq_true hany
  have hop : (Op.guarded ⟨0, 0⟩ ⟨"src/server.rs", 52, 9⟩).OnShard 1 s.mem ⟨0, 1⟩ :=
    .inr (congrArg (ShardId.mk 0) hindex)
  have hsteady := ((steady_guards hr ha).2 1 _ hop s₁ hs₁).2 s₂ s₃ false hl (hlen ▸ hs₃) ⟨hst, hlive⟩
  obtain ⟨k, hk, hstate, t, ht, hshard⟩ := hsteady
  rw [hlen] at hk
  simp only [hk, Option.map_some, Option.some.injEq] at hstack
  subst hstack
  have hsh : t = ⟨0, 1⟩ := by
    refine ht.resolve_right ?_
    rintro ⟨location, l, -, hfinish⟩
    cases hfinish
  subst hsh
  exact ⟨s, s₁, s₂, s₃, hr, hfresh, hs₁, hl, hs₃, h0, h1, hstate, hshard⟩

end Swansong
