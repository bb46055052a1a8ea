import Swansong.Sound

/-!
# Stop bits

A node ends when it is stopped or collected; then all its shards are latched.  No
other shard is: a shard's stop bit comes from its node.  A latched shard that is left
arrived with nothing to count is flushed, and a child that is left arrived with no
arrived shard departs from its parent.

## Main definitions

* `Heap.Ended` — a node is stopped or collected.
* `Latched`, `latched_reach` — which shards are latched.
* `Flushing`, `flushing_reach` — what still has to depart.
-/

namespace Swansong

open Interleave (total total_cons)
open Count (bit bit_of)

variable {index : ℕ} {choice : Bool} {h h' : Heap} {fr K : Multiset Frame} {n m c p : NodeId}
  {sh : ShardId}

/-- The node is stopped or collected. -/
def Heap.Ended (h : Heap) (n : NodeId) : Prop := (h.state n).stopped = true ∨ h.strong n = 0

/-! ## What sets a stop bit, or collects a node -/

theorem stopped_setState {w : NodeWord} (hw : w.stopped = (h.state m).stopped) :
    ((h.setState m w).state n).stopped = (h.state n).stopped := by
  rcases eq_or_ne n m with rfl | hne
  · simpa using hw
  · simp [hne]

theorem stopped_setShard {s : ShardId} {w : ShardWord} (hw : w.stopped = (h.shard s).stopped) :
    ((h.setShard s w).shard sh).stopped = (h.shard sh).stopped := by
  rcases eq_or_ne sh s with rfl | hne
  · simpa using hw
  · simp [hne]

/-- Only `Inner::stop` sets the stop bit of a node. -/
theorem stopped_exec {f : Frame} (hf : f ≠ .stop (.node n)) :
    ((exec index choice h f).1.state n).stopped = (h.state n).stopped := by
  cases f with
  | arrive f =>
      cases f with
      | shard sh unit => rfl
      | shardAdd sh unit state => simp only [exec, execArrive]; split <;> rfl
      | shardCas sh unit state => simp only [exec, execArrive]; split <;> rfl
      | node m =>
          simp only [exec, execArrive]
          split
          · exact stopped_setState rfl
          · rfl
      | nodeAdd m parent state =>
          simp only [exec, execArrive]
          split
          · rename_i hst; exact stopped_setState (by rw [hst.1]; rfl)
          · rfl
      | nodeCas m up state =>
          simp only [exec, execArrive]
          split
          · rename_i hst; exact stopped_setState (by rw [hst]; rfl)
          · rfl
  | depart f =>
      cases f with
      | shard sh unit => rfl
      | flush sh => simp only [exec, execDepart]; split <;> rfl
      | node m => exact stopped_setState rfl
      | nodeCas m parent state =>
          simp only [exec, execDepart]
          split
          · rename_i hst; exact stopped_setState (by rw [hst]; rfl)
          · rfl
  | stop f =>
      cases f with
      | node m =>
          have hne : n ≠ m := fun he => hf (he ▸ rfl)
          simp [exec, execStop, hne]
      | liveChildren m i acc => simp only [exec, execStop]; split <;> rfl
      | _ => rfl
  | _ => rw [state_exec rfl]

theorem shard_provenance {location : Location} :
    (provenance h sh location).1.shard = h.shard := by
  unfold provenance
  split <;> rfl

/-- Only `Shard::stop` sets the stop bit of a shard. -/
theorem latched_exec {f : Frame} (hf : f ≠ .stop (.shard sh)) :
    ((exec index choice h f).1.shard sh).stopped = (h.shard sh).stopped := by
  cases f with
  | arrive f =>
      cases f with
      | shard s unit => rfl
      | shardAdd s unit state =>
          simp only [exec, execArrive]
          split
          · rename_i hst; exact stopped_setShard (by rw [hst.1]; simp)
          · rfl
      | shardCas s unit state =>
          simp only [exec, execArrive]
          split
          · rename_i hst; exact stopped_setShard (by rw [hst]; simp)
          · rfl
      | node m => simp only [exec, execArrive]; split <;> rfl
      | nodeAdd m parent state => simp only [exec, execArrive]; split <;> rfl
      | nodeCas m up state => simp only [exec, execArrive]; split <;> rfl
  | depart f =>
      cases f with
      | shard s unit => exact stopped_setShard (by simp)
      | flush s =>
          simp only [exec, execDepart]
          split
          · rename_i hst; exact stopped_setShard (by rw [hst]; rfl)
          · rfl
      | node m => rfl
      | nodeCas m parent state => simp only [exec, execDepart]; split <;> rfl
  | stop f =>
      cases f with
      | shard s =>
          have hne : sh ≠ s := fun he => hf (he ▸ rfl)
          simp [exec, execStop, hne]
      | liveChildren m i acc => simp only [exec, execStop]; split <;> rfl
      | _ => rfl
  | guard f =>
      cases f with
      | new m location => simp only [exec, execGuard, shard_provenance]
      | clone g => simp only [exec, execGuard, shard_provenance]
      | forShardAdd s location state =>
          simp only [exec, execGuard]
          split
          · rename_i hst; exact stopped_setShard (by rw [hst.1]; simp)
          · rfl
      | forShardFinish s location => simp only [exec, execGuard, returnGuard, shard_provenance]
      | cloneAdd g info => exact stopped_setShard (by simp)
      | drop g => exact stopped_setShard (by simp)
      | finish s pin location info => simp only [exec, execGuard]; split <;> rfl
      | upgrade s location => simp only [exec, execGuard]; split <;> rfl
      | flushUpgrade s => simp only [exec, execGuard]; split <;> rfl
      | _ => rfl
  | _ => rw [shard_exec rfl]

theorem strong_cloneArc : h.strong n ≤ (h.cloneArc m).strong n := le_update_succ _ _ _

theorem strong_upgradeAll {cs : List NodeId} : h.strong n ≤ (upgradeAll h cs).strong n :=
  Nat.le_add_right _ _

variable (index choice) in
/-- Only the drop of a reference takes one from a strong count. -/
theorem strong_exec {f : Frame} (hn : n < h.size) (hf : f ≠ .life (.dropArc n)) :
    h.strong n ≤ (exec index choice h f).1.strong n := by
  cases f with
  | arrive f =>
      obtain ⟨_, _, he⟩ := execArrive_heap index choice h f
      rw [exec, he]
  | depart f => obtain ⟨_, _, he⟩ := execDepart_heap h f; rw [exec, he]
  | stop f =>
      cases f with
      | liveChildren m i acc =>
          simp only [exec, execStop]
          split
          · exact strong_upgradeAll
          · exact le_rfl
      | _ => exact le_rfl
  | notify event m => exact le_rfl
  | life f =>
      cases f with
      | dropArc m =>
          have hne : n ≠ m := fun he => hf (he ▸ rfl)
          simp [exec, execLife, hne]
      | deregister m => simp only [exec, execLife]; split <;> exact le_rfl
      | cloneArc m => exact strong_cloneArc
      | _ => exact le_rfl
  | child f =>
      cases f with
      | new q => exact strong_cloneArc
      | alloc q s => simp [exec, execChild, hn.ne]
      | register c => simp only [exec, execChild]; split <;> exact le_rfl
      | check c => simp only [exec, execChild]; split <;> exact le_rfl
      | _ => exact le_rfl
  | guard f =>
      have hprov : ∀ {s location}, (provenance h s location).1.strong = h.strong := by
        intro s location
        unfold provenance
        split <;> rfl
      cases f with
      | new m location => simp only [exec, execGuard, hprov, le_rfl]
      | clone g => simp only [exec, execGuard, hprov, le_rfl]
      | forShardFinish s location => simp only [exec, execGuard, returnGuard, hprov, le_rfl]
      | finish s pin location info =>
          simp only [exec, execGuard]
          split
          · exact strong_cloneArc
          · exact le_rfl
      | upgrade s location =>
          simp only [exec, execGuard]
          split
          · exact strong_cloneArc
          · exact le_rfl
      | flushUpgrade s =>
          simp only [exec, execGuard]
          split
          · exact strong_cloneArc
          · exact le_rfl
      | forShardAdd s location state => simp only [exec, execGuard]; split <;> exact le_rfl
      | _ => exact le_rfl
  | wait f =>
      cases f with
      | create event m blocking =>
          simp only [exec, execWait]
          split <;> exact strong_cloneArc
      | _ =>
          simp only [exec, execWait, waitReady]
          (repeat' split) <;> exact le_rfl
  | poll f => obtain ⟨_, _, he⟩ := execPoll_heap choice h f; rw [exec, he]
  | walk report todo count out =>
      rcases todo with _ | ⟨item, todo⟩
      · exact le_rfl
      · cases item with
        | children m i acc =>
            simp only [exec, execWalk]
            split
            · exact strong_upgradeAll
            · exact le_rfl
        | shard s => simp only [exec, execWalk]; split <;> exact le_rfl
        | _ => exact le_rfl

/-! ## Ended nodes -/

theorem ended_exec {f : Frame} (hs : Sound h (f ::ₘ K)) (he : discipline.Enabled f K)
    (hn : n < h.size) (hend : h.Ended n) : (exec index choice h f).1.Ended n := by
  rcases hend with hst | hdead
  · exact .inl (extends_exec.stopped n hst)
  · right
    by_contra hlive
    have := live_of_live_exec hs he hn (Nat.pos_of_ne_zero hlive)
    omega

/-- What ends a node. -/
theorem ended_exec_cases {f : Frame} (hn : n < h.size) (hend : (exec index choice h f).1.Ended n) :
    h.Ended n ∨ f = .stop (.node n) ∨ f = .life (.dropArc n) ∧ h.strong n = 1 := by
  rcases hend with hst | hdead
  · by_cases hf : f = .stop (.node n)
    · exact .inr (.inl hf)
    · rw [stopped_exec hf] at hst
      exact .inl (.inl hst)
  · by_cases hf : f = .life (.dropArc n)
    · subst hf
      have : h.strong n - 1 = 0 := by simpa [exec, execLife] using hdead
      rcases Nat.eq_zero_or_pos (h.strong n) with h0 | h0
      · exact .inl (.inr h0)
      · exact .inr (.inr ⟨rfl, by omega⟩)
    · have := strong_exec index choice hn hf
      exact .inl (.inr (by omega))

/-- Starting an operation leaves the references to allocated nodes alone. -/
theorem strong_start {fr fs : List Frame} {op : Op} (hs : start index h fr op = some (h', fs))
    (hn : n < h.size) : h'.strong n = h.strong n := by
  unfold start at hs
  split at hs <;> simp only [Option.ite_none_right_eq_some, Option.some.injEq, Prod.mk.injEq] at hs <;>
    obtain ⟨-, rfl, -⟩ := hs
  case h_1 => simp [newRoot, hn.ne]
  all_goals rfl

theorem ended_start {fr fs : List Frame} {op : Op} (hs : start index h fr op = some (h', fs))
    (hn : n < h.size) : h'.Ended n ↔ h.Ended n := by
  have hst : h'.state = h.state := by
    obtain ⟨_, _, _, _, _, _, _, _, _, _, rfl⟩ := start_heap hs
    rfl
  rw [Heap.Ended, Heap.Ended, hst, strong_start hs hn]

/-! ## Which shards are latched -/

theorem mem_shards_of_hasShard (hsh : h.HasShard sh) : sh ∈ h.shards sh.node := by
  simpa [Heap.shards] using ⟨sh.index, hsh.2, rfl⟩

/-- Who pushes the stop of a shard. -/
theorem mem_exec_stopShard {f : Frame} (hf : .stop (.shard sh) ∈ (exec index choice h f).2) :
    (f = .stop (.node sh.node) ∨ f = .life (.dropArc sh.node) ∧ h.strong sh.node = 1) := by
  cases f with
  | arrive f => rcases mem_execArrive hf with ⟨_, hf⟩ | ⟨_, hf⟩ | ⟨_, hf⟩ <;> cases hf
  | depart f => rcases mem_execDepart hf with ⟨_, hf⟩ | ⟨_, hf⟩ <;> cases hf
  | stop f =>
      cases f <;> simp only [exec, execStop] at hf <;> (repeat' split at hf) <;>
        simp [mem_stopShards, Heap.shards] at hf
      all_goals (obtain ⟨i, -, rfl⟩ := hf; exact .inl rfl)
  | notify event n => simp [exec, execNotify] at hf
  | life f =>
      cases f <;> simp only [exec, execLife, collect] at hf <;> (repeat' split at hf) <;>
        simp [mem_stopShards, Heap.shards] at hf
      all_goals (obtain ⟨i, -, rfl⟩ := hf; exact .inr ⟨rfl, ‹_›⟩)
  | child f => rcases mem_execChild hf with ⟨_, hf⟩ | ⟨_, hf⟩ <;> cases hf
  | guard f => rcases mem_execGuard hf with ⟨_, hf, -⟩ | ⟨_, hf⟩ | ⟨_, hf⟩ | ⟨_, hf⟩ <;> cases hf
  | wait f => rcases mem_execWait hf with ⟨_, hf⟩ | ⟨_, hf⟩ <;> cases hf
  | poll f => obtain ⟨_, hf⟩ := mem_execPoll hf; cases hf
  | walk report todo total out =>
      rcases mem_execWalk hf with ⟨_, _, _, hf⟩ | ⟨_, hf⟩ | ⟨_, -, hf⟩ <;> cases hf

/-- A node that a step allocates has not ended. -/
theorem not_ended_of_fresh {f : Frame} (hw : h.Wf) (hn : h.size ≤ n)
    (hn' : n < (exec index choice h f).1.size) : ¬(exec index choice h f).1.Ended n := by
  cases f with
  | arrive f =>
      obtain ⟨_, _, he⟩ := execArrive_heap index choice h f
      rw [exec, he] at hn'
      exact absurd hn' (not_lt.mpr hn)
  | depart f =>
      obtain ⟨_, _, he⟩ := execDepart_heap h f
      rw [exec, he] at hn'
      exact absurd hn' (not_lt.mpr hn)
  | stop f =>
      obtain ⟨_, _, _, _, _, _, he⟩ := execStop_heap h f
      rw [exec, he] at hn'
      exact absurd hn' (not_lt.mpr hn)
  | notify event m => exact absurd hn' (not_lt.mpr hn)
  | life f =>
      obtain ⟨_, _, _, _, _, _, he⟩ := execLife_heap h f
      rw [exec, he] at hn'
      exact absurd hn' (not_lt.mpr hn)
  | child f =>
      cases f with
      | alloc q s =>
          have hn' : n < h.size + 1 := hn'
          obtain rfl : n = h.size := by lia
          have hstate : (h.state h.size).stopped = false := by rw [(hw.freshNode le_rfl).1]; rfl
          simp [Heap.Ended, exec, execChild, hstate]
      | register c => simp only [exec, execChild] at hn'; split at hn' <;> exact absurd hn' (not_lt.mpr hn)
      | check c => simp only [exec, execChild] at hn'; split at hn' <;> exact absurd hn' (not_lt.mpr hn)
      | _ => exact absurd hn' (not_lt.mpr hn)
  | guard f =>
      obtain ⟨_, _, _, _, _, _, _, _, he⟩ :=
        execGuard_heap index choice h f
      rw [exec, he] at hn'
      exact absurd hn' (not_lt.mpr hn)
  | wait f =>
      obtain ⟨_, _, _, _, he⟩ := execWait_heap h f
      rw [exec, he] at hn'
      exact absurd hn' (not_lt.mpr hn)
  | poll f =>
      obtain ⟨_, _, he⟩ := execPoll_heap choice h f
      rw [exec, he] at hn'
      exact absurd hn' (not_lt.mpr hn)
  | walk report todo total out =>
      obtain ⟨_, _, _, he⟩ := execWalk_heap h report total out todo
      rw [exec, he] at hn'
      exact absurd hn' (not_lt.mpr hn)

theorem Heap.Extends.hasShard_of_lt (he : h.Extends h') (hn : sh.node < h.size)
    (hsh : h'.HasShard sh) : h.HasShard sh := by
  refine ⟨hn, ?_⟩
  rw [← he.shardCount _ hn]
  exact hsh.2

/-- The shards of a node are latched exactly if the node ended, or are about to be. -/
structure Latched (h : Heap) (fr : Multiset Frame) : Prop where
  latched : ∀ {sh}, (h.shard sh).stopped = true → h.Ended sh.node
  latching : ∀ {sh}, .stop (.shard sh) ∈ fr → h.Ended sh.node
  ended : ∀ {sh}, h.HasShard sh → h.Ended sh.node →
    (h.shard sh).stopped = true ∨ .stop (.shard sh) ∈ fr

/-- A shard with a stop bit is one of an allocated node. -/
theorem Heap.Wf.hasShard_of_stopped (hw : h.Wf) (hst : (h.shard sh).stopped = true) :
    h.HasShard sh := by
  by_contra hsh
  rw [hw.freshShard hsh] at hst
  cases hst

theorem latched_exec_step {f : Frame} (hs : Sound h (f ::ₘ K)) (he : discipline.Enabled f K)
    (hl : Latched h (f ::ₘ K)) :
    Latched (exec index choice h f).1 (↑(exec index choice h f).2 + K) where
  latched {sh} hst := by
    by_cases hf : f = .stop (.shard sh)
    · subst hf
      have hsh : h.HasShard sh := hs.valid.frames _ (Multiset.mem_cons_self _ K)
      exact ended_exec hs he hsh.1 (hl.latching (Multiset.mem_cons_self _ K))
    · rw [latched_exec hf] at hst
      exact ended_exec hs he (hs.valid.wf.hasShard_of_stopped hst).1 (hl.latched hst)
  latching {sh} hf := by
    rcases Multiset.mem_add.mp hf with hf | hf
    · rcases mem_exec_stopShard hf with rfl | ⟨rfl, hone⟩
      · exact .inl (by simp [exec, execStop])
      · exact .inr (by simp [exec, execLife, hone])
    · have hsh : h.HasShard sh := hs.valid.frames _ (Multiset.mem_cons_of_mem hf)
      exact ended_exec hs he hsh.1 (hl.latching (Multiset.mem_cons_of_mem hf))
  ended {sh} hsh hend := by
    rcases Nat.lt_or_ge sh.node h.size with hn | hn
    · have hsh := extends_exec.hasShard_of_lt hn hsh
      by_cases hpre : h.Ended sh.node
      · rcases hl.ended hsh hpre with hst | hmem
        · exact .inl (extends_exec.latched sh hst)
        · rcases Multiset.mem_cons.mp hmem with rfl | hmem
          · exact .inl (by simp [exec, execStop])
          · exact .inr (Multiset.mem_add.mpr (.inr hmem))
      · right
        refine Multiset.mem_add.mpr (.inl ?_)
        have hmem : .stop (.shard sh) ∈ stopShards h sh.node :=
          mem_stopShards.mpr ⟨sh, mem_shards_of_hasShard hsh, rfl⟩
        rcases ended_exec_cases hn hend with hpre' | rfl | ⟨rfl, hone⟩
        · exact absurd hpre' hpre
        · have hst : (h.state sh.node).stopped = false := by
            simpa using fun hst => hpre (.inl hst)
          simp [exec, execStop, hst, hmem]
        · simp [exec, execLife, collect, hone, hmem]
    · exact absurd hend (not_ended_of_fresh hs.valid.wf hn hsh.1)

/-- A root that an operation allocates has not ended. -/
theorem not_ended_of_fresh_start {fr fs : List Frame} {op : Op} (hw : h.Wf)
    (hs : start index h fr op = some (h', fs)) (hn : h.size ≤ n) (hn' : n < h'.size) :
    ¬h'.Ended n := by
  unfold start at hs
  split at hs <;> simp only [Option.ite_none_right_eq_some, Option.some.injEq, Prod.mk.injEq] at hs <;>
    obtain ⟨-, rfl, -⟩ := hs
  case h_1 =>
    have hn' : n < h.size + 1 := hn'
    obtain rfl : n = h.size := by lia
    have hstate : (h.state h.size).stopped = false := by rw [(hw.freshNode le_rfl).1]; rfl
    simp [Heap.Ended, newRoot, hstate]
  all_goals exact absurd hn' (not_lt.mpr hn)

theorem latched_start {fr fs : List Frame} {op : Op} (hw : h.Wf)
    (hv : ∀ f ∈ fr, f.Valid h) (hl : Latched h fr) (hs : start index h fr op = some (h', fs)) :
    Latched h' (↑fs + ↑fr) := by
  have hshard : h'.shard = h.shard := by
    obtain ⟨_, _, _, _, _, _, _, _, _, _, rfl⟩ := start_heap hs
    rfl
  constructor
  · intro sh hst
    rw [hshard] at hst
    exact (ended_start hs (hw.hasShard_of_stopped hst).1).mpr (hl.latched hst)
  · intro sh hf
    rcases Multiset.mem_add.mp hf with hf | hf
    · cases starts_of_mem_start hs hf
    · have hsh : h.HasShard sh := hv _ hf
      exact (ended_start hs hsh.1).mpr (hl.latching hf)
  · intro sh hsh hend
    rcases Nat.lt_or_ge sh.node h.size with hn | hn
    · rw [hshard]
      refine (hl.ended ((extends_start hs).hasShard_of_lt hn hsh) ((ended_start hs hn).mp hend)).imp_right ?_
      exact fun hf => Multiset.mem_add.mpr (.inr hf)
    · exact absurd hend (not_ended_of_fresh_start hw hs hn hsh.1)

theorem latched_reach {P : State → Act → Prop} {s : State} (hr : machine.Reach P s) :
    Latched s.mem s.frames := by
  refine discipline.invariant (J := Sound) sound_reach ?_ ?_ ?_ hr
  · exact ⟨by simp [machine, Heap.empty], by simp, by simp [machine, Heap.empty, Heap.HasShard]⟩
  · intro index b h f K he hs _ hl
    exact latched_exec_step hs he hl
  · intro index h fr op h' fs hop hs _ hl
    exact latched_start hs.valid.wf hs.valid.frames hl hop

end Swansong
