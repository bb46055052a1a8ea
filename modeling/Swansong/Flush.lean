import Swansong.Latch

/-!
# What still has to depart

A latched shard that is left arrived with nothing to count is flushed by a frame in
flight, and a child that is left arrived with no arrived shard departs from its
parent by a frame in flight.  A node only loses its last shard once it has ended, so
no stop comes between that and the departure from the parent.

## Main definitions

* `Flushing`, `flushing_reach` — the invariant.
-/

namespace Swansong

open Interleave (total total_cons)

variable {index : ℕ} {choice : Bool} {h h' : Heap} {fr K : Multiset Frame} {n m c p : NodeId}
  {sh : ShardId}

/-- The frame is about to flush the shard. -/
def Frame.flushes (sh : ShardId) : Frame → Prop
  | .depart (.flush s) | .stop (.drain s true) | .guard (.flushUpgrade s) => s = sh
  | _ => False

/-! ## What empties a shard -/

theorem ShardWord.add_ne_emptied (w : ShardWord) (u : CountUnit) : w.add u ≠ .emptied := by
  cases u <;> simp [add, emptied]

theorem ShardWord.arrive_ne_emptied (w : ShardWord) (u : CountUnit) : w.arrive u ≠ .emptied := by
  cases u <;> simp [arrive, emptied]

theorem ShardWord.idle_of_stop {w : ShardWord} (hw : w.stop = .emptied) : w.idle = true := by
  cases w
  simp_all [stop, emptied, idle]

theorem setShard_eq_emptied {s : ShardId} {w : ShardWord}
    (he : (h.setShard s w).shard sh = .emptied) :
    (sh = s ∧ w = .emptied) ∨ (sh ≠ s ∧ h.shard sh = .emptied) := by
  rcases eq_or_ne sh s with rfl | hne
  · exact .inl ⟨rfl, by simpa using he⟩
  · exact .inr ⟨hne, by simpa [hne] using he⟩

/-- A shard is left arrived with nothing to count: it was before, and this step is not
its flush, or the step leaves its flush to be made. -/
theorem emptied_exec {f : Frame} (he : (exec index choice h f).1.shard sh = .emptied) :
    (h.shard sh = .emptied ∧ f ≠ .depart (.flush sh)) ∨
      ∃ g ∈ (exec index choice h f).2, g.flushes sh := by
  cases f with
  | arrive f =>
      left
      cases f with
      | shard s unit => exact ⟨he, by simp⟩
      | shardAdd s unit state =>
          simp only [exec, execArrive] at he
          split at he
          · rcases setShard_eq_emptied he with ⟨-, he⟩ | ⟨-, he⟩
            · exact absurd he (state.add_ne_emptied unit)
            · exact ⟨he, by simp⟩
          · exact ⟨he, by simp⟩
      | shardCas s unit state =>
          simp only [exec, execArrive] at he
          split at he
          · rcases setShard_eq_emptied he with ⟨-, he⟩ | ⟨-, he⟩
            · exact absurd he (state.arrive_ne_emptied unit)
            · exact ⟨he, by simp⟩
          · exact ⟨he, by simp⟩
      | node m => simp only [exec, execArrive] at he; split at he <;> exact ⟨he, by simp⟩
      | nodeAdd m parent state =>
          simp only [exec, execArrive] at he
          split at he <;> exact ⟨he, by simp⟩
      | nodeCas m up state =>
          simp only [exec, execArrive] at he
          split at he <;> exact ⟨he, by simp⟩
  | depart f =>
      cases f with
      | shard s unit =>
          rcases setShard_eq_emptied he with ⟨rfl, he⟩ | ⟨-, he⟩
          · exact .inr ⟨.depart (.flush sh), by simp [exec, execDepart, he], rfl⟩
          · exact .inl ⟨he, by simp⟩
      | flush s =>
          left
          simp only [exec, execDepart] at he
          split at he
          · rcases setShard_eq_emptied he with ⟨-, he⟩ | ⟨hne, he⟩
            · cases he
            · exact ⟨he, by simpa using hne.symm⟩
          · rename_i hs
            exact ⟨he, fun hf => by simp only [Frame.depart.injEq, DepartFrame.flush.injEq] at hf; exact hs (hf ▸ he)⟩
      | node m => exact .inl ⟨he, by simp⟩
      | nodeCas m parent state =>
          left
          simp only [exec, execDepart] at he
          split at he <;> exact ⟨he, by simp⟩
  | stop f =>
      cases f with
      | shard s =>
          rcases setShard_eq_emptied he with ⟨rfl, he⟩ | ⟨-, he⟩
          · refine .inr ⟨.stop (.drain sh true), ?_, rfl⟩
            simp [exec, execStop, ShardWord.idle_of_stop he]
          · exact .inl ⟨he, by simp⟩
      | liveChildren m i acc =>
          left
          simp only [exec, execStop] at he
          split at he <;> exact ⟨he, by simp⟩
      | _ => exact .inl ⟨he, by simp⟩
  | guard f =>
      cases f with
      | forShardAdd s location state =>
          left
          simp only [exec, execGuard] at he
          split at he
          · rcases setShard_eq_emptied he with ⟨-, he⟩ | ⟨-, he⟩
            · exact absurd he (state.add_ne_emptied .localOne)
            · exact ⟨he, by simp⟩
          · exact ⟨he, by simp⟩
      | cloneAdd g info =>
          rcases setShard_eq_emptied he with ⟨-, he⟩ | ⟨-, he⟩
          · exact absurd he (ShardWord.add_ne_emptied _ .localOne)
          · exact .inl ⟨he, by simp⟩
      | drop g =>
          rcases setShard_eq_emptied he with ⟨rfl, hempty⟩ | ⟨-, he⟩
          · right
            rcases hp : g.pin with _ | _
            · exact ⟨.guard (.flushUpgrade g.shard), by simp [exec, execGuard, hempty, hp], rfl⟩
            · exact ⟨.depart (.flush g.shard), by simp [exec, execGuard, hempty, hp], rfl⟩
          · exact .inl ⟨he, by simp⟩
      | new m location => simp only [exec, execGuard, shard_provenance] at he; exact .inl ⟨he, by simp⟩
      | clone g => simp only [exec, execGuard, shard_provenance] at he; exact .inl ⟨he, by simp⟩
      | forShardFinish s location =>
          simp only [exec, execGuard, returnGuard, shard_provenance] at he
          exact .inl ⟨he, by simp⟩
      | finish s pin location info =>
          simp only [exec, execGuard] at he
          split at he <;> exact .inl ⟨he, by simp⟩
      | upgrade s location =>
          simp only [exec, execGuard] at he
          split at he <;> exact .inl ⟨he, by simp⟩
      | flushUpgrade s =>
          simp only [exec, execGuard] at he
          split at he <;> exact .inl ⟨he, by simp⟩
      | _ => exact .inl ⟨he, by simp⟩
  | _ =>
      rw [shard_exec rfl] at he
      exact .inl ⟨he, by simp⟩

/-- Only a flush takes the arrival of a shard back. -/
theorem arrived_exec {f : Frame} (ha : (h.shard sh).arrived = true)
    (hf : f = .depart (.flush sh) → h.shard sh ≠ .emptied) :
    ((exec index choice h f).1.shard sh).arrived = true := by
  have hset : ∀ {s w}, (s = sh → w.arrived = true) → ((h.setShard s w).shard sh).arrived = true := by
    intro s w hw
    rcases eq_or_ne sh s with rfl | hne
    · simpa using hw rfl
    · simpa [hne] using ha
  cases f with
  | arrive f =>
      cases f with
      | shardAdd s unit state =>
          simp only [exec, execArrive]
          split
          · rename_i hst
            exact hset fun hs => by subst hs; rw [ShardWord.add_arrived, ← hst.1, ha]
          · exact ha
      | shardCas s unit state =>
          simp only [exec, execArrive]
          split
          · exact hset fun _ => ShardWord.arrive_arrived _ _
          · exact ha
      | _ =>
          simp only [exec, execArrive]
          (repeat' split) <;> exact ha
  | depart f =>
      cases f with
      | shard s unit => exact hset fun hs => by subst hs; rw [ShardWord.sub_arrived, ha]
      | flush s =>
          simp only [exec, execDepart]
          split
          · rename_i hs
            exact hset fun he => absurd (he ▸ hs) (hf (by rw [he]))
          · exact ha
      | node m => exact ha
      | nodeCas m parent state => simp only [exec, execDepart]; split <;> exact ha
  | stop f =>
      cases f with
      | shard s => exact hset fun hs => by subst hs; rw [ShardWord.stop_arrived, ha]
      | liveChildren m i acc => simp only [exec, execStop]; split <;> exact ha
      | _ => exact ha
  | guard f =>
      cases f with
      | forShardAdd s location state =>
          simp only [exec, execGuard]
          split
          · rename_i hst
            exact hset fun hs => by subst hs; rw [ShardWord.add_arrived, ← hst.1, ha]
          · exact ha
      | cloneAdd g info => exact hset fun hs => by subst hs; rw [ShardWord.add_arrived, ha]
      | drop g => exact hset fun hs => by subst hs; rw [ShardWord.sub_arrived, ha]
      | new m location => simpa only [exec, execGuard, shard_provenance] using ha
      | clone g => simpa only [exec, execGuard, shard_provenance] using ha
      | forShardFinish s location =>
          simpa only [exec, execGuard, returnGuard, shard_provenance] using ha
      | _ =>
          simp only [exec, execGuard]
          (repeat' split) <;> exact ha
  | _ => rw [shard_exec rfl]; exact ha

/-- Who pushes the departure of a shard from its node: the flush of the shard, or an
arrival that found the shard arrived or stopped in the meantime. -/
theorem mem_exec_departNode {f : Frame} (hf : .depart (.node n) ∈ (exec index choice h f).2) :
    (∃ sh, f = .depart (.flush sh) ∧ sh.node = n ∧ h.shard sh = .emptied) ∨
      ∃ sh unit state, f = .arrive (.shardCas sh unit state) ∧ sh.node = n ∧ h.shard sh ≠ state := by
  cases f with
  | arrive f =>
      cases f with
      | shardCas sh unit state =>
          simp only [exec, execArrive] at hf
          split at hf
          · cases hf
          · rename_i hst
            refine .inr ⟨sh, unit, state, rfl, ?_, hst⟩
            simp only [List.mem_cons, Frame.depart.injEq, DepartFrame.node.injEq] at hf
            rcases hf with rfl | hf
            · rfl
            · unfold arriveNext at hf
              split at hf <;> simp at hf
      | _ =>
          simp only [exec, execArrive, arriveNext, nodeArriveNext] at hf
          (repeat' split at hf) <;> simp at hf
  | depart f =>
      cases f with
      | flush sh =>
          simp only [exec, execDepart] at hf
          split at hf
          · rename_i hs
            exact .inl ⟨sh, rfl, by simpa [eq_comm] using hf, hs⟩
          · cases hf
      | _ =>
          simp only [exec, execDepart] at hf
          (repeat' split at hf) <;> simp at hf
  | stop f => rcases mem_execStop hf with ⟨_, hf⟩ | ⟨_, _, hf⟩ | ⟨_, hf⟩ | ⟨_, hf⟩ <;> cases hf
  | notify event n => simp [exec, execNotify] at hf
  | life f =>
      rcases mem_execLife hf with ⟨_, hf⟩ | ⟨_, -, hf⟩ | ⟨_, hf⟩ | ⟨_, -, hf⟩ | ⟨_, -, hf⟩ <;> cases hf
  | child f => rcases mem_execChild hf with ⟨_, hf⟩ | ⟨_, hf⟩ <;> cases hf
  | guard f => rcases mem_execGuard hf with ⟨_, hf, -⟩ | ⟨_, hf⟩ | ⟨_, hf⟩ | ⟨_, hf⟩ <;> cases hf
  | wait f => rcases mem_execWait hf with ⟨_, hf⟩ | ⟨_, hf⟩ <;> cases hf
  | poll f => obtain ⟨_, hf⟩ := mem_execPoll hf; cases hf
  | walk report todo total out =>
      rcases mem_execWalk hf with ⟨_, _, _, hf⟩ | ⟨_, hf⟩ | ⟨_, -, hf⟩ <;> cases hf

/-! ## The invariant -/

/-- What is still to be departed. -/
structure Flushing (h : Heap) (fr : Multiset Frame) : Prop where
  /-- Only a collected root is not flushed: nothing counts its shards. -/
  emptied : ∀ {sh}, h.shard sh = .emptied →
    (∃ f ∈ fr, f.flushes sh) ∨ h.isRoot sh.node = true ∧ h.strong sh.node = 0
  departing : ∀ {n}, .depart (.node n) ∈ fr →
    (∃ i < h.shardCount n, (h.shard ⟨n, i⟩).arrived = true) ∨ h.Ended n
  departed : ∀ {n q}, h.parent n = some q → (h.state n).arrived = true → (h.state n).shards = 0 →
    h.Ended n ∧ .depart (.nodeCas n q.node (h.state n)) ∈ fr

theorem flushing_emptied {f : Frame} (hs : Sound h (f ::ₘ K)) (he : discipline.Enabled f K)
    (hfl : Flushing h (f ::ₘ K)) (hsh : (exec index choice h f).1.shard sh = .emptied) :
    (∃ g ∈ (↑(exec index choice h f).2 + K : Multiset Frame), g.flushes sh) ∨
      (exec index choice h f).1.isRoot sh.node = true ∧
        (exec index choice h f).1.strong sh.node = 0 := by
  have hcollected : h.HasShard sh → h.isRoot sh.node = true → h.strong sh.node = 0 →
      (exec index choice h f).1.isRoot sh.node = true ∧
        (exec index choice h f).1.strong sh.node = 0 := by
    intro hsh hroot hdead
    refine ⟨(extends_exec.isRoot hsh.1).trans hroot, ?_⟩
    by_contra hlive
    have := live_of_live_exec hs he hsh.1 (Nat.pos_of_ne_zero hlive)
    omega
  rcases emptied_exec hsh with ⟨hpre, hne⟩ | ⟨g, hg, hgf⟩
  · have hst : (h.shard sh).stopped = true := by rw [hpre]; rfl
    have hhas := hs.valid.wf.hasShard_of_stopped hst
    rcases hfl.emptied hpre with ⟨g, hg, hgf⟩ | ⟨hroot, hdead⟩
    · rcases Multiset.mem_cons.mp hg with rfl | hg
      · -- the frame that was to flush the shard is executed: it leaves the flush to be made
        cases g with
        | depart g =>
            cases g with
            | flush s => obtain rfl := hgf; exact absurd rfl hne
            | _ => exact hgf.elim
        | stop g =>
            cases g with
            | drain s empty =>
                cases empty with
                | false => exact hgf.elim
                | true =>
                    obtain rfl := hgf
                    exact .inl ⟨.depart (.flush s), by simp [exec, execStop], rfl⟩
            | _ => exact hgf.elim
        | guard g =>
            cases g with
            | flushUpgrade s =>
                obtain rfl := hgf
                by_cases hlive : h.Live s.node
                · exact .inl ⟨.depart (.flush s), by simp [exec, execGuard, hlive], rfl⟩
                · have hv : h.HasShard s ∧ h.isRoot s.node = true :=
                    hs.valid.frames _ (Multiset.mem_cons_self _ K)
                  exact .inr (hcollected hhas hv.2 (Nat.eq_zero_of_not_pos hlive))
            | _ => exact hgf.elim
        | _ => exact hgf.elim
      · exact .inl ⟨g, Multiset.mem_add.mpr (.inr hg), hgf⟩
    · exact .inr (hcollected hhas hroot hdead)
  · exact .inl ⟨g, Multiset.mem_add.mpr (.inl hg), hgf⟩

theorem flushing_departing {f : Frame} (hs : Sound h (f ::ₘ K)) (he : discipline.Enabled f K)
    (hl : Latched h (f ::ₘ K)) (hfl : Flushing h (f ::ₘ K))
    (hn : .depart (.node n) ∈ (↑(exec index choice h f).2 + K : Multiset Frame)) :
    (∃ i < (exec index choice h f).1.shardCount n,
      ((exec index choice h f).1.shard ⟨n, i⟩).arrived = true) ∨
      (exec index choice h f).1.Ended n := by
  have hkeep : n < h.size → (∃ i < h.shardCount n, (h.shard ⟨n, i⟩).arrived = true) ∨ h.Ended n →
      (∃ i < (exec index choice h f).1.shardCount n,
        ((exec index choice h f).1.shard ⟨n, i⟩).arrived = true) ∨
        (exec index choice h f).1.Ended n := by
    rintro hn (⟨i, hi, ha⟩ | hend)
    · by_cases hf : f = .depart (.flush ⟨n, i⟩) ∧ h.shard ⟨n, i⟩ = .emptied
      · -- a shard that is flushed is latched
        have hst : (h.shard ⟨n, i⟩).stopped = true := by rw [hf.2]; rfl
        have hend : h.Ended n := hl.latched hst
        exact .inr (ended_exec hs he hn hend)
      · refine .inl ⟨i, ?_, arrived_exec ha fun hff hempty => hf ⟨hff, hempty⟩⟩
        rw [extends_exec.shardCount n hn]
        exact hi
    · exact .inr (ended_exec hs he hn hend)
  rcases Multiset.mem_add.mp hn with hn | hn
  · have hv : f.Valid h := hs.valid.frames _ (Multiset.mem_cons_self _ K)
    rcases mem_exec_departNode hn with ⟨sh, rfl, rfl, hempty⟩ | ⟨sh, unit, state, rfl, rfl, hne⟩
    · exact hkeep hv.1 (.inr (hl.latched (by rw [hempty]; rfl)))
    · refine hkeep hv.1.1 ?_
      by_cases ha : (h.shard sh).arrived = true
      · exact .inl ⟨sh.index, hv.1.2, ha⟩
      · -- the shard counts nothing, as when it was loaded, so it was stopped in between
        right
        have hst : (h.shard sh).stopped = true := by
          obtain ⟨hl₁, hk₁⟩ := hs.ledger.unarrived (by simpa using ha)
          obtain ⟨hl₂, hk₂⟩ := hs.ledger.loaded (Multiset.mem_cons_self _ K)
          by_contra hst
          have hstate : state.stopped = false := by
            simpa using fun h => hst (hv.2.2 h)
          refine hne ?_
          have hv2 := hv.2.1
          cases hw : h.shard sh
          cases state
          simp_all
        exact hl.latched hst
  · have hv : n < h.size := hs.valid.frames _ (Multiset.mem_cons_of_mem hn)
    exact hkeep hv (hfl.departing (Multiset.mem_cons_of_mem hn))

/-- The departure that takes a node's last shard finds the node ended. -/
theorem ended_of_last_depart (hs : Sound h (.depart (.node n) ::ₘ K))
    (he : discipline.Enabled (.depart (.node n)) K) (hfl : Flushing h (.depart (.node n) ::ₘ K))
    (h0 : (h.state n).shards - 1 = 0) : h.Ended n := by
  rcases hfl.departing (Multiset.mem_cons_self _ K) with ⟨i, hi, ha⟩ | hend
  · -- another shard is arrived, so the node counts two
    have hahead : 0 < h.ahead (.shards n) := ahead_pos he hs.ledger (Count.bit_of rfl)
    have hpos : 0 < h.shardsArrived n := List.countP_pos_iff.mpr ⟨i, List.mem_range.mpr hi, ha⟩
    simp only [Heap.ahead] at hahead
    omega
  · exact hend

theorem flushing_departed {f : Frame} (hs : Sound h (f ::ₘ K)) (he : discipline.Enabled f K)
    (hfl : Flushing h (f ::ₘ K)) {q : Parent}
    (hp' : (exec index choice h f).1.parent n = some q)
    (ha : ((exec index choice h f).1.state n).arrived = true)
    (h0 : ((exec index choice h f).1.state n).shards = 0) :
    (exec index choice h f).1.Ended n ∧
      .depart (.nodeCas n q.node ((exec index choice h f).1.state n)) ∈
        (↑(exec index choice h f).2 + K : Multiset Frame) := by
  have hv : f.Valid h := hs.valid.frames _ (Multiset.mem_cons_self _ K)
  -- a step that leaves the word alone and is not the departure
  have hsame : (exec index choice h f).1.state n = h.state n →
      f ≠ .depart (.nodeCas n q.node (h.state n)) →
      (exec index choice h f).1.Ended n ∧
        .depart (.nodeCas n q.node ((exec index choice h f).1.state n)) ∈
          (↑(exec index choice h f).2 + K : Multiset Frame) := by
    intro hst hne
    rw [hst] at ha h0 ⊢
    have hn : n < h.size := by
      by_contra hn
      rw [(hs.valid.wf.freshNode (not_lt.mp hn)).1] at ha
      cases ha
    rw [extends_exec.parent n hn] at hp'
    obtain ⟨hend, hmem⟩ := hfl.departed hp' ha h0
    refine ⟨ended_exec hs he hn hend, Multiset.mem_add.mpr (.inr ?_)⟩
    exact (Multiset.mem_cons.mp hmem).resolve_left (Ne.symm hne)
  have hother : ∀ {m w}, (exec index choice h f).1 = h.setState m w → n ≠ m →
      (exec index choice h f).1.state n = h.state n := by
    intro m w hm hne
    rw [hm]
    simp [hne]
  cases f with
  | arrive f =>
      cases f with
      | shard sh unit => exact hsame rfl (by simp)
      | shardAdd sh unit state =>
          refine hsame ?_ (by simp)
          simp only [exec, execArrive]
          split <;> rfl
      | shardCas sh unit state =>
          refine hsame ?_ (by simp)
          simp only [exec, execArrive]
          split <;> rfl
      | node m =>
          rcases hpm : h.parent m with _ | qm
          · have hx : (exec index choice h (.arrive (.node m))).1 = h.setState m (h.state m).add := by
              simp only [exec, execArrive, hpm]
            rcases eq_or_ne n m with rfl | hne
            · rw [extends_exec.parent n hv, hpm] at hp'
              cases hp'
            · exact hsame (hother hx hne) (by simp)
          · exact hsame (by simp only [exec, execArrive, hpm]) (by simp)
      | nodeAdd m parent state =>
          by_cases hc : h.state m = state ∧ !choice
          · have hx : (exec index choice h (.arrive (.nodeAdd m parent state))).1 =
                h.setState m state.add := by
              simp only [exec, execArrive, if_pos hc]
            rcases eq_or_ne n m with rfl | hne
            · simp [hx] at h0
            · exact hsame (hother hx hne) (by simp)
          · exact hsame (by simp only [exec, execArrive, if_neg hc]) (by simp)
      | nodeCas m up state =>
          by_cases hc : h.state m = state
          · have hx : (exec index choice h (.arrive (.nodeCas m up state))).1 =
                h.setState m (state.arriveAt up.index) := by
              simp only [exec, execArrive, if_pos hc]
            rcases eq_or_ne n m with rfl | hne
            · simp [hx, NodeWord.arriveAt] at h0
            · exact hsame (hother hx hne) (by simp)
          · exact hsame (by simp only [exec, execArrive, if_neg hc]) (by simp)
  | depart f =>
      cases f with
      | shard sh unit => exact hsame rfl (by simp)
      | flush sh =>
          refine hsame ?_ (by simp)
          simp only [exec, execDepart]
          split <;> rfl
      | node m =>
          rcases eq_or_ne n m with rfl | hne
          · -- the departure that leaves the node empty has still to depart from the parent
            rw [extends_exec.parent n hv] at hp'
            have hself : (exec index choice h (.depart (.node n))).1.state n = (h.state n).sub := by
              simp [exec, execDepart]
            rw [hself] at h0 ⊢
            refine ⟨ended_exec hs he hv (ended_of_last_depart hs he hfl h0), ?_⟩
            refine Multiset.mem_add.mpr (.inl ?_)
            simp [exec, execDepart, hp', show (h.state n).shards - 1 = 0 from h0]
          · exact hsame (hother rfl hne) (by simp)
      | nodeCas m parent state =>
          by_cases hc : h.state m = state
          · have hx : (exec index choice h (.depart (.nodeCas m parent state))).1 =
                h.setState m state.depart := by
              simp only [exec, execDepart, if_pos hc]
            rcases eq_or_ne n m with rfl | hne
            · simp [hx] at ha
            · exact hsame (hother hx hne) fun hf => by
                simp only [Frame.depart.injEq, DepartFrame.nodeCas.injEq] at hf
                exact hne hf.1.symm
          · refine hsame (by simp only [exec, execDepart, if_neg hc]) fun hf => ?_
            simp only [Frame.depart.injEq, DepartFrame.nodeCas.injEq] at hf
            obtain ⟨rfl, -, rfl⟩ := hf
            exact hc rfl
  | stop f =>
      cases f with
      | node m =>
          rcases eq_or_ne n m with rfl | hne
          · rcases hst : (h.state n).stopped with _ | _
            · -- a node that is still to depart has ended, and whoever stops it keeps it alive
              exfalso
              rw [extends_exec.parent n hv] at hp'
              have hself : (exec index choice h (.stop (.node n))).1.state n = (h.state n).stop := by
                simp [exec, execStop]
              rw [hself] at ha h0
              obtain ⟨hst' | hdead, -⟩ := hfl.departed hp' ha h0
              · rw [hst] at hst'
                cases hst'
              · obtain ⟨k, hk, hkK⟩ := he.below
                have hlive := hs.references.live_of_held hs.borrowed
                  (fun g hg => Multiset.mem_cons_of_mem (hkK g hg)) (show Held n k from hk)
                omega
            · exact hsame (by simp [exec, execStop, NodeWord.stop_of_stopped hst]) (by simp)
          · exact hsame (hother rfl hne) (by simp)
      | liveChildren m i acc =>
          refine hsame ?_ (by simp)
          simp only [exec, execStop]
          split <;> rfl
      | _ => exact hsame rfl (by simp)
  | _ => exact hsame (by rw [state_exec rfl]) (by simp)

theorem flushing_start {fr fs : List Frame} {op : Op} (hs : Sound h fr) (hfl : Flushing h fr)
    (hop : start index h fr op = some (h', fs)) : Flushing h' (↑fs + ↑fr) := by
  have hst : h'.state = h.state ∧ h'.shard = h.shard ∧ h'.parent = h.parent := by
    obtain ⟨_, _, _, _, _, _, _, _, _, _, rfl⟩ := start_heap hop
    exact ⟨rfl, rfl, rfl⟩
  have hold : ∀ {f : Frame}, f ∈ (fr : Multiset Frame) → f ∈ (↑fs + ↑fr : Multiset Frame) :=
    fun hf => Multiset.mem_add.mpr (.inr hf)
  constructor
  · intro sh hsh
    rw [hst.2.1] at hsh
    have hst : (h.shard sh).stopped = true := by rw [hsh]; rfl
    have hlt := (hs.valid.wf.hasShard_of_stopped hst).1
    rcases hfl.emptied hsh with ⟨f, hf, hff⟩ | ⟨hroot, hdead⟩
    · exact .inl ⟨f, hold hf, hff⟩
    · exact .inr ⟨((extends_start hop).isRoot hlt).trans hroot, (strong_start hop hlt).trans hdead⟩
  · intro n hn
    rcases Multiset.mem_add.mp hn with hn | hn
    · cases starts_of_mem_start hop hn
    · have hlt : n < h.size := hs.valid.frames _ hn
      rw [hst.2.1, (extends_start hop).shardCount n hlt, ended_start hop hlt]
      exact hfl.departing hn
  · intro n q hp ha h0
    rw [hst.1] at ha h0 ⊢
    rw [hst.2.2] at hp
    obtain ⟨hend, hmem⟩ := hfl.departed hp ha h0
    exact ⟨(ended_start hop (hs.valid.wf.parent hp).1).mpr hend, hold hmem⟩

theorem flushing_reach {P : State → Act → Prop} {s : State} (hr : machine.Reach P s) :
    Flushing s.mem s.frames := by
  refine discipline.invariant (J := fun h fr => Sound h fr ∧ Latched h fr)
    (fun hr => ⟨sound_reach hr, latched_reach hr⟩) ?_ ?_ ?_ hr
  · exact ⟨by simp [machine, Heap.empty, ShardWord.zero, ShardWord.emptied], by simp,
      by simp [machine, Heap.empty]⟩
  · rintro index b h f K he ⟨hs, hl⟩ - hfl
    exact ⟨flushing_emptied hs he hfl, flushing_departing hs he hl hfl,
      flushing_departed hs he hfl⟩
  · rintro index h fr op h' fs hop ⟨hs, -⟩ - hfl
    exact flushing_start hs hfl hop

end Swansong
