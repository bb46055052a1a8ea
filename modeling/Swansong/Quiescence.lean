import Swansong.Flush
import Swansong.Propagation

/-!
# Words at quiescence

When no operation is in flight, every count is exactly what it counts: what the
frames owed was paid.  A collected child is counted nowhere.

## Main definitions

* `Quiescent` — only waits and polls are in flight.
* `Exact`, `exact_of_quiescent` — the words of the live nodes.
-/

namespace Swansong

open Interleave (total total_eq_zero)
open Count (bit bit_of)

variable {h : Heap} {s : State} {n m c p : NodeId} {sh : ShardId}

/-- The frame waits or polls, or is what such a call does when it returns. -/
def Frame.idle : Frame → Bool
  | .wait _ | .poll _ | .life (.dropHandle _) | .life (.release _) | .life (.shutDownReturn _)
  | .guard (.release _) => true
  | _ => false

/-- No operation is in flight: at most, threads and tasks wait. -/
def Quiescent (s : State) : Prop := ∀ f ∈ s.frames, f.idle = true

theorem Quiescent.stopsDone (hq : Quiescent s) : StopsDone s where
  stop f hf := by cases hq _ hf
  child f hf := by cases hq _ hf

/-- At quiescence nothing is owed. -/
theorem Quiescent.total_eq_zero (hq : Quiescent s) {w : Frame → ℤ}
    (hw : ∀ f : Frame, f.idle = true → w f = 0) : total w s.frames = 0 :=
  Interleave.total_eq_zero fun f hf => hw f (hq f (Multiset.mem_coe.mp hf))

theorem Frame.weight_of_idle {a : Account} {f : Frame} (hf : f.idle = true) : f.weight a = 0 := by
  unfold weight
  split <;> first
    | rfl
    | cases hf

/-- At quiescence every count is what it counts. -/
theorem Quiescent.ahead (hq : Quiescent s) (hr : Reachable s) (a : Account) : s.mem.ahead a = 0 :=
  ((sound_reach hr).ledger.balanced a).trans (hq.total_eq_zero fun _ => Frame.weight_of_idle)

/-- The live children arrived at the shard. -/
def Heap.liveKidsArrived (h : Heap) (sh : ShardId) : ℕ :=
  (List.range h.size).countP fun c => h.Live c ∧ h.ArrivedAt c sh

/-- The words of the live nodes. -/
structure Exact (h : Heap) : Prop where
  /-- A shard's low field is the number of the guards homed on it. -/
  locals : ∀ sh, h.HasShard sh → h.Live sh.node → (h.shard sh).locals = h.homed sh
  /-- A shard's kids field is the number of the live children arrived with its index. -/
  kids : ∀ sh, h.HasShard sh → h.Live sh.node → (h.shard sh).kids = h.liveKidsArrived sh
  /-- A node's low field is the number of its arrived shards. -/
  shards : ∀ n, h.Live n → (h.state n).shards = h.shardsArrived n
  /-- A child is arrived exactly if its count is nonzero. -/
  arrived : ∀ n q, h.parent n = some q → h.Live n →
    ((h.state n).arrived = true ↔ (h.state n).shards ≠ 0)
  /-- A stopped shard is arrived exactly if it counts something. -/
  stopped : ∀ sh, h.HasShard sh → h.Live sh.node → (h.shard sh).stopped = true →
    ((h.shard sh).arrived = true ↔ (h.shard sh).locals ≠ 0 ∨ (h.shard sh).kids ≠ 0)

/-- At quiescence a stopped shard that is arrived counts something, unless it is one of a
collected root. -/
theorem Quiescent.counted_of_arrived (hq : Quiescent s) (hr : Reachable s)
    (hroot : s.mem.isRoot sh.node = true → s.mem.Live sh.node)
    (hst : (s.mem.shard sh).stopped = true) (ha : (s.mem.shard sh).arrived = true) :
    (s.mem.shard sh).locals ≠ 0 ∨ (s.mem.shard sh).kids ≠ 0 := by
  by_contra hc
  have hempty : s.mem.shard sh = .emptied := by
    simp only [not_or, not_not] at hc
    cases hw : s.mem.shard sh
    simp_all [ShardWord.emptied]
  rcases (flushing_reach hr).emptied hempty with ⟨f, hf, hff⟩ | ⟨hisroot, hdead⟩
  · have hidle := hq f (Multiset.mem_coe.mp hf)
    unfold Frame.flushes at hff
    split at hff
    · cases hidle
    · cases hidle
    · cases hidle
    · exact hff
  · have hlive : 0 < s.mem.strong sh.node := hroot hisroot
    omega

/-- At quiescence a child is arrived exactly if its count is nonzero. -/
theorem Quiescent.arrived_iff (hq : Quiescent s) (hr : Reachable s) {q : Parent}
    (hp : s.mem.parent n = some q) :
    (s.mem.state n).arrived = true ↔ (s.mem.state n).shards ≠ 0 := by
  constructor
  · intro ha h0
    obtain ⟨-, hf⟩ := (flushing_reach hr).departed hp ha h0
    cases hq _ (Multiset.mem_coe.mp hf)
  · intro h0
    by_contra ha
    exact h0 ((sound_reach hr).valid.wf.unarrived hp (by simpa using ha)).1

/-- No guard is homed on a collected child. -/
theorem homed_of_collected {fr : Multiset Frame} (hs : Sound h fr) {q : Parent}
    (hp : h.parent c = some q) (hdead : h.strong c = 0) (i : ℕ) : h.homed ⟨c, i⟩ = 0 := by
  refine List.countP_eq_zero.mpr fun g hg hgs => ?_
  have hgsh : g.shard = ⟨c, i⟩ := by simpa using hgs
  have hpin : g.pin = true := by
    rw [(hs.valid.wf.guards g hg).2, hgsh]
    simp [Heap.isRoot, hp]
  have hlive := hs.references.live_of_guard hg hpin
  rw [hgsh] at hlive
  exact absurd hlive (by simp [hdead])

/-- The children of a collected node are collected. -/
theorem collected_of_arrivedAt {fr : Multiset Frame} (hs : Sound h fr) (hd : h.ArrivedAt m sh)
    (hdead : h.strong sh.node = 0) :
    ∃ q, h.parent m = some q ∧ sh.node < m ∧ h.strong m = 0 := by
  obtain ⟨-, hpd, -⟩ := hd
  obtain ⟨q, hq, hnode⟩ := Option.map_eq_some_iff.mp hpd
  obtain ⟨hlt, hbelow, -⟩ := hs.valid.wf.parent hq
  refine ⟨q, hq, hnode ▸ hbelow, ?_⟩
  by_contra hlive
  have := hs.references.live_parent hlt hq (Nat.pos_of_ne_zero hlive)
  rw [hnode] at this
  omega

/-- At quiescence a collected child is not arrived: its guards and its children are gone,
so its shards were flushed and it departed.  The induction is from the leaves up. -/
theorem Quiescent.unarrived_of_collected (hq : Quiescent s) (hr : Reachable s) :
    ∀ {k c : ℕ} {q : Parent}, s.mem.size ≤ c + k → s.mem.parent c = some q → s.mem.strong c = 0 →
      (s.mem.state c).arrived = false := by
  have hs := sound_reach hr
  have hw := hs.valid.wf
  intro k
  induction k with
  | zero => intro c q hk hp; exact absurd (hw.parent hp).1 (not_lt.mpr hk)
  | succ k ih =>
      intro c q hk hp hdead
      have hnone : s.mem.shardsArrived c = 0 := by
        refine List.countP_eq_zero.mpr fun i hi hai => ?_
        let sh : ShardId := ⟨c, i⟩
        have hsh : s.mem.HasShard sh := ⟨(hw.parent hp).1, List.mem_range.mp hi⟩
        have hst : (s.mem.shard sh).stopped = true :=
          ((latched_reach hr).ended hsh (.inr hdead)).resolve_right fun hf => by
            cases hq _ (Multiset.mem_coe.mp hf)
        have hkids : s.mem.kidsArrived sh = 0 := by
          refine List.countP_eq_zero.mpr fun d _ hd => ?_
          have hd : s.mem.ArrivedAt d sh := by simpa using hd
          obtain ⟨q', hq', hlt, hdead'⟩ := collected_of_arrivedAt hs hd hdead
          have hlt : c < d := hlt
          have ha := hd.1
          rw [ih (by omega) hq' hdead'] at ha
          cases ha
        have hlocal := hq.ahead hr (.locals sh)
        have hkid := hq.ahead hr (.kids sh)
        have hhomed : s.mem.homed sh = 0 := homed_of_collected hs hp hdead i
        simp only [Heap.ahead, hkids] at hlocal hkid
        have hchild : s.mem.isRoot sh.node = true → s.mem.Live sh.node := by
          simp [Heap.isRoot, sh, hp]
        rcases hq.counted_of_arrived hr hchild hst hai with hc | hc
        · omega
        · omega
      by_contra ha
      refine (hq.arrived_iff hr hp).mp (by simpa using ha) ?_
      have hshards := hq.ahead hr (.shards c)
      simp only [Heap.ahead] at hshards
      omega

/-- **Conservation.**  At quiescence the words of the live nodes are exact. -/
theorem exact_of_quiescent (hr : Reachable s) (hq : Quiescent s) : Exact s.mem := by
  have hs := sound_reach hr
  have hw := hs.valid.wf
  constructor
  · intro sh _ _
    have := hq.ahead hr (.locals sh)
    simp only [Heap.ahead] at this
    omega
  · intro sh _ _
    have hahead := hq.ahead hr (.kids sh)
    have hlive : s.mem.liveKidsArrived sh = s.mem.kidsArrived sh := by
      refine Count.countP_range_congr fun c hc => decide_eq_decide.mpr ?_
      refine ⟨fun h => h.2, fun h => ⟨?_, h⟩⟩
      obtain ⟨ha, hp, -⟩ := h
      obtain ⟨q, hq', -⟩ := Option.map_eq_some_iff.mp hp
      by_contra hdead
      rw [hq.unarrived_of_collected hr (k := s.mem.size) (Nat.le_add_left _ _) hq'
        (Nat.eq_zero_of_not_pos hdead)] at ha
      cases ha
    simp only [Heap.ahead] at hahead
    omega
  · intro n _
    have := hq.ahead hr (.shards n)
    simp only [Heap.ahead] at this
    omega
  · intro n q hp _
    exact hq.arrived_iff hr hp
  · intro sh _ hlive hst
    exact ⟨hq.counted_of_arrived hr (fun _ => hlive) hst, fun hc => hs.arrived_of_counted hc⟩

end Swansong
