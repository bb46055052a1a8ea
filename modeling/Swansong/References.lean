import Swansong.Borrow
import Swansong.Lib.Count

/-!
# Strong references and handles

A node's strong count is the number of values that hold its `Arc`: handles, observers,
pinned guards, live children, and locals of the frames in flight.  So a node is only
collected when none of these is left, and whatever a frame works on is alive.

A root's count of handles is kept the same way.

## Main definitions

* `References`, `references_reach` — the strong counts.
* `Counted`, `counted_reach` — the handle counts.
-/

namespace Swansong

open Interleave (total total_zero total_cons total_add total_coe_cons total_coe_append total_nil
  total_eq_zero total_nonneg le_total)
open Count (bit bit_of bit_of_not)

variable {index : ℕ} {choice : Bool} {h h' : Heap} {n m c p : NodeId} {sh : ShardId}
  {K : Multiset Frame}

/-! ## What holds a node -/

namespace Heap
variable (h : Heap)

/-- The observers of the node. -/
def observed (n : NodeId) : ℕ := h.observers.countP fun o => o.node = n

/-- The guards that pin the node. -/
def pinned (n : NodeId) : ℕ := h.guards.countP fun g => g.pin && g.shard.node = n

/-- The live children of the node. -/
def liveKids (n : NodeId) : ℕ :=
  (List.range h.size).countP fun c => 0 < h.strong c ∧ (h.parent c).map Parent.node = some n

/-- The strong references that no value accounts for. -/
def loose (n : NodeId) : ℤ :=
  h.strong n - h.handles n - h.observed n - h.pinned n - h.liveKids n

end Heap

/-- The references that a walk still has to drop. -/
noncomputable def WalkItem.refs (n : NodeId) : WalkItem → ℤ
  | .children _ _ acc => acc.count n
  | .release c => bit (c = n)
  | _ => 0

/-- The references that a frame holds. -/
noncomputable def Frame.refs (n : NodeId) : Frame → ℤ
  | .stop (.liveChildren _ _ acc) => acc.count n
  | .life (.dropArc m) | .life (.dropHandle m) => bit (m = n)
  | .child (.alloc p _) => bit (p = n)
  | .child (.register c) | .child (.storeKey c _) | .child (.check c) | .child (.done c) =>
      bit (c = n)
  | .guard (.drop g) => bit (g.pin = true ∧ g.shard.node = n)
  | .wait (.stopped o _) | .wait (.zero o _) | .wait (.listen o _) | .wait (.stoppedAgain o _ _)
  | .wait (.zeroAgain o _ _) | .wait (.park o _ _) => bit (o.node = n)
  | .walk _ todo _ _ => total (WalkItem.refs n) ↑todo
  | _ => 0

theorem WalkItem.refs_nonneg (item : WalkItem) : 0 ≤ item.refs n := by
  cases item <;> simp [refs, Count.bit_nonneg]

theorem Frame.refs_nonneg (f : Frame) : 0 ≤ f.refs n := by
  unfold refs
  split <;> first
    | exact Count.bit_nonneg _
    | exact total_nonneg WalkItem.refs_nonneg _
    | omega

/-- The strong counts are the values and the frames that hold the nodes. -/
def References (h : Heap) (fr : Multiset Frame) : Prop := ∀ n, h.loose n = total (Frame.refs n) fr

namespace References
variable {fr : Multiset Frame} (hr : References h fr)
include hr

theorem loose_nonneg : 0 ≤ h.loose n := (hr n).symm ▸ total_nonneg Frame.refs_nonneg fr

/-- A frame that holds a node keeps it alive. -/
theorem live_of_refs {f : Frame} (hf : f ∈ fr) (hn : 0 < f.refs n) : 0 < h.strong n := by
  have hle := le_total (w := Frame.refs n) Frame.refs_nonneg hf
  have := hr n
  simp only [Heap.loose] at this
  omega

theorem live_of_handle (hn : 0 < h.handles n) : 0 < h.strong n := by
  have := hr.loose_nonneg (n := n)
  simp only [Heap.loose] at this
  omega

theorem live_of_observer {o : Observer} (ho : o ∈ h.observers) : 0 < h.strong o.node := by
  have hpos : 0 < h.observed o.node := List.countP_pos_iff.mpr ⟨o, ho, by simp⟩
  have := hr.loose_nonneg (n := o.node)
  simp only [Heap.loose] at this
  omega

theorem live_of_guard {g : Guard} (hg : g ∈ h.guards) (hp : g.pin = true) :
    0 < h.strong g.shard.node := by
  have hpos : 0 < h.pinned g.shard.node := List.countP_pos_iff.mpr ⟨g, hg, by simp [hp]⟩
  have := hr.loose_nonneg (n := g.shard.node)
  simp only [Heap.loose] at this
  omega

/-- A live child keeps its parent alive. -/
theorem live_parent {q : Parent} (hc : c < h.size) (hp : h.parent c = some q)
    (hlive : 0 < h.strong c) : 0 < h.strong q.node := by
  have hpos : 0 < h.liveKids q.node :=
    List.countP_pos_iff.mpr ⟨c, List.mem_range.mpr hc, by simp [hlive, hp]⟩
  have := hr.loose_nonneg (n := q.node)
  simp only [Heap.loose] at this
  omega

/-- What holds a node for a call keeps it alive. -/
theorem live_of_held (hb : Borrowed h fr) {k : List Frame} (hk : ∀ g ∈ k, g ∈ fr)
    (hn : Held n k) : 0 < h.strong n := by
  obtain ⟨g, hg, hn⟩ := hn
  have hg := hk g hg
  unfold Frame.holds at hn
  split at hn
  · subst hn; exact hr.live_of_refs hg (by simp [Frame.refs])
  · subst hn; exact hr.live_of_refs hg (by simp [Frame.refs])
  · subst hn; exact hr.live_of_handle (hb.handle hg)
  · subst hn; exact hr.live_of_refs hg (by simp [Frame.refs])
  · subst hn; exact hr.live_of_refs hg (by simp [Frame.refs])
  · subst hn; exact hr.live_of_refs hg (by simp [Frame.refs])
  · subst hn; exact hr.live_of_refs hg (by simp [Frame.refs])
  · subst hn; exact hr.live_of_refs hg (by simp [Frame.refs])
  · obtain ⟨hp, rfl⟩ := hn; exact hr.live_of_guard (hb.guard hg) hp
  · obtain ⟨hp, rfl⟩ := hn; exact hr.live_of_refs hg (by simp [Frame.refs, hp])
  · cases hn

end References

/-! ## How writes change the loose references -/

/-- Changing the counts of live nodes that stay alive. -/
theorem loose_setStrong {strong : NodeId → ℕ} (hpos : ∀ c, 0 < strong c ↔ 0 < h.strong c) :
    Heap.loose { h with strong := strong } n = h.loose n + ((strong n : ℤ) - h.strong n) := by
  have hkids : Heap.liveKids { h with strong := strong } n = h.liveKids n :=
    Count.countP_range_congr fun c _ => by simp only [hpos]
  simp only [Heap.loose, hkids]
  have hobserved : Heap.observed { h with strong := strong } n = h.observed n := rfl
  have hpinned : Heap.pinned { h with strong := strong } n = h.pinned n := rfl
  rw [hobserved, hpinned]
  omega

theorem loose_cloneArc (hlive : 0 < h.strong m) :
    (h.cloneArc m).loose n = h.loose n + bit (m = n) := by
  have hpos : ∀ c, 0 < Function.update h.strong m (h.strong m + 1) c ↔ 0 < h.strong c := by
    intro c
    rcases eq_or_ne c m with rfl | hne
    · simp [hlive]
    · simp [hne]
  rw [Heap.cloneArc, loose_setStrong hpos]
  rcases eq_or_ne n m with rfl | hne
  · simp
  · simp [hne, hne.symm]

theorem loose_upgradeAll {cs : List NodeId} (hcs : ∀ c ∈ cs, 0 < h.strong c) :
    (upgradeAll h cs).loose n = h.loose n + cs.count n := by
  have hpos : ∀ c, 0 < h.strong c + cs.count c ↔ 0 < h.strong c := by
    intro c
    constructor
    · intro hc
      by_contra hzero
      have hmem : c ∉ cs := fun hmem => hzero (hcs c hmem)
      rw [List.count_eq_zero_of_not_mem hmem] at hc
      omega
    · omega
  rw [upgradeAll, loose_setStrong hpos]
  push_cast
  omega

theorem live_of_mem_shardChildren (hc : c ∈ shardChildren h sh) : 0 < h.strong c := by
  simpa using List.of_mem_filter hc

/-- Dropping a reference; the last one takes the node from its parent's live children. -/
theorem loose_dropArc (hm : m < h.size) (hlive : 0 < h.strong m) :
    (execLife h (.dropArc m)).1.loose n = h.loose n - bit (m = n) +
      bit (h.strong m = 1 ∧ (h.parent m).map Parent.node = some n) := by
  have hcount := Count.countP_range_update
    (p := fun c => 0 < h.strong c ∧ (h.parent c).map Parent.node = some n)
    (q := fun c => 0 < (execLife h (.dropArc m)).1.strong c ∧ (h.parent c).map Parent.node = some n)
    hm fun j _ hj => by simp [execLife, hj]
  have hself : (execLife h (.dropArc m)).1.strong m = h.strong m - 1 := Function.update_self ..
  simp only [decide_eq_true_eq, hself] at hcount
  have hkids : ((execLife h (.dropArc m)).1.liveKids n : ℤ) =
      h.liveKids n - bit (h.strong m = 1 ∧ (h.parent m).map Parent.node = some n) := by
    refine hcount.trans ?_
    rw [← Heap.liveKids]
    by_cases hp : (h.parent m).map Parent.node = some n
    · rcases Nat.lt_or_ge 1 (h.strong m) with hgt | hle
      · simp [hp, hlive, hgt.ne', show 0 < h.strong m - 1 by omega]
      · simp [hp, show h.strong m = 1 by omega]
    · simp [hp]
  have hsame : (execLife h (.dropArc m)).1.loose n = ((execLife h (.dropArc m)).1.strong n : ℤ)
      - h.handles n - h.observed n - h.pinned n - (execLife h (.dropArc m)).1.liveKids n := rfl
  rw [hsame, hkids, Heap.loose]
  rcases eq_or_ne n m with rfl | hne
  · rw [hself, bit_of rfl]
    omega
  · have hother : (execLife h (.dropArc m)).1.strong n = h.strong n := Function.update_of_ne hne ..
    rw [hother, bit_of_not hne.symm]
    omega

/-- Values that clients get or give away. -/
theorem loose_values (hs : h'.strong = h.strong) (hsize : h'.size = h.size)
    (hp : h'.parent = h.parent) :
    h'.loose n = h.loose n + ((h.handles n : ℤ) - h'.handles n) +
      ((h.observed n : ℤ) - h'.observed n) + ((h.pinned n : ℤ) - h'.pinned n) := by
  have hkids : h'.liveKids n = h.liveKids n := by simp only [Heap.liveKids, hs, hsize, hp]
  simp only [Heap.loose, hkids, hs]
  omega

theorem cast_update_succ (m : ℕ → ℕ) (k n : ℕ) :
    ((Function.update m k (m k + 1) n : ℕ) : ℤ) = m n + bit (k = n) := by
  rcases eq_or_ne n k with rfl | hne
  · simp
  · simp [hne, hne.symm]

/-- Allocating a node that starts with one reference. -/
theorem loose_of_fresh (h' : Heap) {q : Option Parent} (hw : h.Wf) (hsize : h'.size = h.size + 1)
    (hparent : ∀ c, h'.parent c = if c = h.size then q else h.parent c)
    (hstrong : h'.strong = Function.update h.strong h.size 1) (ho : h'.observers = h.observers)
    (hg : h'.guards = h.guards) :
    h'.loose n = h.loose n + h.handles n - h'.handles n + bit (h.size = n) -
      bit (q.map Parent.node = some n) := by
  have hzero := (hw.freshNode le_rfl).2.1
  have hold : (List.range h.size).countP
      (fun c => 0 < h'.strong c ∧ (h'.parent c).map Parent.node = some n) = h.liveKids n := by
    refine Count.countP_range_congr fun c hc => ?_
    simp only [hstrong, hparent, Function.update_of_ne hc.ne, if_neg hc.ne]
  have hkids : (h'.liveKids n : ℤ) = h.liveKids n + bit (q.map Parent.node = some n) := by
    rw [Heap.liveKids, hsize, Count.countP_range_succ, hold]
    simp [hstrong, hparent]
  have hself : (h'.strong n : ℤ) = h.strong n + bit (h.size = n) := by
    rcases eq_or_ne n h.size with rfl | hne
    · simp [hstrong, hzero]
    · simp [hstrong, hne, hne.symm]
  simp only [Heap.loose, Heap.observed, Heap.pinned, ho, hg, hkids, hself]
  omega

/-! ## Steps keep the strong counts -/

theorem total_refs_flatMap {α : Type} (cs : List α) (fs : α → List Frame) :
    total (Frame.refs n) ↑(cs.flatMap fs) = (cs.map fun c => total (Frame.refs n) ↑(fs c)).sum := by
  induction cs with
  | nil => rfl
  | cons c cs ih => rw [List.flatMap_cons, total_coe_append, ih, List.map_cons, List.sum_cons]

theorem sum_bit_eq_count (cs : List NodeId) : (cs.map fun c => bit (c = n)).sum = (cs.count n : ℤ) := by
  induction cs with
  | nil => rfl
  | cons c cs ih =>
      rw [List.map_cons, List.sum_cons, ih]
      rcases eq_or_ne c n with rfl | hne
      · simp [add_comm]
      · simp [hne]

theorem refs_stopShards : total (Frame.refs n) ↑(stopShards h m) = 0 := by
  refine total_eq_zero fun g hg => ?_
  obtain ⟨s, -, rfl⟩ := mem_stopShards.mp hg
  rfl

theorem refs_execStop {f : StopFrame} :
    (execStop h f).1.loose n + (Frame.stop f).refs n =
      h.loose n + total (Frame.refs n) ↑(execStop h f).2 := by
  cases f with
  | node m =>
      have hfs : total (Frame.refs n) ↑(execStop h (.node m)).2 = 0 := by
        simp only [execStop]
        split
        · rfl
        · rw [total_coe_append, total_coe_append, refs_stopShards]
          split <;> simp [Frame.refs]
      rw [hfs]
      rfl
  | shard sh => rfl
  | drain sh empty =>
      have hfs : total (Frame.refs n) ↑(execStop h (.drain sh empty)).2 = 0 := by
        refine total_eq_zero fun g hg => ?_
        simp only [execStop] at hg
        split at hg <;> simp at hg <;> grind [Frame.refs]
      rw [hfs]
      rfl
  | wake sh w => rfl
  | liveChildren m i acc =>
      simp only [execStop]
      split
      · simp only [loose_upgradeAll fun c hc => live_of_mem_shardChildren hc, Frame.refs,
          total_coe_cons, total_nil, List.count_append]
        push_cast
        omega
      · rw [total_refs_flatMap]
        simp only [Frame.refs, total_coe_cons, total_nil, zero_add, add_zero, sum_bit_eq_count]

theorem refs_execLife {f : LifeFrame} (hv : (Frame.life f).Valid h)
    (hlive : ∀ m, f = .dropArc m ∨ f = .cloneArc m → 0 < h.strong m) :
    (execLife h f).1.loose n + (Frame.life f).refs n =
      h.loose n + total (Frame.refs n) ↑(execLife h f).2 := by
  cases f with
  | dropArc m =>
      have hfs : total (Frame.refs n) ↑(execLife h (.dropArc m)).2 =
          bit (h.strong m = 1 ∧ (h.parent m).map Parent.node = some n) := by
        simp only [execLife, collect]
        split
        · rename_i h₁
          rw [total_coe_append, refs_stopShards]
          rcases h.parent m with _ | q <;> simp [Frame.refs, h₁]
        · rename_i h₁
          simp [h₁]
      rw [hfs, loose_dropArc hv (hlive m (.inl rfl)), Frame.refs]
      omega
  | deregister m => simp only [execLife]; split <;> rfl
  | cloneHandle m => rfl
  | cloneArc m =>
      have hvalues : (execLife h (.cloneArc m)).1.loose n = _ := loose_values (h := h.cloneArc m) rfl rfl rfl
      have hhandles : ((execLife h (.cloneArc m)).1.handles n : ℤ) = h.handles n + bit (m = n) :=
        cast_update_succ ..
      have hold : (h.cloneArc m).handles n = h.handles n := rfl
      have hobserved : (execLife h (.cloneArc m)).1.observed n = (h.cloneArc m).observed n := rfl
      have hpinned : (execLife h (.cloneArc m)).1.pinned n = (h.cloneArc m).pinned n := rfl
      rw [hvalues, loose_cloneArc (hlive m (.inr rfl)), hhandles, hold, hobserved, hpinned]
      simp only [execLife, Frame.refs, total_nil]
      omega
  | dropHandle m =>
      simp only [execLife]
      have hfs : total (Frame.refs n) ↑((if h.swansongCount m = 1 ∧ h.isRoot m = true
          then [Frame.stop (.node m)] else []) ++ [Frame.life (.dropArc m)]) = bit (m = n) := by
        rw [total_coe_append]
        split <;> simp [Frame.refs]
      rw [hfs]
      rfl
  | release m => rfl
  | shutDownReturn m => rfl

theorem refs_execChild {f : ChildFrame} (hw : h.Wf) (hv : (Frame.child f).Valid h) (hlive : ∀ m, f = .new m → 0 < h.strong m) :
    (execChild index h f).1.loose n + (Frame.child f).refs n =
      h.loose n + total (Frame.refs n) ↑(execChild index h f).2 := by
  cases f with
  | new q =>
      simp only [execChild, loose_cloneArc (hlive q rfl), Frame.refs, total_coe_cons, total_nil]
      omega
  | alloc q shard =>
      have hloose := loose_of_fresh (execChild index h (.alloc q shard)).1
        (q := some ⟨q, shard⟩) (n := n) hw rfl (fun c => Function.update_apply ..) rfl rfl rfl
      rw [hloose]
      simp only [execChild, Frame.refs, total_coe_cons, total_nil, Option.map_some,
        Option.some.injEq]
      omega
  | register c =>
      simp only [execChild]
      split
      · rename_i hnone
        obtain ⟨q, -, i, hp⟩ := hv
        rw [hnone] at hp
        cases hp
      · simp only [Frame.refs, total_coe_cons, total_nil, add_zero]
        rfl
  | storeKey c key => simp only [execChild, Frame.refs, total_coe_cons, total_nil, add_zero]; rfl
  | check c =>
      simp only [execChild]
      split
      · rename_i hnone
        obtain ⟨q, -, i, hp⟩ := hv
        rw [hnone] at hp
        cases hp
      · rw [total_coe_append]
        split <;> simp [Frame.refs]
  | done c =>
      have hvalues : (execChild index h (.done c)).1.loose n = _ := loose_values (h := h) rfl rfl rfl
      have hhandles : ((execChild index h (.done c)).1.handles n : ℤ) = h.handles n + bit (c = n) :=
        cast_update_succ ..
      have hobserved : (execChild index h (.done c)).1.observed n = h.observed n := rfl
      have hpinned : (execChild index h (.done c)).1.pinned n = h.pinned n := rfl
      rw [hvalues, hhandles, hobserved, hpinned]
      simp only [execChild, Frame.refs, total_nil]
      omega

theorem loose_provenance {location : Location} :
    (provenance h sh location).1.loose n = h.loose n := by
  unfold provenance
  split <;> rfl

/-- A guard that goes to the client holds its node if it pins it. -/
theorem loose_returnGuard {pin : Bool} {location : Location} {info : Option InfoId} :
    (returnGuard h sh pin location info).loose n =
      h.loose n - bit (pin = true ∧ sh.node = n) := by
  have hpinned : ((returnGuard h sh pin location info).pinned n : ℤ) =
      h.pinned n + bit (pin = true ∧ sh.node = n) := by
    have := Count.countP_cons (fun g : Guard => g.pin && g.shard.node = n)
      ⟨h.nextGuard, sh, pin, location, info⟩ h.guards
    simp only [Bool.and_eq_true, decide_eq_true_eq] at this
    exact this
  have hvalues : (returnGuard h sh pin location info).loose n = _ := loose_values (h := h) rfl rfl rfl
  have hhandles : (returnGuard h sh pin location info).handles n = h.handles n := rfl
  have hobserved : (returnGuard h sh pin location info).observed n = h.observed n := rfl
  rw [hvalues, hpinned, hhandles, hobserved]
  omega

/-- A guard that leaves the client's hands keeps its reference until its drop is done. -/
theorem loose_takeGuard {g : Guard} (hg : g ∈ h.guards) :
    (takeGuard h g).loose n = h.loose n + bit (g.pin = true ∧ g.shard.node = n) := by
  have hpinned : ((takeGuard h g).pinned n : ℤ) =
      h.pinned n - bit (g.pin = true ∧ g.shard.node = n) := by
    have := Count.countP_erase (fun g : Guard => g.pin && g.shard.node = n) hg
    simp only [Bool.and_eq_true, decide_eq_true_eq] at this
    exact this
  have hvalues : (takeGuard h g).loose n = _ := loose_values (h := h) rfl rfl rfl
  have hhandles : (takeGuard h g).handles n = h.handles n := rfl
  have hobserved : (takeGuard h g).observed n = h.observed n := rfl
  rw [hvalues, hpinned, hhandles, hobserved]
  omega

theorem refs_forShardNext {location : Location} {state : ShardWord} :
    total (Frame.refs n) ↑(forShardNext sh location state) = 0 := by
  unfold forShardNext
  split <;> simp [Frame.refs]

theorem refs_execGuard {f : GuardFrame}
    (hlive : ∀ sh pin location info, f = .finish sh pin location info → pin = true →
      0 < h.strong sh.node) :
    (execGuard index choice h f).1.loose n + (Frame.guard f).refs n =
      h.loose n + total (Frame.refs n) ↑(execGuard index choice h f).2 := by
  cases f with
  | new m location => simp [execGuard, loose_provenance, Frame.refs]
  | finish sh pin location info =>
      have hpin : (if pin then h.cloneArc sh.node else h).loose n
          = h.loose n + bit (pin = true ∧ sh.node = n) := by
        cases pin with
        | true => simpa using loose_cloneArc (n := n) (hlive sh true location info rfl rfl)
        | false => simp
      simp only [execGuard, loose_returnGuard, hpin, Frame.refs, total_nil]
      omega
  | forShard sh location =>
      simp only [execGuard]
      split
      · simp [refs_forShardNext, Frame.refs]
      · simp [Frame.refs]
  | forShardAdd sh location state =>
      simp only [execGuard]
      split
      · simp only [Frame.refs, total_coe_cons, total_nil, add_zero]
        rfl
      · simp [refs_forShardNext, Frame.refs]
  | forShardFinish sh location =>
      simp [execGuard, loose_returnGuard, loose_provenance, Frame.refs]
  | upgrade sh location =>
      simp only [execGuard]
      split
      · rename_i hlive
        simp only [loose_cloneArc hlive, Frame.refs, total_coe_cons, total_nil]
        omega
      · simp [Frame.refs]
  | clone g => simp [execGuard, loose_provenance, Frame.refs]
  | cloneAdd g info => simp only [execGuard, Frame.refs, total_coe_cons, total_nil, add_zero]; rfl
  | release g => simp [execGuard, Frame.refs]
  | drop g =>
      have hfs : total (Frame.refs n) ↑(execGuard index choice h (.drop g)).2 =
          bit (g.pin = true ∧ g.shard.node = n) := by
        simp only [execGuard]
        rw [total_coe_append, total_coe_append]
        rcases g.pin with _ | _ <;> rcases g.info with _ | id <;> split <;> simp [Frame.refs]
      rw [hfs]
      rfl
  | flushUpgrade sh =>
      simp only [execGuard]
      split
      · rename_i hlive
        simp only [loose_cloneArc hlive, Frame.refs, total_coe_cons, total_nil]
        omega
      · simp [Frame.refs]
  | dropInfo id => simp only [execGuard, Frame.refs, total_nil, add_zero]; rfl
  | dropValue w g => simp [execGuard, Frame.refs]

/-- An observer that goes back to the client. -/
theorem loose_addObserver (o : Observer) :
    Heap.loose { h with observers := o :: h.observers } n = h.loose n - bit (o.node = n) := by
  have hcount := Count.countP_cons (fun o : Observer => o.node = n) o h.observers
  have hsame : Heap.pinned { h with observers := o :: h.observers } n = h.pinned n ∧
    Heap.liveKids { h with observers := o :: h.observers } n = h.liveKids n := ⟨rfl, rfl⟩
  simp only [decide_eq_true_eq] at hcount
  simp only [Heap.loose, Heap.observed, hsame.1, hsame.2, hcount]
  omega

/-- An observer that a call takes from the client. -/
theorem loose_takeObserver {o : Observer} (ho : o ∈ h.observers) :
    Heap.loose { h with observers := h.observers.erase o } n = h.loose n + bit (o.node = n) := by
  have hcount := Count.countP_erase (fun o : Observer => o.node = n) ho
  have hsame : Heap.pinned { h with observers := h.observers.erase o } n = h.pinned n ∧
    Heap.liveKids { h with observers := h.observers.erase o } n = h.liveKids n := ⟨rfl, rfl⟩
  simp only [decide_eq_true_eq] at hcount
  simp only [Heap.loose, Heap.observed, hsame.1, hsame.2, hcount]
  omega

theorem refs_waitReady {o : Observer} {blocking : Bool} :
    (waitReady h o blocking).1.loose n + bit (o.node = n) =
      h.loose n + total (Frame.refs n) ↑(waitReady h o blocking).2 := by
  unfold waitReady
  split
  · simp [Frame.refs]
  · have hadd : _ = h.loose n - bit (o.node = n) :=
      loose_addObserver { o with pending := false, resolved := true }
    simp only [total_nil]
    omega

theorem refs_waitNext {o : Observer} {blocking : Bool} :
    total (Frame.refs n) ↑(waitNext o blocking) = bit (o.node = n) := by
  unfold waitNext
  split <;> simp [Frame.refs]

theorem refs_execWait {f : WaitFrame} (hlive : ∀ e m b, f = .create e m b → 0 < h.strong m) :
    (execWait h f).1.loose n + (Frame.wait f).refs n =
      h.loose n + total (Frame.refs n) ↑(execWait h f).2 := by
  cases f with
  | create event m blocking =>
      have hclone := loose_cloneArc (n := n) (hlive event m blocking rfl)
      simp only [execWait]
      split
      · simp only [hclone, Frame.refs, total_coe_cons, total_nil]
        omega
      · show Heap.loose { h.cloneArc m with observers := _ :: (h.cloneArc m).observers } n + _ = _
        rw [loose_addObserver, hclone]
        simp only [Frame.refs, total_nil]
        omega
  | stopped o blocking =>
      simp only [execWait]
      split
      · split
        · simp [Frame.refs]
        · exact refs_waitReady
      · simp [refs_waitNext, Frame.refs]
  | zero o blocking =>
      simp only [execWait]
      split
      · exact refs_waitReady
      · simp [refs_waitNext, Frame.refs]
  | listen o blocking =>
      simp only [execWait, Frame.refs, total_coe_cons, total_nil, add_zero]
      rfl
  | stoppedAgain o l blocking =>
      simp only [execWait]
      split
      · split
        · simp [Frame.refs]
        · exact refs_waitReady
      · simp [Frame.refs]
  | zeroAgain o l blocking =>
      simp only [execWait]
      split
      · exact refs_waitReady
      · simp [Frame.refs]
  | park o l blocking =>
      simp only [execWait]
      split
      · simp [Frame.refs]
      · split
        · simp [Frame.refs]
        · have hadd : _ = h.loose n - bit (o.node = n) :=
            loose_addObserver { o with listener := some l, pending := true }
          simp only [Frame.refs, total_nil]
          omega

theorem refs_visitAll {report : Bool} {cs : List NodeId} :
    total (WalkItem.refs n) ↑(visitAll report cs) = cs.count n := by
  unfold visitAll
  induction cs with
  | nil => split <;> rfl
  | cons c cs ih =>
      have hcount : ((c :: cs).count n : ℤ) = cs.count n + bit (c = n) := by
        rw [← sum_bit_eq_count, List.map_cons, List.sum_cons, sum_bit_eq_count, add_comm]
      rw [hcount, ← ih]
      split
      · simp [WalkItem.refs, add_comm]
      · simp only [List.map_cons, total_coe_append, List.cons_append, total_coe_cons, WalkItem.refs]
        omega

theorem refs_execWalk {report : Bool} {count : ℕ} {out : List InfoId} {todo : List WalkItem} :
    (execWalk h report count out todo).1.loose n + (Frame.walk report todo count out).refs n =
      h.loose n + total (Frame.refs n) ↑(execWalk h report count out todo).2 := by
  cases todo with
  | nil =>
      have hfs : total (Frame.refs n) ↑(execWalk h report count out []).2 = 0 := by
        refine total_eq_zero fun g hg => ?_
        simp only [execWalk] at hg
        split at hg <;> simp at hg
        obtain ⟨id, -, rfl⟩ := hg
        rfl
      rw [hfs]
      simp [execWalk, Frame.refs]
  | cons item todo =>
      cases item with
      | node m =>
          have hshards : total (WalkItem.refs n) ↑((h.shards m).map WalkItem.shard) = 0 :=
            total_eq_zero fun item hitem => by
              simp only [Multiset.mem_coe, List.mem_map] at hitem
              obtain ⟨s, -, rfl⟩ := hitem
              rfl
          simp [execWalk, Frame.refs, WalkItem.refs, hshards]
      | shard sh =>
          simp only [execWalk]
          split
          · simp only [Frame.refs, WalkItem.refs, total_coe_cons, total_nil, add_zero, zero_add]
            rfl
          · simp only [Frame.refs, WalkItem.refs, total_coe_cons, total_nil, add_zero, zero_add]
      | children m i acc =>
          simp only [execWalk]
          split
          · simp only [loose_upgradeAll fun c hc => live_of_mem_shardChildren hc, Frame.refs,
              WalkItem.refs, total_coe_cons, total_nil, List.count_append]
            push_cast
            omega
          · simp only [Frame.refs, WalkItem.refs, total_coe_cons, total_coe_append, total_nil,
              refs_visitAll]
            omega
      | release c => simp [execWalk, Frame.refs, WalkItem.refs]

theorem refs_exec {f : Frame} (hv : Valid h (f ::ₘ K)) (hb : Borrowed h (f ::ₘ K))
    (he : discipline.Enabled f K) (hr : References h (f ::ₘ K)) :
    (exec index choice h f).1.loose n + f.refs n =
      h.loose n + total (Frame.refs n) ↑(exec index choice h f).2 := by
  have hw := hv.wf
  have hf := hv.frames f (Multiset.mem_cons_self f K)
  have hheld : ∀ {m}, (∀ k, f.expects k → Held m k) → 0 < h.strong m := by
    intro m hm
    obtain ⟨k, hk, hkK⟩ := he.below
    exact hr.live_of_held hb (fun g hg => Multiset.mem_cons_of_mem (hkK g hg)) (hm k hk)
  cases f with
  | arrive f =>
      have hfs : total (Frame.refs n) ↑(execArrive index choice h f).2 = 0 :=
        total_eq_zero fun g hg => by
          rcases mem_execArrive hg with ⟨_, rfl⟩ | ⟨_, rfl⟩ | ⟨_, rfl⟩ <;> rfl
      obtain ⟨_, _, he⟩ := execArrive_heap index choice h f
      rw [exec, hfs, he]
      rfl
  | depart f =>
      have hfs : total (Frame.refs n) ↑(execDepart h f).2 = 0 := total_eq_zero fun g hg => by
        rcases mem_execDepart hg with ⟨_, rfl⟩ | ⟨_, rfl⟩ <;> rfl
      obtain ⟨_, _, he⟩ := execDepart_heap h f
      rw [exec, hfs, he]
      rfl
  | stop f => exact refs_execStop
  | notify event m => rfl
  | life f =>
      refine refs_execLife hf fun m hm => ?_
      rcases hm with rfl | rfl
      · exact hr.live_of_refs (Multiset.mem_cons_self _ K) (by simp [Frame.refs])
      · exact hheld fun k hk => hk
  | child f =>
      refine refs_execChild hw hf fun m hm => ?_
      subst hm
      exact hheld fun k hk => hk
  | guard f =>
      refine refs_execGuard fun sh pin location info hm hp => ?_
      subst hm
      exact hheld fun k hk => hk hp
  | wait f =>
      refine refs_execWait fun e m b hm => ?_
      subst hm
      exact hheld fun k hk => hk
  | poll f =>
      have hfs : total (Frame.refs n) ↑(execPoll choice h f).2 = 0 := total_eq_zero fun g hg => by
        obtain ⟨_, rfl⟩ := mem_execPoll hg; rfl
      obtain ⟨_, _, he⟩ := execPoll_heap choice h f
      rw [exec, hfs, he]
      rfl
  | walk report todo count out => exact refs_execWalk

theorem loose_takeHandle (hn : 0 < h.handles m) :
    (takeHandle h m).loose n = h.loose n + bit (m = n) := by
  have hvalues : (takeHandle h m).loose n = _ := loose_values (h := h) rfl rfl rfl
  have hhandles : ((takeHandle h m).handles n : ℤ) = h.handles n - bit (m = n) := by
    rcases eq_or_ne n m with rfl | hne
    · simp [takeHandle]
      omega
    · simp [takeHandle, hne, hne.symm]
  have hobserved : (takeHandle h m).observed n = h.observed n := rfl
  have hpinned : (takeHandle h m).pinned n = h.pinned n := rfl
  rw [hvalues, hhandles, hobserved, hpinned]
  omega

theorem refs_start {fr fs : List Frame} {op : Op} (hw : h.Wf)
    (hs : start index h fr op = some (h', fs)) :
    h'.loose n = h.loose n + total (Frame.refs n) ↑fs := by
  unfold start at hs
  split at hs <;> simp only [Option.ite_none_right_eq_some, Option.some.injEq, Prod.mk.injEq] at hs <;>
    obtain ⟨hop, rfl, rfl⟩ := hs
  case h_1 =>
    rename_i shards report
    have hnone : h.parent h.size = none := by
      rcases hpar : h.parent h.size with _ | q
      · rfl
      · exact absurd (hw.parent hpar).1 (lt_irrefl _)
    have hparent : ∀ c, (newRoot h shards report).parent c = if c = h.size then none else h.parent c := by
      intro c
      rcases eq_or_ne c h.size with rfl | hne
      · simp [newRoot, hnone]
      · simp [newRoot, hne]
    have hhandles : ((newRoot h shards report).handles n : ℤ) = h.handles n + bit (h.size = n) := by
      have hzero := (hw.freshNode le_rfl).2.2.2.2.1
      rcases eq_or_ne n h.size with rfl | hne
      · simp [newRoot, hzero]
      · simp [newRoot, hne, hne.symm]
    rw [loose_of_fresh _ hw rfl hparent rfl rfl rfl, hhandles]
    simp only [Option.map_none, reduceCtorEq, Count.bit_false, total_nil]
    omega
  case h_3 | h_7 | h_8 => rw [loose_takeHandle hop.1]; simp [Frame.refs]
  case h_12 | h_13 => rw [loose_takeGuard hop.1]; simp [Frame.refs]
  case h_15 =>
    have hsame : ∀ g l, Heap.loose { takeGuard h g with interrupts := l } n = (takeGuard h g).loose n :=
      fun _ _ => rfl
    rw [hsame, loose_takeGuard hop.2.1]
    simp [Frame.refs]
  case h_18 | h_19 | h_20 => rw [loose_takeObserver hop]; simp [Frame.refs]
  all_goals simp only [total_coe_cons, Frame.refs, WalkItem.refs, total_nil, add_zero]
  all_goals rfl

/-- In every reachable state the strong counts are the values and frames that hold the
nodes. -/
theorem references_reach {P : State → Act → Prop} {s : State} (hr : machine.Reach P s) :
    References s.mem s.frames := by
  refine discipline.ledger (fun n h => h.loose n) Frame.refs
    (J := fun h fr => Valid h fr ∧ Borrowed h fr) (fun hr => ⟨valid_reach hr, borrowed_reach hr⟩) ?_ ?_ ?_ hr
  · intro n
    simp [machine, Heap.loose, Heap.observed, Heap.pinned, Heap.liveKids, Heap.empty]
  · rintro index b h f K he ⟨hv, hb⟩ hr n
    exact refs_exec hv hb he hr
  · rintro index h fr op h' fs hs ⟨hv, -⟩ - n
    exact refs_start hv.wf hs

/-! ## Handle counts -/

/-- The handles that a frame is about to give to a client, or was given to drop. -/
noncomputable def Frame.handles (n : NodeId) : Frame → ℤ
  | .life (.cloneArc m) | .life (.dropHandle m) => bit (m = n)
  | .child (.register c) | .child (.storeKey c _) | .child (.check c) | .child (.done c) =>
      bit (c = n)
  | _ => 0

theorem Frame.handles_nonneg (f : Frame) : 0 ≤ f.handles n := by
  unfold handles
  split <;> first
    | exact Count.bit_nonneg _
    | omega

/-- A node's count of handles is right, and a root whose count is zero was abandoned. -/
structure Counted (h : Heap) (fr : Multiset Frame) : Prop where
  balanced : ∀ n, (h.swansongCount n : ℤ) - h.handles n = total (Frame.handles n) fr
  abandoned : ∀ n < h.size, h.isRoot n = true → h.swansongCount n = 0 → h.abandoned n = true

theorem handles_execLife {f : LifeFrame} (hcount : ∀ m, f = .dropHandle m → 0 < h.swansongCount m) :
    ((execLife h f).1.swansongCount n : ℤ) - (execLife h f).1.handles n + (Frame.life f).handles n =
      (h.swansongCount n : ℤ) - h.handles n + total (Frame.handles n) ↑(execLife h f).2 := by
  cases f with
  | dropArc m =>
      have hfs : total (Frame.handles n) ↑(execLife h (.dropArc m)).2 = 0 := by
        refine total_eq_zero fun g hg => ?_
        simp only [execLife, collect] at hg
        (repeat' split at hg) <;> simp [mem_stopShards] at hg <;> grind [Frame.handles]
      rw [hfs]
      rfl
  | deregister m => simp only [execLife]; split <;> rfl
  | cloneHandle m =>
      have hcount : ((execLife h (.cloneHandle m)).1.swansongCount n : ℤ) =
          h.swansongCount n + bit (m = n) := cast_update_succ ..
      rw [hcount]
      simp only [execLife, Frame.handles, total_coe_cons, total_nil]
      omega
  | cloneArc m =>
      have hhandles : ((execLife h (.cloneArc m)).1.handles n : ℤ) = h.handles n + bit (m = n) :=
        cast_update_succ ..
      rw [hhandles]
      simp only [execLife, Frame.handles, total_nil]
      have hsame : (h.cloneArc m).swansongCount = h.swansongCount := rfl
      rw [hsame]
      omega
  | dropHandle m =>
      have hpos := hcount m rfl
      have hcount : ((execLife h (.dropHandle m)).1.swansongCount n : ℤ) =
          h.swansongCount n - bit (m = n) := by
        rcases eq_or_ne n m with rfl | hne
        · simp only [execLife, Function.update_self, bit_of]
          omega
        · simp [execLife, hne, hne.symm]
      have hfs : total (Frame.handles n) ↑(execLife h (.dropHandle m)).2 = 0 := by
        simp only [execLife]
        rw [total_coe_append]
        split <;> simp [Frame.handles]
      have hhandles : (execLife h (.dropHandle m)).1.handles = h.handles := rfl
      rw [hcount, hfs, hhandles, Frame.handles]
      omega
  | release m => rfl
  | shutDownReturn m => rfl

theorem handles_execChild {f : ChildFrame} (hw : h.Wf) (hv : (Frame.child f).Valid h) :
    ((execChild index h f).1.swansongCount n : ℤ) - (execChild index h f).1.handles n +
        (Frame.child f).handles n =
      (h.swansongCount n : ℤ) - h.handles n + total (Frame.handles n) ↑(execChild index h f).2 := by
  cases f with
  | new q => rfl
  | alloc q shard =>
      have hzero := (hw.freshNode le_rfl).2.2.2.1
      have hcount : ((execChild index h (.alloc q shard)).1.swansongCount n : ℤ) =
          h.swansongCount n + bit (h.size = n) := by
        rcases eq_or_ne n h.size with rfl | hne
        · simp [execChild, hzero]
        · simp [execChild, hne, hne.symm]
      have hhandles : (execChild index h (.alloc q shard)).1.handles = h.handles := rfl
      rw [hcount, hhandles]
      simp only [execChild, Frame.handles, total_coe_cons, total_nil]
      omega
  | register c =>
      simp only [execChild]
      split
      · rename_i hnone
        obtain ⟨q, -, i, hp⟩ := hv
        rw [hnone] at hp
        cases hp
      · simp only [Frame.handles, total_coe_cons, total_nil, add_zero]
  | storeKey c key => simp only [execChild, Frame.handles, total_coe_cons, total_nil, add_zero]
  | check c =>
      simp only [execChild]
      split
      · rename_i hnone
        obtain ⟨q, -, i, hp⟩ := hv
        rw [hnone] at hp
        cases hp
      · rw [total_coe_append]
        split <;> simp [Frame.handles]
  | done c =>
      have hhandles : ((execChild index h (.done c)).1.handles n : ℤ) = h.handles n + bit (c = n) :=
        cast_update_succ ..
      have hcount : (execChild index h (.done c)).1.swansongCount = h.swansongCount := rfl
      rw [hhandles, hcount]
      simp only [execChild, Frame.handles, total_nil]
      omega

theorem handles_exec {f : Frame} (hv : Valid h (f ::ₘ K)) (hc : Counted h (f ::ₘ K)) :
    ((exec index choice h f).1.swansongCount n : ℤ) - (exec index choice h f).1.handles n +
        f.handles n =
      (h.swansongCount n : ℤ) - h.handles n + total (Frame.handles n) ↑(exec index choice h f).2 := by
  have hf := hv.frames f (Multiset.mem_cons_self f K)
  cases f with
  | arrive f =>
      have hfs : total (Frame.handles n) ↑(execArrive index choice h f).2 = 0 :=
        total_eq_zero fun g hg => by
          rcases mem_execArrive hg with ⟨_, rfl⟩ | ⟨_, rfl⟩ | ⟨_, rfl⟩ <;> rfl
      obtain ⟨_, _, he⟩ := execArrive_heap index choice h f
      rw [exec, hfs, he]
      rfl
  | depart f =>
      have hfs : total (Frame.handles n) ↑(execDepart h f).2 = 0 := total_eq_zero fun g hg => by
        rcases mem_execDepart hg with ⟨_, rfl⟩ | ⟨_, rfl⟩ <;> rfl
      obtain ⟨_, _, he⟩ := execDepart_heap h f
      rw [exec, hfs, he]
      rfl
  | stop f =>
      have hfs : total (Frame.handles n) ↑(execStop h f).2 = 0 := total_eq_zero fun g hg => by
        rcases mem_execStop hg with ⟨_, rfl⟩ | ⟨_, _, rfl⟩ | ⟨_, rfl⟩ | ⟨_, rfl⟩ <;> rfl
      obtain ⟨_, _, _, _, _, _, he⟩ := execStop_heap h f
      rw [exec, hfs, he]
      rfl
  | notify event m => rfl
  | life f =>
      refine handles_execLife fun m hm => ?_
      subst hm
      have hle := le_total (w := Frame.handles m) Frame.handles_nonneg
        (Multiset.mem_cons_self (.life (.dropHandle m)) K)
      have hbal := hc.balanced m
      simp only [Frame.handles, bit_of] at hle
      omega
  | child f => exact handles_execChild hv.wf hf
  | guard f =>
      have hfs : total (Frame.handles n) ↑(execGuard index choice h f).2 = 0 :=
        total_eq_zero fun g hg => by
          rcases mem_execGuard hg with ⟨_, rfl, -⟩ | ⟨_, rfl⟩ | ⟨_, rfl⟩ | ⟨_, rfl⟩ <;> rfl
      obtain ⟨_, _, _, _, _, _, _, _, he⟩ := execGuard_heap index choice h f
      rw [exec, hfs, he]
      rfl
  | wait f =>
      have hfs : total (Frame.handles n) ↑(execWait h f).2 = 0 := total_eq_zero fun g hg => by
        rcases mem_execWait hg with ⟨_, rfl⟩ | ⟨_, rfl⟩ <;> rfl
      obtain ⟨_, _, _, _, he⟩ := execWait_heap h f
      rw [exec, hfs, he]
      rfl
  | poll f =>
      have hfs : total (Frame.handles n) ↑(execPoll choice h f).2 = 0 := total_eq_zero fun g hg => by
        obtain ⟨_, rfl⟩ := mem_execPoll hg; rfl
      obtain ⟨_, _, he⟩ := execPoll_heap choice h f
      rw [exec, hfs, he]
      rfl
  | walk report todo count out =>
      have hfs : total (Frame.handles n) ↑(execWalk h report count out todo).2 = 0 :=
        total_eq_zero fun g hg => by
          rcases mem_execWalk hg with ⟨_, _, _, rfl⟩ | ⟨_, rfl⟩ | ⟨_, -, rfl⟩ <;> rfl
      obtain ⟨_, _, _, he⟩ := execWalk_heap h report count out todo
      rw [exec, hfs, he]
      rfl

/-- A root's count of handles reaches zero only by abandoning it. -/
theorem abandoned_exec {f : Frame} (hv : Valid h (f ::ₘ K))
    (hc : Counted h (f ::ₘ K)) (hn : n < (exec index choice h f).1.size)
    (hroot : (exec index choice h f).1.isRoot n = true)
    (hzero : (exec index choice h f).1.swansongCount n = 0) :
    (exec index choice h f).1.abandoned n = true := by
  have hext : h.Extends (exec index choice h f).1 := extends_exec
  have hold : n < h.size → h.swansongCount n = 0 → (exec index choice h f).1.abandoned n = true :=
    fun hlt hs => hext.abandoned n (hc.abandoned n hlt (hext.isRoot hlt ▸ hroot) hs)
  cases f with
  | arrive f => obtain ⟨_, _, he⟩ := execArrive_heap index choice h f; rw [exec, he] at hn hzero; exact hold hn hzero
  | depart f => obtain ⟨_, _, he⟩ := execDepart_heap h f; rw [exec, he] at hn hzero; exact hold hn hzero
  | stop f =>
      obtain ⟨_, _, _, _, _, _, he⟩ := execStop_heap h f
      rw [exec, he] at hn hzero
      exact hold hn hzero
  | notify event m => exact hold hn hzero
  | life f =>
      cases f with
      | cloneHandle m =>
          refine hold hn ?_
          have hle := Nat.zero_le (h.swansongCount n)
          simp only [exec, execLife] at hzero
          rcases eq_or_ne n m with rfl | hne
          · simp at hzero
          · simpa [hne] using hzero
      | dropHandle m =>
          rcases eq_or_ne n m with rfl | hne
          · have hle := le_total (w := Frame.handles n) Frame.handles_nonneg
              (Multiset.mem_cons_self (.life (.dropHandle n)) K)
            have hbal := hc.balanced n
            simp only [Frame.handles, bit_of] at hle
            have hzero : h.swansongCount n - 1 = 0 := by simpa [exec, execLife] using hzero
            have hlast : h.swansongCount n = 1 ∧ h.isRoot n = true := ⟨by omega, hroot⟩
            simp [exec, execLife, hlast]
          · exact hold hn (by simpa [exec, execLife, hne] using hzero)
      | deregister m =>
          simp only [exec, execLife] at hn hzero
          split at hzero <;> exact hold (by split at hn <;> exact hn) hzero
      | _ => exact hold hn hzero
  | child f =>
      cases f with
      | alloc q shard =>
          rcases Nat.lt_succ_iff_lt_or_eq.mp hn with hlt | rfl
          · exact hold hlt (by simpa [exec, execChild, hlt.ne] using hzero)
          · simp [exec, execChild, Heap.isRoot] at hroot
      | register c =>
          simp only [exec, execChild] at hn hzero
          split at hzero <;> exact hold (by split at hn <;> exact hn) hzero
      | check c =>
          simp only [exec, execChild] at hn hzero
          split at hzero <;> exact hold (by split at hn <;> exact hn) hzero
      | _ => exact hold hn hzero
  | guard f =>
      obtain ⟨_, _, _, _, _, _, _, _, he⟩ := execGuard_heap index choice h f
      rw [exec, he] at hn hzero
      exact hold hn hzero
  | wait f => obtain ⟨_, _, _, _, he⟩ := execWait_heap h f; rw [exec, he] at hn hzero; exact hold hn hzero
  | poll f => obtain ⟨_, _, he⟩ := execPoll_heap choice h f; rw [exec, he] at hn hzero; exact hold hn hzero
  | walk report todo count out =>
      obtain ⟨_, _, _, he⟩ := execWalk_heap h report count out todo
      rw [exec, he] at hn hzero
      exact hold hn hzero

theorem handles_start {fr fs : List Frame} {op : Op} (hw : h.Wf)
    (hs : start index h fr op = some (h', fs)) :
    (h'.swansongCount n : ℤ) - h'.handles n =
        (h.swansongCount n : ℤ) - h.handles n + total (Frame.handles n) ↑fs ∧
      (n < h'.size → h'.swansongCount n = 0 → n < h.size ∧ h.swansongCount n = 0) := by
  have htake : ∀ {m}, 0 < h.handles m → ((takeHandle h m).handles n : ℤ) = h.handles n - bit (m = n) := by
    intro m hm
    rcases eq_or_ne n m with rfl | hne
    · simp [takeHandle]
      omega
    · simp [takeHandle, hne, hne.symm]
  unfold start at hs
  split at hs <;> simp only [Option.ite_none_right_eq_some, Option.some.injEq, Prod.mk.injEq] at hs <;>
    obtain ⟨hop, rfl, rfl⟩ := hs
  case h_1 =>
    obtain ⟨-, -, -, hcount, hhandles, -⟩ := hw.freshNode le_rfl
    rcases eq_or_ne n h.size with rfl | hne
    · simp [newRoot, hcount, hhandles]
    · refine ⟨by simp [newRoot, hne], fun hn hz => ⟨?_, by simpa [newRoot, hne] using hz⟩⟩
      exact (Nat.lt_succ_iff_lt_or_eq.mp hn).resolve_right hne
  case h_3 | h_7 | h_8 =>
    refine ⟨?_, fun hn hz => ⟨hn, hz⟩⟩
    rw [htake hop.1]
    simp only [total_coe_cons, Frame.handles, total_nil]
    have hsame : ∀ m, (takeHandle h m).swansongCount = h.swansongCount := fun _ => rfl
    rw [hsame]
    omega
  all_goals
    refine ⟨?_, fun hn hz => ⟨hn, hz⟩⟩
    simp only [total_coe_cons, Frame.handles, total_nil, add_zero]
  all_goals rfl

/-- In every reachable state the handle counts are right. -/
theorem counted_reach {P : State → Act → Prop} {s : State} (hr : machine.Reach P s) :
    Counted s.mem s.frames := by
  refine discipline.invariant (J := Valid) valid_reach ?_ ?_ ?_ hr
  · refine ⟨fun n => ?_, fun n hn => absurd hn (Nat.not_lt_zero n)⟩
    simp [machine, Heap.empty]
  · rintro index b h f K - hv - hc
    refine ⟨fun n => ?_, fun n hn hroot hz => abandoned_exec hv hc hn hroot hz⟩
    have hstep : ((machine.exec index b h f).1.swansongCount n : ℤ) -
        (machine.exec index b h f).1.handles n + f.handles n = (h.swansongCount n : ℤ) -
        h.handles n + total (Frame.handles n) ↑(machine.exec index b h f).2 := handles_exec hv hc
    have hbal := hc.balanced n
    rw [total_cons] at hbal
    rw [total_add]
    omega
  · rintro index h fr op h' fs hs hv - hc
    refine ⟨fun n => ?_, fun n hn hroot hz => ?_⟩
    · have hbal := hc.balanced n
      rw [total_add, (handles_start hv.wf hs).1, hbal]
      omega
    · obtain ⟨hlt, hz⟩ := (handles_start hv.wf hs).2 hn hz
      have hext := extends_start hs
      exact hext.abandoned n (hc.abandoned n hlt (hext.isRoot hlt ▸ hroot) hz)

end Swansong
