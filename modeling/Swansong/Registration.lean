import Swansong.Latch

/-!
# Registered children

A child registers at a shard of its parent once it is constructed, keeps the key in
its link, and is removed by that key when it is collected.  Keys are reused, so what
is under a child's key has to be that child.

## Main definitions

* `Keyless`, `Placed`, `Deregistering` — what the keys and the frames in flight say.
* `Entered`, `entered_reach` — the invariant: every live child is registered once, or is
  about to be.
-/

namespace Swansong

open Interleave (total total_cons total_coe_cons total_nil total_add total_eq_zero total_nonneg)
open Count (bit bit_of bit_of_not)

variable {index : ℕ} {choice : Bool} {h h' : Heap} {fr K : Multiset Frame} {n m c p : NodeId}
  {sh : ShardId}

/-- How often the child is registered. -/
def Heap.entries (h : Heap) (c : NodeId) : ℕ :=
  match h.parent c with
  | none => 0
  | some q => (h.children ⟨q.node, q.shard⟩).values.count c

/-- Whether the frame has the child's key still to store. -/
noncomputable def Frame.keyless (c : NodeId) : Frame → ℤ
  | .child (.register m) | .child (.storeKey m _) => bit (m = c)
  | _ => 0

/-- What the frame takes from the child's entries. -/
noncomputable def Frame.entry (c : NodeId) : Frame → ℤ
  | .child (.register m) => -bit (m = c)
  | .life (.deregister m) => bit (m = c)
  | _ => 0

theorem Frame.keyless_nonneg (f : Frame) : 0 ≤ f.keyless c := by
  unfold keyless
  split <;> first
    | exact Count.bit_nonneg _
    | omega

/-! ## Keys -/

/-- Exactly while a child has no key, a frame has it still to store. -/
def Keyless (h : Heap) (fr : Multiset Frame) : Prop :=
  ∀ c, bit (h.parent c ≠ none ∧ h.key c = none) = total (Frame.keyless c) fr

theorem keyless_exec {f : Frame} (hv : Valid h (f ::ₘ K)) (hk : Keyless h (f ::ₘ K)) :
    bit ((exec index choice h f).1.parent c ≠ none ∧ (exec index choice h f).1.key c = none) +
      f.keyless c =
      bit (h.parent c ≠ none ∧ h.key c = none) +
        total (Frame.keyless c) ↑(exec index choice h f).2 := by
  have hw := hv.wf
  have hf : f.Valid h := hv.frames _ (Multiset.mem_cons_self _ K)
  by_cases hchild : ∃ f', f = .child f'
  · obtain ⟨f, rfl⟩ := hchild
    cases f with
    | new q => simp [exec, execChild, Frame.keyless]
    | alloc q s =>
        have hsize : h.parent h.size = none := by
          rcases hp : h.parent h.size with _ | r
          · rfl
          · exact absurd (hw.parent hp).1 (lt_irrefl _)
        have hkey := (hw.freshNode le_rfl).2.2.1
        rcases eq_or_ne c h.size with rfl | hne
        · simp [exec, execChild, Frame.keyless, hsize, hkey]
        · simp [exec, execChild, Frame.keyless, hne, hne.symm]
    | register m =>
        obtain ⟨q, -, i, hp⟩ := hf
        simp [exec, execChild, Frame.keyless, hp]
    | storeKey m k =>
        rcases eq_or_ne c m with rfl | hne
        · -- this frame has the key still to store, so there is none
          have hrest := total_nonneg (Frame.keyless_nonneg (c := c)) K
          have hpre := hk c
          have hle := Count.bit_le_one (h.parent c ≠ none ∧ h.key c = none)
          rw [total_cons] at hpre
          simp only [Frame.keyless, Count.bit_true] at hpre
          have hone : bit (h.parent c ≠ none ∧ h.key c = none) = 1 := by omega
          rw [hone]
          simp [exec, execChild, Frame.keyless]
        · simp [exec, execChild, Frame.keyless, hne, hne.symm]
    | check m =>
        obtain ⟨q, -, i, hp⟩ := hf
        simp only [exec, execChild, hp]
        split <;> simp [Frame.keyless]
    | done m => simp [exec, execChild, Frame.keyless]
  · rw [not_exists] at hchild
    obtain ⟨-, hparent, hkey⟩ := tree_exec index choice h hchild
    have hpush : total (Frame.keyless c) ↑(exec index choice h f).2 = 0 := by
      refine total_eq_zero fun g hg => ?_
      cases g with
      | child g =>
          obtain ⟨f', hf'⟩ := child_of_mem_exec hg
          exact absurd hf' (hchild f')
      | _ => rfl
    have hself : f.keyless c = 0 := by
      cases f with
      | child f => exact absurd rfl (hchild f)
      | _ => rfl
    rw [hparent, hkey, hpush, hself]

theorem total_keyless_start {fr fs : List Frame} {op : Op}
    (hs : start index h fr op = some (h', fs)) : total (Frame.keyless c) ↑fs = 0 := by
  refine total_eq_zero fun g hg => ?_
  have hg := starts_of_mem_start hs (Multiset.mem_coe.mp hg)
  unfold Frame.keyless
  split <;> first
    | rfl
    | cases hg

theorem keyless_reach {P : State → Act → Prop} {s : State} (hr : machine.Reach P s) :
    Keyless s.mem s.frames := by
  refine discipline.ledger (fun c h => bit (h.parent c ≠ none ∧ h.key c = none)) Frame.keyless
    (J := Valid) valid_reach ?_ ?_ ?_ hr
  · intro c
    simp [machine, Heap.empty]
  · intro index b h f K _ hv hk c
    exact keyless_exec hv hk
  · intro index h fr op h' fs hs _ _ c
    rw [total_keyless_start hs, add_zero]
    obtain ⟨_, _, _, _, _, _, _, _, _, _, rfl⟩ := start_heap hs
    rfl

/-- A child's key is stored by one frame, at most. -/
theorem Keyless.key_of_storeKey {k : ℕ} (hk : Keyless h (.child (.storeKey c k) ::ₘ K)) :
    h.key c = none ∧ ∀ j, .child (.storeKey c j) ∉ K := by
  have hpre := hk c
  rw [total_cons] at hpre
  simp only [Frame.keyless, Count.bit_true] at hpre
  have hrest := total_nonneg (Frame.keyless_nonneg (c := c)) K
  constructor
  · by_contra hkey
    rw [bit_of_not fun hb => hkey hb.2] at hpre
    omega
  · intro j hj
    have hone := Interleave.le_total (Frame.keyless_nonneg (c := c)) hj
    simp only [Frame.keyless, Count.bit_true] at hone
    have hle := Count.bit_le_one (h.parent c ≠ none ∧ h.key c = none)
    omega

/-! ## What is under a key -/

/-- A child is under its key, or under the key that is about to be stored. -/
def Placed (h : Heap) (fr : Multiset Frame) : Prop :=
  ∀ {sh k c}, (h.children sh).get k = some c → h.key c = some k ∨ .child (.storeKey c k) ∈ fr

theorem placed_exec {f : Frame} (hk : Keyless h (f ::ₘ K)) (hp : Placed h (f ::ₘ K)) :
    Placed (exec index choice h f).1 (↑(exec index choice h f).2 + K) := by
  -- an entry that was there before
  have hold : (exec index choice h f).1.key = h.key → ∀ {sh k c}, (h.children sh).get k = some c →
      (∀ c k, f ≠ .child (.storeKey c k)) → (exec index choice h f).1.key c = some k ∨
        .child (.storeKey c k) ∈ (↑(exec index choice h f).2 + K : Multiset Frame) := by
    intro hkey sh k c hget hf
    rw [hkey]
    refine (hp hget).imp_right fun hmem => Multiset.mem_add.mpr (.inr ?_)
    exact (Multiset.mem_cons.mp hmem).resolve_left (Ne.symm (hf c k))
  intro sh k c hget
  by_cases hchild : ∃ f', f = .child f'
  · obtain ⟨f, rfl⟩ := hchild
    cases f with
    | register m =>
        rcases hpm : h.parent m with _ | q
        · simp only [exec, execChild, hpm] at hget
          exact hold (by simp only [exec, execChild, hpm]) hget (by simp)
        · let up : ShardId := ⟨q.node, q.shard⟩
          have hkey : (exec index choice h (.child (.register m))).1.key = h.key := by
            simp only [exec, execChild, hpm]
          have hchildren : (exec index choice h (.child (.register m))).1.children =
              Function.update h.children up ((h.children up).insert m).1 := by
            simp only [exec, execChild, hpm, up]
          rw [hchildren] at hget
          rcases eq_or_ne sh up with rfl | hne
          · rw [Function.update_self, Slab.get_insert] at hget
            split at hget
            · rename_i hkk
              obtain rfl := Option.some.inj hget
              subst hkk
              refine .inr (Multiset.mem_add.mpr (.inl ?_))
              simp [exec, execChild, hpm, up]
            · exact hold hkey hget (by simp)
          · rw [Function.update_of_ne hne] at hget
            exact hold hkey hget (by simp)
    | storeKey m j =>
        have hget : (h.children sh).get k = some c := hget
        obtain ⟨hnone, hno⟩ := hk.key_of_storeKey
        rcases eq_or_ne c m with rfl | hne
        · left
          rcases hp hget with hkey | hmem
          · rw [hnone] at hkey
            cases hkey
          · rcases Multiset.mem_cons.mp hmem with hmem | hmem
            · simp only [Frame.child.injEq, ChildFrame.storeKey.injEq, true_and] at hmem
              simp [exec, execChild, hmem]
            · exact absurd hmem (hno k)
        · rcases hp hget with hkey | hmem
          · exact .inl (by simp [exec, execChild, hne, hkey])
          · refine .inr (Multiset.mem_add.mpr (.inr ?_))
            refine (Multiset.mem_cons.mp hmem).resolve_left fun he => ?_
            simp only [Frame.child.injEq, ChildFrame.storeKey.injEq] at he
            exact hne he.1
    | check m =>
        have hsame : (exec index choice h (.child (.check m))).1 = h := by
          simp only [exec, execChild]
          split <;> rfl
        rw [hsame] at hget
        exact hold (by rw [hsame]) hget (by simp)
    | _ => exact hold rfl hget (by simp)
  · rw [not_exists] at hchild
    obtain ⟨-, -, hkey⟩ := tree_exec index choice h hchild
    have hget' : (h.children sh).get k = some c := by
      cases f with
      | child f => exact absurd rfl (hchild f)
      | life f =>
          cases f with
          | deregister m =>
              simp only [exec, execLife] at hget
              split at hget
              · rename_i q j _ _
                rcases eq_or_ne sh ⟨q.node, q.shard⟩ with rfl | hne
                · simp only [Function.update_self, Slab.get_remove] at hget
                  split at hget
                  · cases hget
                  · exact hget
                · simpa only [Function.update_of_ne hne] using hget
              · exact hget
          | _ => exact hget
      | _ => rwa [children_exec rfl] at hget
    exact hold hkey hget' fun c k he => hchild _ he

theorem placed_reach {P : State → Act → Prop} {s : State} (hr : machine.Reach P s) :
    Placed s.mem s.frames := by
  refine discipline.invariant (J := Keyless) (I := fun h fr => Placed h fr) keyless_reach ?_ ?_ ?_ hr
  · intro sh k c hget
    simp [machine, Heap.empty] at hget
  · intro index b h f K _ hk _ hp
    exact placed_exec hk hp
  · intro index h fr op h' fs hs _ _ hp sh k c hget
    obtain ⟨_, _, _, _, _, _, _, _, _, _, rfl⟩ := start_heap hs
    exact (hp hget).imp_right fun hmem => Multiset.mem_add.mpr (.inr hmem)

/-! ## Entries -/

/-- A child is deregistered once it is collected. -/
def Deregistering (h : Heap) (fr : Multiset Frame) : Prop :=
  ∀ {n}, .life (.deregister n) ∈ fr → h.strong n = 0

theorem deregistering_reach {P : State → Act → Prop} {s : State} (hr : machine.Reach P s) :
    Deregistering s.mem s.frames := by
  refine discipline.invariant (J := Sound) (I := fun h fr => Deregistering h fr) sound_reach ?_ ?_ ?_ hr
  · intro n hn
    simp at hn
  · intro index b h f K he hs _ hd n hn
    rcases Multiset.mem_add.mp hn with hn | hn
    · obtain ⟨rfl, hone⟩ := deregister_of_mem_exec hn
      simp [machine, exec, execLife, hone]
    · have hdead := hd (Multiset.mem_cons_of_mem hn)
      obtain ⟨q, hlt, -⟩ := hs.valid.frames _ (Multiset.mem_cons_of_mem hn)
      by_contra hlive
      have := live_of_live_exec hs he hlt (Nat.pos_of_ne_zero hlive)
      omega
  · intro index h fr op h' fs hop hs _ hd n hn
    rcases Multiset.mem_add.mp hn with hn | hn
    · cases starts_of_mem_start hop hn
    · obtain ⟨q, hlt, -⟩ := hs.valid.frames _ hn
      exact (strong_start hop hlt).trans (hd hn)

/-- A live child has one entry more than what the frames still have to take or to add. -/
def Entered (h : Heap) (fr : Multiset Frame) : Prop :=
  ∀ c, (h.entries c : ℤ) - bit (h.parent c ≠ none ∧ 0 < h.strong c) = total (Frame.entry c) fr

/-- A step that leaves the node alive leaves it alive. -/
theorem alive_exec {f : Frame} (hs : Sound h (f ::ₘ K)) (he : discipline.Enabled f K)
    (hc : c < h.size) (hf : f ≠ .life (.dropArc c)) :
    0 < (exec index choice h f).1.strong c ↔ 0 < h.strong c :=
  ⟨live_of_live_exec hs he hc, fun hlive => hlive.trans_le (strong_exec _ _ hc hf)⟩

theorem entries_of_children {sh : ShardId} {s : Slab NodeId} (hp : h.parent c = some ⟨sh.node, sh.index⟩) :
    ({ h with children := Function.update h.children sh s } : Heap).entries c = s.values.count c := by
  simp [Heap.entries, hp]

theorem entries_of_other {s : Slab NodeId} (hp : h.parent c ≠ some ⟨sh.node, sh.index⟩) :
    ({ h with children := Function.update h.children sh s } : Heap).entries c = h.entries c := by
  rcases hpc : h.parent c with _ | q
  · simp [Heap.entries, hpc]
  · have hne : (⟨q.node, q.shard⟩ : ShardId) ≠ sh := fun he => hp (by rw [hpc, ← he])
    simp [Heap.entries, hpc, hne]

/-- Registering a child adds one entry. -/
theorem entries_insert (sh : ShardId) (hp : h.parent m = some ⟨sh.node, sh.index⟩) :
    (({ h with children := Function.update h.children sh ((h.children sh).insert m).1 } : Heap).entries c : ℤ) =
      h.entries c + bit (m = c) := by
  by_cases hc : h.parent c = some ⟨sh.node, sh.index⟩
  · rw [entries_of_children hc, ((h.children sh).values_insert m).count_eq, List.count_cons]
    rcases eq_or_ne m c with rfl | hne
    · simp [Heap.entries, hc]
    · simp [Heap.entries, hc, hne]
  · have hne : m ≠ c := fun he => hc (he ▸ hp)
    rw [entries_of_other hc]
    simp [hne]

/-- Removing a child's own entry takes one of its entries. -/
theorem entries_remove {k : ℕ} (hp : h.parent m = some ⟨sh.node, sh.index⟩)
    (hget : (h.children sh).get k = some m) :
    (({ h with children := Function.update h.children sh ((h.children sh).remove k).1 } : Heap).entries c : ℤ) =
      h.entries c - bit (m = c) := by
  by_cases hc : h.parent c = some ⟨sh.node, sh.index⟩
  · have hcount := (Slab.values_remove hget).count_eq c
    rw [List.count_cons] at hcount
    rw [entries_of_children hc]
    simp only [Heap.entries, hc, hcount]
    rcases eq_or_ne m c with rfl | hne
    · simp
    · simp [hne]
  · have hne : m ≠ c := fun he => hc (he ▸ hp)
    rw [entries_of_other hc]
    simp [hne]

/-- A child that is about to be deregistered is still under its key. -/
theorem get_of_deregister (hs : Sound h (.life (.deregister m) ::ₘ K))
    (hp : Placed h (.life (.deregister m) ::ₘ K))
    (hd : Deregistering h (.life (.deregister m) ::ₘ K))
    (hent : Entered h (.life (.deregister m) ::ₘ K)) {q : Parent} (hq : h.parent m = some q) :
    ∃ k, h.key m = some k ∧ (h.children ⟨q.node, q.shard⟩).get k = some m := by
  have hdead := hd (Multiset.mem_cons_self _ K)
  have hno : ∀ f ∈ (.life (.deregister m) ::ₘ K : Multiset Frame), f.refs m = 0 := by
    intro f hf
    have hnonneg := f.refs_nonneg (n := m)
    by_contra hne
    have := hs.references.live_of_refs hf (n := m) (by omega)
    omega
  have hrest : 0 ≤ total (Frame.entry m) K := by
    refine Interleave.total_nonneg_of_mem fun f hf => ?_
    have href := hno f (Multiset.mem_cons_of_mem hf)
    unfold Frame.entry
    split
    · simp only [Frame.refs] at href
      simp [href]
    · exact Count.bit_nonneg _
    · exact le_rfl
  have hcount : 0 < h.entries m := by
    have hpre := hent m
    rw [total_cons, hdead] at hpre
    simp only [Frame.entry, Count.bit_true, lt_irrefl, and_false, Count.bit_false] at hpre
    omega
  have hmem : m ∈ (h.children ⟨q.node, q.shard⟩).values := by
    refine List.count_pos_iff.mp ?_
    simpa [Heap.entries, hq] using hcount
  obtain ⟨k, hget⟩ := Slab.mem_values.mp hmem
  refine ⟨k, (hp hget).resolve_right fun hf => ?_, hget⟩
  have := hno _ hf
  simp [Frame.refs] at this

theorem entered_exec {f : Frame} (hs : Sound h (f ::ₘ K)) (he : discipline.Enabled f K)
    (hp : Placed h (f ::ₘ K)) (hd : Deregistering h (f ::ₘ K)) (hent : Entered h (f ::ₘ K)) :
    ((exec index choice h f).1.entries c : ℤ) - bit ((exec index choice h f).1.parent c ≠ none ∧
      0 < (exec index choice h f).1.strong c) + f.entry c =
      h.entries c - bit (h.parent c ≠ none ∧ 0 < h.strong c) +
        total (Frame.entry c) ↑(exec index choice h f).2 := by
  have hw := hs.valid.wf
  have hv : f.Valid h := hs.valid.frames _ (Multiset.mem_cons_self _ K)
  -- a step that leaves the tree, the entries and the node's life alone
  have hsame : (exec index choice h f).1.parent = h.parent →
      (exec index choice h f).1.children = h.children → f ≠ .life (.dropArc c) →
      ((exec index choice h f).1.entries c : ℤ) - bit ((exec index choice h f).1.parent c ≠ none ∧
        0 < (exec index choice h f).1.strong c) =
        h.entries c - bit (h.parent c ≠ none ∧ 0 < h.strong c) := by
    intro hparent hchildren hf
    have hentries : (exec index choice h f).1.entries c = h.entries c := by
      simp only [Heap.entries, hparent, hchildren]
    rw [hentries, hparent]
    by_cases hpc : h.parent c = none
    · simp [hpc]
    · obtain ⟨q, hq⟩ := Option.ne_none_iff_exists'.mp hpc
      rw [Count.bit_congr (and_congr_right fun _ => alive_exec hs he (hw.parent hq).1 hf)]
  have hpush : (∀ n, .child (.register n) ∉ (exec index choice h f).2) →
      (∀ n, .life (.deregister n) ∉ (exec index choice h f).2) →
      total (Frame.entry c) ↑(exec index choice h f).2 = 0 := by
    intro hr hdr
    refine total_eq_zero fun g hg => ?_
    unfold Frame.entry
    split
    · exact absurd hg (hr _)
    · exact absurd hg (hdr _)
    · rfl
  cases f with
  | life f =>
      cases f with
      | dropArc m =>
          rcases eq_or_ne c m with rfl | hne
          · have hlive : 0 < h.strong c :=
              hs.references.live_of_refs (Multiset.mem_cons_self _ K) (by simp [Frame.refs])
            have hentries : (exec index choice h (.life (.dropArc c))).1.entries c = h.entries c := rfl
            have hparent : (exec index choice h (.life (.dropArc c))).1.parent = h.parent := rfl
            have hstrong : (exec index choice h (.life (.dropArc c))).1.strong c = h.strong c - 1 := by
              simp [exec, execLife]
            rw [hentries, hparent, hstrong]
            have hstop : total (Frame.entry c) ↑(stopShards h c) = 0 :=
              total_eq_zero fun g hg => by
                obtain ⟨sh, -, rfl⟩ := mem_stopShards.mp hg
                rfl
            by_cases hone : h.strong c = 1
            · rcases hpc : h.parent c with _ | q
              · simp [exec, execLife, hone, collect, hpc, hstop, Frame.entry]
              · simp [exec, execLife, hone, collect, hpc, hstop, Frame.entry]
            · have hleft : 0 < h.strong c - 1 := by omega
              simp [exec, execLife, hone, Frame.entry, hlive, hleft]
          · rw [hsame rfl rfl (by simpa using hne.symm)]
            have hstop : total (Frame.entry c) ↑(stopShards h m) = 0 :=
              total_eq_zero fun g hg => by
                obtain ⟨sh, -, rfl⟩ := mem_stopShards.mp hg
                rfl
            simp only [exec, execLife]
            split
            · rcases hpm : h.parent m with _ | q <;> simp [collect, hpm, hstop, Frame.entry, hne.symm]
            · simp [Frame.entry]
      | deregister m =>
          obtain ⟨p, -, i, hq⟩ := hv
          obtain ⟨k, hkey, hget⟩ := get_of_deregister hs hp hd hent hq
          have hentries : ((exec index choice h (.life (.deregister m))).1.entries c : ℤ) =
              h.entries c - bit (m = c) := by
            simp only [exec, execLife, hq, hkey]
            exact entries_remove hq hget
          have hparent : (exec index choice h (.life (.deregister m))).1.parent = h.parent := by
            simp only [exec, execLife, hq, hkey]
          have hstrong : (exec index choice h (.life (.deregister m))).1.strong = h.strong := by
            simp only [exec, execLife, hq, hkey]
          have hfs : (exec index choice h (.life (.deregister m))).2 = [] := by
            simp only [exec, execLife, hq, hkey]
          rw [hentries, hparent, hstrong, hfs]
          simp only [Frame.entry, total_nil]
          omega
      | cloneHandle m =>
          rw [hsame rfl rfl (by simp)]
          simp [exec, execLife, Frame.entry]
      | dropHandle m =>
          rw [hsame rfl rfl (by simp), hpush]
          · simp [Frame.entry]
          · intro n hn
            obtain ⟨f', hf'⟩ := child_of_mem_exec hn
            cases hf'
          · intro n hn
            obtain ⟨hf', -⟩ := deregister_of_mem_exec hn
            cases hf'
      | _ =>
          rw [hsame rfl rfl (by simp)]
          simp [exec, execLife, Frame.entry]
  | child f =>
      cases f with
      | new q =>
          rw [hsame rfl rfl (by simp)]
          simp [exec, execChild, Frame.entry]
      | alloc q s =>
          have hnone : h.parent h.size = none := by
            rcases hp : h.parent h.size with _ | r
            · rfl
            · exact absurd (hw.parent hp).1 (lt_irrefl _)
          rcases eq_or_ne c h.size with rfl | hne
          · have hnot : h.size ∉ (h.children ⟨q, s⟩).values := fun hmem => by
              have := hw.children hmem
              rw [hnone] at this
              cases this
            simp [exec, execChild, Heap.entries, Frame.entry, hnone, List.count_eq_zero_of_not_mem hnot]
          · simp [exec, execChild, Heap.entries, Frame.entry, hne, hne.symm]
      | register m =>
          obtain ⟨p, -, i, hq⟩ := hv
          have hentries : ((exec index choice h (.child (.register m))).1.entries c : ℤ) =
              h.entries c + bit (m = c) := by
            simp only [exec, execChild, hq]
            exact entries_insert ⟨p, i⟩ hq
          have hparent : (exec index choice h (.child (.register m))).1.parent = h.parent := by
            simp only [exec, execChild, hq]
          have hstrong : (exec index choice h (.child (.register m))).1.strong = h.strong := by
            simp only [exec, execChild, hq]
          have hfs : total (Frame.entry c) ↑(exec index choice h (.child (.register m))).2 = 0 := by
            simp [exec, execChild, hq, Frame.entry]
          rw [hentries, hparent, hstrong, hfs]
          simp only [Frame.entry]
          omega
      | storeKey m k =>
          rw [hsame rfl rfl (by simp)]
          simp [exec, execChild, Frame.entry]
      | check m =>
          obtain ⟨p, -, i, hq⟩ := hv
          rw [hsame (by simp only [exec, execChild, hq]) (by simp only [exec, execChild, hq]) (by simp)]
          simp only [exec, execChild, hq]
          split <;> simp [Frame.entry]
      | done m =>
          rw [hsame rfl rfl (by simp)]
          simp [exec, execChild, Frame.entry]
  | _ =>
      rw [hsame (tree_exec _ _ _ (by simp)).2.1 (children_exec rfl) (by simp), hpush]
      · simp [Frame.entry]
      · intro n hn
        obtain ⟨f', hf'⟩ := child_of_mem_exec hn
        cases hf'
      · intro n hn
        obtain ⟨hf', -⟩ := deregister_of_mem_exec hn
        cases hf'

theorem entered_start {fr fs : List Frame} {op : Op} (hw : h.Wf)
    (hs : start index h fr op = some (h', fs)) :
    (h'.entries c : ℤ) - bit (h'.parent c ≠ none ∧ 0 < h'.strong c) =
      h.entries c - bit (h.parent c ≠ none ∧ 0 < h.strong c) + total (Frame.entry c) ↑fs := by
  have htree : h'.parent = h.parent ∧ h'.children = h.children := by
    obtain ⟨_, _, _, _, _, _, _, _, _, _, rfl⟩ := start_heap hs
    exact ⟨rfl, rfl⟩
  have hpush : total (Frame.entry c) ↑fs = 0 := by
    refine total_eq_zero fun g hg => ?_
    have hg := starts_of_mem_start hs (Multiset.mem_coe.mp hg)
    unfold Frame.entry
    split <;> first
      | rfl
      | cases hg
  have hentries : h'.entries c = h.entries c := by simp only [Heap.entries, htree.1, htree.2]
  rw [hpush, hentries, htree.1, add_zero]
  rcases hp : h.parent c with _ | q
  · simp
  · rw [strong_start hs (hw.parent hp).1]

theorem entered_reach {P : State → Act → Prop} {s : State} (hr : machine.Reach P s) :
    Entered s.mem s.frames := by
  refine discipline.ledger
    (fun c h => (h.entries c : ℤ) - bit (h.parent c ≠ none ∧ 0 < h.strong c)) Frame.entry
    (J := fun h fr => Sound h fr ∧ Placed h fr ∧ Deregistering h fr)
    (fun hr => ⟨sound_reach hr, placed_reach hr, deregistering_reach hr⟩) ?_ ?_ ?_ hr
  · intro c
    simp [machine, Heap.empty, Heap.entries]
  · rintro index b h f K he ⟨hs, hp, hd⟩ hent c
    exact entered_exec hs he hp hd hent
  · rintro index h fr op h' fs hop ⟨hs, -, -⟩ - c
    exact entered_start hs.valid.wf hop

/-! ## Live children -/

/-- A live child is registered, unless its registration is about to be made. -/
theorem registered_of_live (hent : Entered h fr) {q : Parent}
    (hq : h.parent c = some q) (hlive : 0 < h.strong c) :
    c ∈ (h.children ⟨q.node, q.shard⟩).values ∨ .child (.register c) ∈ fr := by
  by_contra hnot
  obtain ⟨hmem, hreg⟩ := not_or.mp hnot
  have hentries : h.entries c = 0 := by
    simpa [Heap.entries, hq] using List.count_eq_zero_of_not_mem hmem
  have htotal : 0 ≤ total (Frame.entry c) fr := by
    refine Interleave.total_nonneg_of_mem fun f hf => ?_
    unfold Frame.entry
    split
    · rename_i m
      have hne : m ≠ c := fun he => hreg (he ▸ hf)
      simp [hne]
    · exact Count.bit_nonneg _
    · exact le_rfl
  have hpre := hent c
  rw [hentries, bit_of ⟨by simp [hq], hlive⟩] at hpre
  omega

end Swansong
