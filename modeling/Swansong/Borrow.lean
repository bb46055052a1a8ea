import Swansong.Valid

/-!
# Borrows

A call on `&Swansong` or `&Guard` leaves the value in the client's hands, and the
value cannot be consumed before the call returns.  So what a call in flight borrows
is still there, and keeps its node alive.
-/

namespace Swansong

variable {index : ℕ} {choice : Bool} {h h' : Heap} {sh : ShardId}

/-- What an atomic step keeps in the clients' hands: only starting an operation
consumes a value. -/
structure Heap.Keeps (h h' : Heap) : Prop where
  handles : ∀ n, h.handles n ≤ h'.handles n
  guards : h.guards ⊆ h'.guards

theorem Heap.Keeps.of_eq (hh : h'.handles = h.handles) (hg : h'.guards = h.guards) : h.Keeps h' :=
  ⟨fun n => (congrFun hh n).ge, hg ▸ List.Subset.refl _⟩

theorem le_update_succ (m : ℕ → ℕ) (n k : ℕ) : m k ≤ Function.update m n (m n + 1) k := by
  rcases eq_or_ne k n with rfl | hne
  · simp
  · simp [hne]

theorem keeps_provenance {location : Location} : h.Keeps (provenance h sh location).1 := by
  unfold provenance
  split <;> exact .of_eq rfl rfl

theorem keeps_execGuard {f : GuardFrame} : h.Keeps (execGuard index choice h f).1 := by
  cases f with
  | new n location => exact keeps_provenance
  | clone g => exact keeps_provenance
  | finish sh pin location info =>
      simp only [execGuard]
      split <;> exact ⟨fun _ => le_rfl, List.subset_cons_self _ _⟩
  | forShardFinish sh location =>
      have hk : h.Keeps (provenance h sh location).1 := keeps_provenance
      exact { handles := hk.handles, guards := fun g hg => List.mem_cons_of_mem _ (hk.guards hg) }
  | _ => simp only [execGuard]; (repeat' split) <;> exact .of_eq rfl rfl

theorem keeps_exec {f : Frame} : h.Keeps (exec index choice h f).1 := by
  cases f with
  | arrive f => obtain ⟨_, _, he⟩ := execArrive_heap index choice h f; rw [exec, he]; exact .of_eq rfl rfl
  | depart f => obtain ⟨_, _, he⟩ := execDepart_heap h f; rw [exec, he]; exact .of_eq rfl rfl
  | stop f => obtain ⟨_, _, _, _, _, _, he⟩ := execStop_heap h f; rw [exec, he]; exact .of_eq rfl rfl
  | notify event n => exact .of_eq rfl rfl
  | life f =>
      cases f with
      | cloneArc n => exact ⟨le_update_succ _ _, List.Subset.refl _⟩
      | deregister n => simp only [exec, execLife]; split <;> exact .of_eq rfl rfl
      | _ => exact .of_eq rfl rfl
  | child f =>
      cases f with
      | done c => exact ⟨le_update_succ _ _, List.Subset.refl _⟩
      | register c => simp only [exec, execChild]; split <;> exact .of_eq rfl rfl
      | check c => simp only [exec, execChild]; split <;> exact .of_eq rfl rfl
      | _ => exact .of_eq rfl rfl
  | guard f => exact keeps_execGuard
  | wait f => obtain ⟨_, _, _, _, he⟩ := execWait_heap h f; rw [exec, he]; exact .of_eq rfl rfl
  | poll f => obtain ⟨_, _, he⟩ := execPoll_heap choice h f; rw [exec, he]; exact .of_eq rfl rfl
  | walk report todo total out =>
      obtain ⟨_, _, _, he⟩ := execWalk_heap h report total out todo
      rw [exec, he]
      exact .of_eq rfl rfl

/-- Whether the frame ends a borrow of a client's value. -/
def Frame.borrows : Frame → Bool
  | .life (.release _) | .guard (.release _) => true
  | _ => false

/-- No step begins a borrow; only starting an operation does. -/
theorem borrows_of_mem_exec {f g : Frame} (hg : g ∈ (exec index choice h f).2) :
    g.borrows = false := by
  cases f with
  | arrive f => rcases mem_execArrive hg with ⟨_, rfl⟩ | ⟨_, rfl⟩ | ⟨_, rfl⟩ <;> rfl
  | depart f => rcases mem_execDepart hg with ⟨_, rfl⟩ | ⟨_, rfl⟩ <;> rfl
  | stop f => rcases mem_execStop hg with ⟨_, rfl⟩ | ⟨_, _, rfl⟩ | ⟨_, rfl⟩ | ⟨_, rfl⟩ <;> rfl
  | notify event n => simp [exec, execNotify] at hg
  | life f =>
      rcases mem_execLife hg with ⟨_, rfl⟩ | ⟨_, -, rfl⟩ | ⟨_, rfl⟩ | ⟨_, -, rfl⟩ | ⟨_, -, rfl⟩ <;> rfl
  | child f => rcases mem_execChild hg with ⟨_, rfl⟩ | ⟨_, rfl⟩ <;> rfl
  | guard f =>
      rcases mem_execGuard hg with ⟨f', rfl, hf'⟩ | ⟨_, rfl⟩ | ⟨_, rfl⟩ | ⟨_, rfl⟩
      · cases f' with
        | release g => exact absurd rfl (hf' g)
        | _ => rfl
      all_goals rfl
  | wait f => rcases mem_execWait hg with ⟨_, rfl⟩ | ⟨_, rfl⟩ <;> rfl
  | poll f => obtain ⟨_, rfl⟩ := mem_execPoll hg; rfl
  | walk report todo total out =>
      rcases mem_execWalk hg with ⟨_, _, _, rfl⟩ | ⟨_, rfl⟩ | ⟨_, -, rfl⟩ <;> rfl

/-- What a call borrows is still in the clients' hands. -/
structure Borrowed (h : Heap) (fr : Multiset Frame) : Prop where
  handle : ∀ {n}, .life (.release n) ∈ fr → 0 < h.handles n
  guard : ∀ {g}, .guard (.release g) ∈ fr → g ∈ h.guards

theorem borrowed_start {fr fs : List Frame} {op : Op} (hb : Borrowed h fr)
    (hs : start index h fr op = some (h', fs)) : Borrowed h' (↑fs + ↑fr) := by
  have hhandle : ∀ {m}, Frame.life (.release m) ∈ fr → 0 < h.handles m :=
    fun hm => hb.handle (Multiset.mem_coe.mpr hm)
  have hguard : ∀ {g}, Frame.guard (.release g) ∈ fr → g ∈ h.guards :=
    fun hg => hb.guard (Multiset.mem_coe.mpr hg)
  have htake : ∀ {n m}, FreeHandle h fr n → Frame.life (.release m) ∈ fr →
      0 < (takeHandle h n).handles m := by
    intro n m hn hm
    have hpos := hhandle hm
    rcases eq_or_ne m n with rfl | hne
    · have hgt : 1 < h.handles m := hn.2.resolve_right fun hno => hno hm
      simp only [takeHandle, Function.update_self]
      omega
    · simpa [takeHandle, hne] using hpos
  have htakeGuard : ∀ {g g'}, FreeGuard h fr g → Frame.guard (.release g') ∈ fr →
      g' ∈ (takeGuard h g).guards := by
    intro g g' hg hg'
    have hne : g' ≠ g := fun he => hg.2 (he ▸ hg')
    exact (List.mem_erase_of_ne hne).mpr (hguard hg')
  unfold start at hs
  split at hs <;> simp only [Option.ite_none_right_eq_some, Option.some.injEq, Prod.mk.injEq] at hs <;>
    obtain ⟨hop, rfl, rfl⟩ := hs <;> constructor <;> intro x hx <;>
    simp only [Multiset.mem_add, Multiset.mem_coe, List.mem_cons, List.not_mem_nil, or_false,
      false_or, reduceCtorEq, Frame.life.injEq, Frame.guard.injEq, LifeFrame.release.injEq,
      GuardFrame.release.injEq] at hx
  all_goals first
    | exact hhandle hx
    | exact hguard hx
    | exact htake hop hx
    | exact htakeGuard hop hx
    | exact htakeGuard hop.2 hx
    | skip
  case h_1.handle =>
    have hpos := hhandle hx
    rcases eq_or_ne x h.size with rfl | hne
    · simp [newRoot]
    · simpa [newRoot, hne] using hpos
  all_goals
    rcases hx with rfl | hx
    · exact hop
    · first
      | exact hhandle hx
      | exact hguard hx

/-- In every reachable state, what a call borrows is still in the clients' hands. -/
theorem borrowed_reach {P : State → Act → Prop} {s : State} (hr : machine.Reach P s) :
    Borrowed s.mem s.frames := by
  refine discipline.invariant (J := fun _ _ => True) (fun _ => trivial) ⟨by simp, by simp⟩ ?_ ?_ hr
  · rintro index b h f K - - - hb
    have hk : h.Keeps (exec index b h f).1 := keeps_exec
    constructor
    · intro n hn
      rcases Multiset.mem_add.mp hn with hn | hn
      · cases borrows_of_mem_exec hn
      · exact (hb.handle (Multiset.mem_cons_of_mem hn)).trans_le (hk.handles n)
    · intro g hg
      rcases Multiset.mem_add.mp hg with hg | hg
      · cases borrows_of_mem_exec hg
      · exact hk.guards (hb.guard (Multiset.mem_cons_of_mem hg))
  · rintro index h fr op h' fs hs - - hb
    exact borrowed_start hb hs

end Swansong
