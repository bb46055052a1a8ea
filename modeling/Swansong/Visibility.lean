import Swansong.Propagation
import Swansong.Transparency

/-!
# Visibility of the stop signal

A call of `shut_down` that finds its node stopped returns at once, whatever the call that
stopped the node has done so far.  The flags that interrupts read are the shards', which
the first call sets one after the other.  So an interrupt observes the stop after a call
returned, if that call or an earlier one has been through all the shards.

## Main definitions

* `StopVisible` — every operation of an interrupt on the node takes its terminal branch.
* `ReturnsAlone` — when `shut_down` returns, no call is still on its way through the shards.

## Main results

* `signal_visibility` — the signal is visible if the calls return alone.
* `not_visible_of_second` — it is not, if a second call returns early.
-/

namespace Swansong

open Interleave (Machine)

variable {index : ℕ} {choice : Bool} {h h' : Heap} {K : Multiset Frame} {s : State} {n : NodeId}
  {sh : ShardId}

/-- Every operation of an interrupt on the node that begins now takes its terminal branch. -/
structure StopVisible (h : Heap) (n : NodeId) : Prop where
  /-- A poll returns Ready, with the terminal value, without polling the wrapped value. -/
  poll : ∀ (i : Interrupt) (w : Waker) (choice : Bool), i.shard ∈ h.shards n →
    execPoll choice h (.poll i w) = pollReturn h i none
  /-- So does each method that the stop cuts off, whatever is wrapped. -/
  call : ∀ {τ ι : Type} {ω : Outputs} (W : Wrapped τ ι ω) (i : InterruptOf τ) (m : Moment ι)
    (method : Method), m.check = h → i.stopListener.shard ∈ h.shards n →
      method.interrupted = true →
        (i.call W m method).1 = i ∧ method.terminal = some (i.call W m method).2

/-- The stop is visible on a node whose shards are all stopped. -/
theorem stopVisible_of_stopped (hst : ∀ sh ∈ h.shards n, (h.shard sh).stopped = true) :
    StopVisible h n where
  poll i w choice hi := by
    rw [execPoll, if_pos (hst _ hi)]
  call W i m method hm hi hint := by
    subst hm
    exact call_stopped W (hst _ hi) hint

/-! ## Returning -/

/-- A call of `shut_down` on the stack returns after it stopped its node. -/
def StopsFirst (h : Heap) (k : List Frame) : Prop :=
  ∀ n k₁ k₂, k = k₁ ++ .life (.shutDownReturn n) :: k₂ →
    (h.state n).stopped = true ∨ .stop (.node n) ∈ k₁

variable (index choice h n) in
/-- No step pushes the return of `shut_down`. -/
theorem shutDownReturn_not_mem_exec (f : Frame) :
    .life (.shutDownReturn n) ∉ (exec index choice h f).2 := by
  intro hg
  cases f with
  | arrive f => rcases mem_execArrive hg with ⟨_, hg⟩ | ⟨_, hg⟩ | ⟨_, hg⟩ <;> cases hg
  | depart f => rcases mem_execDepart hg with ⟨_, hg⟩ | ⟨_, hg⟩ <;> cases hg
  | stop f => rcases mem_execStop hg with ⟨_, hg⟩ | ⟨_, _, hg⟩ | ⟨_, hg⟩ | ⟨_, hg⟩ <;> cases hg
  | notify event n => simp [exec, execNotify] at hg
  | life f =>
      rcases mem_execLife hg with ⟨_, hg⟩ | ⟨_, -, hg⟩ | ⟨_, hg⟩ | ⟨_, -, hg⟩ | ⟨_, -, hg⟩ <;> cases hg
  | child f => rcases mem_execChild hg with ⟨_, hg⟩ | ⟨_, hg⟩ <;> cases hg
  | guard f => rcases mem_execGuard hg with ⟨_, hg, -⟩ | ⟨_, hg⟩ | ⟨_, hg⟩ | ⟨_, hg⟩ <;> cases hg
  | wait f => rcases mem_execWait hg with ⟨_, hg⟩ | ⟨_, hg⟩ <;> cases hg
  | poll f => obtain ⟨_, hg⟩ := mem_execPoll hg; cases hg
  | walk report todo total out =>
      rcases mem_execWalk hg with ⟨_, _, _, hg⟩ | ⟨_, hg⟩ | ⟨_, -, hg⟩ <;> cases hg

theorem stopsFirst_exec {f : Frame} {k : List Frame} (hk : StopsFirst h (f :: k)) :
    StopsFirst (exec index choice h f).1 ((exec index choice h f).2 ++ k) := by
  intro n k₁ k₂ heq
  obtain ⟨l, rfl, rfl⟩ : ∃ l, k₁ = (exec index choice h f).2 ++ l ∧
      k = l ++ .life (.shutDownReturn n) :: k₂ := by
    rcases List.append_eq_append_iff.mp heq with ⟨l, hk₁, hk⟩ | ⟨l, hfs, hk⟩
    · exact ⟨l, hk₁, hk⟩
    · cases l with
      | nil => exact ⟨[], by simpa using hfs.symm, by simpa using hk.symm⟩
      | cons g l =>
          rw [List.cons_append, List.cons.injEq] at hk
          have hnot := shutDownReturn_not_mem_exec index choice h n f
          exact absurd (by rw [hfs, hk.1]; simp) hnot
  rcases hk n (f :: l) k₂ rfl with hst | hmem
  · exact .inl (extends_exec.stopped n hst)
  · rcases List.mem_cons.mp hmem with rfl | hmem
    · exact .inl (by simp [exec, execStop])
    · exact .inr (List.mem_append_right _ hmem)

theorem stopsFirst_start {fr fs : List Frame} {op : Op}
    (hs : start index h fr op = some (h', fs)) : StopsFirst h' fs := by
  intro n k₁ k₂ heq
  right
  have hmem : .life (.shutDownReturn n) ∈ fs := by simp [heq]
  obtain ⟨l, rfl⟩ : ∃ l, fs = .stop (.node n) :: l := by
    unfold start at hs
    split at hs <;> simp only [Option.ite_none_right_eq_some, Option.some.injEq, Prod.mk.injEq] at hs <;>
      obtain ⟨-, -, rfl⟩ := hs <;> simp at hmem
    subst hmem
    exact ⟨_, rfl⟩
  cases k₁ with
  | nil => cases heq
  | cons g k₁ =>
      obtain ⟨rfl, -⟩ := List.cons.inj heq
      exact List.mem_cons_self ..

/-- When `shut_down` returns, its node is stopped. -/
theorem stopped_of_shutDownReturn {a : Act} (hr : Reachable s)
    (ha : s.top a = some (.life (.shutDownReturn n))) : (s.mem.state n).stopped = true := by
  have hstacks := Machine.stack_invariant (I := StopsFirst) stopsFirst_exec
    (fun {s s' a k} hs hk n k₁ k₂ heq => (hk n k₁ k₂ heq).imp_left
      ((extends_step hs).stopped n)) stopsFirst_start hr
  cases a with
  | start index op => cases ha
  | run i b =>
      obtain ⟨⟨index, k⟩, hi, hk⟩ := Option.bind_eq_some_iff.mp ha
      cases k with
      | nil => cases hk
      | cons f k =>
          obtain rfl := Option.some.inj hk
          rcases hstacks _ (List.mem_of_getElem? hi) n [] k rfl with hst | hmem
          · exact hst
          · cases hmem

/-- What a step adds to the history of returns. -/
theorem returned_exec (f : Frame) (hn : (exec index choice h f).1.returned n = true) :
    h.returned n = true ∨ f = .life (.shutDownReturn n) := by
  cases f with
  | arrive f =>
      obtain ⟨_, _, he⟩ := execArrive_heap index choice h f
      rw [exec, he] at hn
      exact .inl hn
  | depart f => obtain ⟨_, _, he⟩ := execDepart_heap h f; rw [exec, he] at hn; exact .inl hn
  | stop f => obtain ⟨_, _, _, _, _, _, he⟩ := execStop_heap h f; rw [exec, he] at hn; exact .inl hn
  | notify event m => exact .inl hn
  | life f =>
      cases f with
      | shutDownReturn m =>
          rcases eq_or_ne n m with rfl | hne
          · exact .inr rfl
          · exact .inl (by simpa [exec, execLife, hne] using hn)
      | deregister m =>
          simp only [exec, execLife] at hn
          split at hn <;> exact .inl hn
      | _ => exact .inl hn
  | child f =>
      obtain ⟨_, _, _, _, _, _, _, _, _, he⟩ := execChild_heap index h f
      rw [exec, he] at hn
      exact .inl hn
  | guard f =>
      obtain ⟨_, _, _, _, _, _, _, _, he⟩ := execGuard_heap index choice h f
      rw [exec, he] at hn
      exact .inl hn
  | wait f => obtain ⟨_, _, _, _, he⟩ := execWait_heap h f; rw [exec, he] at hn; exact .inl hn
  | poll f => obtain ⟨_, _, he⟩ := execPoll_heap choice h f; rw [exec, he] at hn; exact .inl hn
  | walk report todo total out =>
      obtain ⟨_, _, _, he⟩ := execWalk_heap h report total out todo
      rw [exec, he] at hn
      exact .inl hn

/-! ## The condition -/

/-- When `shut_down` returns, no call is still on its way through the node's shards. -/
def ReturnsAlone (s : State) (a : Act) : Prop :=
  ∀ n, s.top a = some (.life (.shutDownReturn n)) → ∀ sh, sh.node = n → .stop (.shard sh) ∉ s.frames

/-- Under the condition, all shards of a node are stopped when a call has returned. -/
theorem stopped_of_returned (hr : machine.Reach ReturnsAlone s) (hn : s.mem.returned n = true) :
    (s.mem.state n).stopped = true ∧ ∀ sh ∈ s.mem.shards n, (s.mem.shard sh).stopped = true := by
  induction hr with
  | init => cases hn
  | @step s s' a hr hp hs ih =>
      have he := extends_step hs
      have hsame : s.mem.returned n = true ∨ s.top a = some (.life (.shutDownReturn n)) := by
        rcases Machine.step_cases hs with
          ⟨i, b, index, f, k, p, q, rfl, hi, -, rfl⟩ | ⟨index, op, m', fs, rfl, hstart, rfl⟩
        · rcases returned_exec f hn with hn | rfl
          · exact .inl hn
          · exact .inr (Interleave.Config.top_run hi)
        · obtain ⟨_, _, _, _, _, _, _, _, _, _, rfl⟩ := start_heap hstart
          exact .inl hn
      have hpre : (s.mem.state n).stopped = true ∧
          ∀ sh ∈ s.mem.shards n, (s.mem.shard sh).stopped = true := by
        rcases hsame with hn | htop
        · exact ih hn
        · have hst := stopped_of_shutDownReturn hr.reachable htop
          refine ⟨hst, fun sh hsh => ?_⟩
          obtain ⟨j, hj, rfl⟩ := List.mem_map.mp hsh
          have hlt := (sound_reach hr).valid.wf.lt_of_stopped hst
          -- the node ended, and none of its shards is still to be stopped
          have hhas : s.mem.HasShard ⟨n, j⟩ := ⟨hlt, List.mem_range.mp hj⟩
          rcases (latched_reach hr).ended hhas (.inl hst) with hst | hmem
          · exact hst
          · exact absurd hmem (hp n htop _ rfl)
      refine ⟨he.stopped n hpre.1, fun sh hsh => he.latched sh (hpre.2 sh ?_)⟩
      have hlt := (sound_reach hr).valid.wf.lt_of_stopped hpre.1
      rwa [Heap.shards, he.shardCount n hlt] at hsh

/-- **Signal visibility.**  In every run in which calls of `shut_down` return alone, once
some call on a node has returned, every operation of an interrupt on the node that begins
afterwards takes its terminal branch. -/
theorem signal_visibility (hr : machine.Reach ReturnsAlone s) (hn : s.mem.returned n = true) :
    StopVisible s.mem n :=
  stopVisible_of_stopped (stopped_of_returned hr hn).2

/-- Whether a step meets the condition. -/
def returnsAlone (s : State) (a : Act) : Bool :=
  match s.top a with
  | some (.life (.shutDownReturn n)) => s.frames.all fun
    | .stop (.shard sh) => sh.node ≠ n
    | _ => true
  | _ => true

theorem returnsAlone_of_check {a : Act} (h : returnsAlone s a = true) : ReturnsAlone s a := by
  intro n htop sh hsh hmem
  rw [returnsAlone, htop] at h
  have hne := List.all_eq_true.mp h _ hmem
  simp [hsh] at hne

/-- A root with two shards is shut down twice, by one thread after the other. -/
def shutDownTwice : List Act :=
  List.flatten [[.start 0 (.newRoot 2 false), .start 1 (.interrupt 0), .start 0 (.shutDown 0)],
    List.replicate 10 (.run 2 false),
    [.start 1 (.shutDown 0), .run 3 false, .run 3 false, .run 3 false]]

theorem signal_visibility_shutDownTwice : ∃ s, machine.Reach ReturnsAlone s ∧
    s.mem.returned 0 = true ∧ s.mem.interrupts = [⟨⟨0, 1⟩, none, none⟩] ∧ StopVisible s.mem 0 := by
  obtain ⟨s, hr, hs⟩ := Machine.exists_reach (M := machine)
    (fun s a => returnsAlone_of_check (s := s) (a := a)) shutDownTwice
    (p := fun s => s.mem.returned 0 = true ∧ s.mem.interrupts = [⟨⟨0, 1⟩, none, none⟩]) (by decide)
  obtain ⟨hn, hi⟩ := of_decide_eq_true hs
  exact ⟨s, hr, hn, hi, signal_visibility hr hn⟩

/-- A second call returns while the first has yet to stop the shards. -/
def shutDownRacing : List Act :=
  [.start 0 (.newRoot 2 false), .start 1 (.interrupt 0), .start 0 (.shutDown 0), .run 2 false,
    .start 1 (.shutDown 0), .run 3 false, .run 3 false, .run 3 false]

/-- The interrupt is then polled, and polls the wrapped value. -/
theorem not_visible_of_second :
    ¬∀ s, Reachable s → ∀ n, s.mem.returned n = true → StopVisible s.mem n := by
  intro hall
  obtain ⟨s, hr, hs⟩ := Machine.exists_reachable (M := machine) shutDownRacing
    (p := fun s => s.mem.returned 0 = true ∧ (s.mem.shard ⟨0, 1⟩).stopped = false ∧
      (⟨0, 1⟩ : ShardId) ∈ s.mem.shards 0) (by decide)
  obtain ⟨hn, hst, hsh⟩ := of_decide_eq_true hs
  have hpoll := (hall s hr 0 hn).poll ⟨⟨0, 1⟩, none, none⟩ ⟨1, 0⟩ true hsh
  simp [execPoll, hst, pollReturn] at hpoll

end Swansong
