import Swansong.Ranks
import Swansong.Events

/-!
# Calls come to rest

Every run of the calls in flight ends, whatever the schedule.  Then each has returned, or
blocks on a listener that was not notified.  A call that blocks then has a reason: nobody
told its node to stop, or a guard below it is left.

A critical section is one step here, so a thread that is stopped between two of its steps
holds no shard's lock; `Swansong.Locks` is about the locks.  That `notify(usize::MAX)`
reaches all listeners created before it is assumed of `event_listener`, in `execNotify`.

## Main definitions

* `AtRest` — the thread has returned, or blocks.
* `Justified` — why a wait goes on.
* `runs_come_to_rest`, `alone_comes_to_rest`, `calls_come_to_rest` — the results.
* `shutdown_comes_to_its_end` — what they mean for a node that was told to stop.
-/

namespace Swansong

open Interleave (Machine)

variable {i index : ℕ} {choice : Bool} {h h' : Heap} {s : State} {n : NodeId}

/-! ## Calls that block -/

/-- Whether the call blocks its thread. -/
def WaitFrame.blocking : WaitFrame → Bool
  | .create _ _ b | .stopped _ b | .zero _ b | .listen _ b | .stoppedAgain _ _ b
  | .zeroAgain _ _ b | .park _ _ b => b

/-- The frame is a step of a call that blocks its thread. -/
def Frame.blocks : Frame → Bool
  | .wait w => w.blocking
  | _ => false

/-- Only waits go on with a wait. -/
theorem wait_of_mem_exec {f : Frame} {w : WaitFrame} (hg : .wait w ∈ (exec index choice h f).2) :
    ∃ w', f = .wait w' := by
  by_contra hf
  push Not at hf
  exact (observers_exec index choice h hf).2 w hg

/-- A wait goes on as it was called, or returns. -/
theorem execWait_blocking (w : WaitFrame) : (∀ f ∈ (execWait h w).2, f.blocks = false) ∨
    ∃ w' : WaitFrame, w'.blocking = w.blocking ∧ (execWait h w).2 = [.wait w'] := by
  cases w <;> simp only [execWait, waitReady, waitNext] <;> (repeat' split) <;>
    first
      | refine .inr ⟨_, ?_, rfl⟩
        simp_all [WaitFrame.blocking]
      | exact .inl (by simp [Frame.blocks])

/-- A call that blocks is the only thing its thread does, except what it does to return. -/
def Stacked (k : List Frame) : Prop :=
  (∀ f ∈ k, f.blocks = false) ∨ ∃ w k', k = .wait w :: k' ∧ w.blocking = true ∧
    ∀ f ∈ k', f.blocks = false ∧ f.idle = true

theorem stacked_exec {f : Frame} {k : List Frame} (hk : Stacked (f :: k)) :
    Stacked ((exec index choice h f).2 ++ k) := by
  have hplain : (∀ g ∈ (exec index choice h f).2, g.blocks = false) → (∀ g ∈ k, g.blocks = false) →
      Stacked ((exec index choice h f).2 ++ k) := fun hpush hbelow =>
    .inl fun g hg => (List.mem_append.mp hg).elim (hpush g) (hbelow g)
  rcases hk with hk | ⟨w, k', he, hw, hk'⟩
  · refine hplain (fun g hg => ?_) fun g hg => hk g (List.mem_cons_of_mem f hg)
    cases g with
    | wait w =>
        obtain ⟨w', rfl⟩ := wait_of_mem_exec hg
        rcases execWait_blocking (h := h) w' with hpush | ⟨w₁, hw₁, hpush⟩
        · exact hpush _ hg
        · have hg : Frame.wait w ∈ (execWait h w').2 := hg
          rw [hpush, List.mem_singleton] at hg
          obtain rfl := Frame.wait.inj hg
          exact hw₁.trans (hk (.wait w') List.mem_cons_self)
    | _ => rfl
  · obtain ⟨rfl, rfl⟩ := List.cons.inj he
    rcases execWait_blocking (h := h) w with hpush | ⟨w₁, hw₁, hpush⟩
    · exact hplain hpush fun g hg => (hk' g hg).1
    · exact .inr ⟨w₁, k, congrArg (· ++ k) hpush, hw₁.trans hw, hk'⟩

theorem stacked_start {fr fs : List Frame} {op : Op} (hs : start index h fr op = some (h', fs)) :
    Stacked fs := by
  unfold start at hs
  split at hs <;> simp only [Option.ite_none_right_eq_some, Option.some.injEq, Prod.mk.injEq] at hs <;>
    obtain ⟨-, -, rfl⟩ := hs
  all_goals
    first
      | exact .inr ⟨_, _, rfl, rfl, by simp [Frame.blocks, Frame.idle]⟩
      | exact .inl (by simp [Frame.blocks, WaitFrame.blocking])

theorem stacked_reach {P : State → Act → Prop} (hr : machine.Reach P s) :
    ∀ t ∈ s.pool, Stacked t.stack := by
  refine Machine.stack_invariant (I := fun _ k => Stacked k) ?_ ?_ ?_ hr
  · intro index b h f k hk
    exact stacked_exec hk
  · intro s s' a k _ hk
    exact hk
  · intro index h fr op h' fs hs
    exact stacked_start hs

/-! ## Threads at rest -/

/-- A thread that blocks may rest while its listener was not notified. -/
def Parks (blocking : Bool) (h : Heap) (f : Frame) : Prop :=
  blocking = true ∧ ∃ o l, f = .wait (.park o l true) ∧ (h.listeners l).notified = false

/-- The thread has returned from its call, or blocks on a listener that was not notified. -/
def AtRest (h : Heap) (k : List Frame) : Prop := k = [] ∨ ∃ f k', k = f :: k' ∧ Parks true h f

theorem Frame.moves_or_parks (f : Frame) : f.Moves h false ∨ Parks true h f := by
  unfold Frame.Moves
  split
  · exact .inl fun _ => rfl
  · exact .inl fun _ => rfl
  · exact .inl fun _ => rfl
  · rename_i o l
    by_cases hn : (h.listeners l).notified = true
    · exact .inl hn
    · exact .inr ⟨rfl, o, l, rfl, by simpa using hn⟩
  · exact .inl trivial

/-- A thread that has no move left is at rest. -/
theorem atRest_of_not_moves {k : List Frame} (hi : s.pool[i]? = some ⟨index, k⟩)
    (hstuck : ¬Machine.Moves Frame.Moves s (.run i false : Act)) : AtRest s.mem k := by
  cases k with
  | nil => exact .inl rfl
  | cons f k =>
      refine .inr ⟨f, k, rfl, f.moves_or_parks.resolve_left fun hm => hstuck ?_⟩
      exact ⟨i, false, f, rfl, Interleave.Config.top_run hi, hm⟩

theorem atRest_of_stuck (hstuck : ∀ i, ¬Machine.Moves Frame.Moves s (.run i false : Act)) :
    ∀ t ∈ s.pool, AtRest s.mem t.stack := by
  intro t ht
  obtain ⟨i, hi⟩ := List.mem_iff_getElem?.mp ht
  exact atRest_of_not_moves hi (hstuck i)

/-- A thread at rest has no move left. -/
theorem not_moves_of_atRest (hrest : ∀ t ∈ s.pool, AtRest s.mem t.stack) (a : Act) :
    ¬Machine.Moves Frame.Moves s a := by
  rintro ⟨i, b, f, rfl, htop, hm⟩
  obtain ⟨t, hi, hk⟩ := Option.bind_eq_some_iff.mp htop
  rcases hrest t (List.mem_of_getElem? hi) with he | ⟨g, k, he, -, o, l, rfl, hn⟩
  · rw [he] at hk
    cases hk
  · rw [he] at hk
    obtain rfl := Option.some.inj hk
    have hm : (s.mem.listeners l).notified = true := hm
    rw [hn] at hm
    cases hm

/-- Alone, a thread comes to rest. -/
theorem alone_rests (hr : Reachable s) {k : List Frame} (hi : s.pool[i]? = some ⟨index, k⟩) :
    ∃ s' k', machine.Alone i s s' ∧ s'.pool[i]? = some ⟨index, k'⟩ ∧ AtRest s'.mem k' := by
  have hends : machine.Terminates (fun s a => Machine.Moves Frame.Moves s a ∧ a = .run i false) s :=
    (terminates hr).mono fun _ _ hm => hm.1
  obtain ⟨s', hl, hstuck⟩ := hends.exists_leads fun _ _ hm => hm.1.exists_step
  obtain ⟨k', hi'⟩ := hl.exists_thread hi
  exact ⟨s', k', hl.mono fun _ _ hm => hm.2, hi',
    atRest_of_not_moves hi' fun hm => hstuck _ ⟨hm, rfl⟩⟩

/-- With no new call, all threads can be brought to rest. -/
theorem exists_rest (hr : Reachable s) : ∃ s', machine.Leads (fun _ a => ∃ i, a = .run i false) s s' ∧
    ∀ t ∈ s'.pool, AtRest s'.mem t.stack := by
  have hends : machine.Terminates
      (fun s a => Machine.Moves Frame.Moves s a ∧ ∃ i, a = .run i false) s :=
    (terminates hr).mono fun _ _ hm => hm.1
  obtain ⟨s', hl, hstuck⟩ := hends.exists_leads fun _ _ hm => hm.1.exists_step
  exact ⟨s', hl.mono fun _ _ hm => hm.2, atRest_of_stuck fun i hm => hstuck _ ⟨hm, i, rfl⟩⟩

/-! ## The results -/

theorem quiescent_of_rest (hr : Reachable s) (hrest : ∀ t ∈ s.pool, AtRest s.mem t.stack) :
    Quiescent s := by
  intro f hf
  obtain ⟨t, ht, hft⟩ := List.mem_flatMap.mp hf
  rcases hrest t ht with he | ⟨g, k, he, -, o, l, rfl, -⟩
  · simp [he] at hft
  · rw [he] at hft
    rcases stacked_reach hr t ht with hk | ⟨w, k', he', -, hk'⟩
    · cases hk (.wait (.park o l true)) (by simp [he])
    · obtain ⟨-, rfl⟩ := List.cons.inj (he.symm.trans he')
      rcases List.mem_cons.mp hft with rfl | hft
      · rfl
      · exact (hk' f hft).2

/-- Nobody told the node or an ancestor to stop, or guards are left and are waited for. -/
def Justified (h : Heap) (o : Observer) : Prop :=
  (∀ a ∈ h.lineage o.node, ¬h.Told a) ∨ o.event = .zero ∧ h.guardsBelow o.node ≠ []

/-- At rest, what has not come for a live node has a reason. -/
theorem Quiescent.justified (hq : Quiescent s) (hr : Reachable s) {o : Observer}
    (hn : s.mem.Live o.node) (hf : ¬Fired s.mem o.event o.node) : Justified s.mem o := by
  by_cases hst : (s.mem.state o.node).stopped = true
  · cases hevent : o.event with
    | stop =>
        rw [hevent] at hf
        exact absurd hst hf
    | zero =>
        rw [hevent] at hf
        refine .inr ⟨hevent, fun hnone => hf ⟨hst, ?_⟩⟩
        exact (hq.zero_iff hr hn hst).mpr hnone
  · refine .inl fun a ha htold => hst ?_
    rcases (propagated_reach hr).told htold with hstop | hmem
    · exact stopped_of_ancestor hr hq.stopsDone ha hstop hn
    · cases hq _ (Multiset.mem_coe.mp hmem)

/-- **Every run ends.**  From every reachable state, with no new call, no run goes on for
ever in which a weak compare-and-swap fails only if the word has changed, and a blocked
thread goes on only once it is notified.  Such a run has come to its end exactly when each
thread has returned or blocks on a listener that was not notified. -/
theorem runs_come_to_rest (hr : Reachable s) :
    (¬∃ run : ℕ → State, run 0 = s ∧ ∀ k, ∃ a : Act, Machine.Moves Frame.Moves (run k) a ∧
      machine.step (run k) a = some (run (k + 1))) ∧
    ∀ s', machine.Leads (Machine.Moves Frame.Moves) s s' →
      ((∀ a : Act, ¬Machine.Moves Frame.Moves s' a) ↔ ∀ t ∈ s'.pool, AtRest s'.mem t.stack) := by
  refine ⟨(terminates hr).not_exists_run, fun s' _ => ?_⟩
  exact ⟨fun hstuck => atRest_of_stuck fun i => hstuck _, not_moves_of_atRest⟩

/-- A guard is left of a stopped root, and a thread is to block until the root is complete. -/
def blockingOnGuard : List Act :=
  List.flatten [[.start 0 (.newRoot 2 false), .start 1 (.clone 0)], List.replicate 3 (.run 1 false),
    [.start 2 (.guard 0 ⟨"src/tasks.rs", 120, 9⟩)], List.replicate 6 (.run 2 false),
    [.start 3 (.shutDown 0)], List.replicate 12 (.run 3 false),
    [.start 4 (.blockOnShutdownCompletion 0)]]

theorem runs_come_to_rest_blockingOnGuard : ∃ s, Reachable s ∧
    s.pool[4]?.map Interleave.Thread.stack = some [.wait (.create .zero 0 true), .life (.dropHandle 0)] ∧
    ¬∃ run : ℕ → State, run 0 = s ∧ ∀ k, ∃ a : Act, Machine.Moves Frame.Moves (run k) a ∧
      machine.step (run k) a = some (run (k + 1)) := by
  obtain ⟨s, hr, hs⟩ := Machine.exists_reachable (M := machine) blockingOnGuard
    (p := fun s => s.pool[4]?.map Interleave.Thread.stack =
      some [.wait (.create .zero 0 true), .life (.dropHandle 0)]) (by decide)
  exact ⟨s, hr, of_decide_eq_true hs, (runs_come_to_rest hr).1⟩

/-- **A call that runs alone.**  In every reachable state, whatever points outside critical
sections, the shards' and those inside `event_listener`, the other threads were stopped at,
a thread that runs alone comes to the end of its call, or it blocks on a listener that was
not notified; then what it waits for has not come, or another thread is about to notify it.
Its weak compare-and-swaps fail only if the word has changed. -/
theorem alone_comes_to_rest (hr : Reachable s) {i index : ℕ} {k : List Frame}
    (hi : s.pool[i]? = some ⟨index, k⟩) : ∃ s' k', machine.Alone i s s' ∧
      s'.pool[i]? = some ⟨index, k'⟩ ∧ AtRest s'.mem k' ∧
      ∀ o l k₀, k' = .wait (.park o l true) :: k₀ → Fired s'.mem o.event o.node →
        ∃ (j : ℕ) (t : Interleave.Thread Frame), j ≠ i ∧ s'.pool[j]? = some t ∧
          .notify o.event o.node ∈ t.stack := by
  obtain ⟨s', k', ha, hi', hrest⟩ := alone_rests hr hi
  refine ⟨s', k', ha, hi', hrest, fun o l k₀ hk hf => ?_⟩
  subst hk
  have hr' := ha.reachable hr
  have hmem : .wait (.park o l true) ∈ s'.frames :=
    List.mem_flatMap.mpr ⟨_, List.mem_of_getElem? hi', List.mem_cons_self⟩
  have hn : (s'.mem.listeners l).notified = false := by
    rcases hrest with he | ⟨f, k, he, -, o', l', rfl, hn⟩
    · cases he
    · obtain ⟨he, -⟩ := List.cons.inj he
      cases he
      exact hn
  have hnotify : .notify o.event o.node ∈ s'.frames := by
    refine (notifiedOrBound_reach hr' o.event o.node l (.park hmem) hf).resolve_left ?_
    simp [hn]
  obtain ⟨t, ht, hmem⟩ := List.mem_flatMap.mp hnotify
  obtain ⟨j, hj⟩ := List.mem_iff_getElem?.mp ht
  refine ⟨j, t, ?_, hj, hmem⟩
  rintro rfl
  obtain rfl : t = ⟨index, .wait (.park o l true) :: k₀⟩ := Option.some.inj (hj.symm.trans hi')
  rcases stacked_reach hr' _ ht with hk | ⟨w, k₁, he, -, hk₁⟩
  · cases hk _ List.mem_cons_self
  · obtain ⟨-, rfl⟩ := List.cons.inj he
    rcases List.mem_cons.mp hmem with he | hmem
    · cases he
    · cases (hk₁ _ hmem).2

theorem alone_comes_to_rest_blockingOnGuard : ∃ s s' index k', Reachable s ∧
    s.pool[4]? = some ⟨index, [.wait (.create .zero 0 true), .life (.dropHandle 0)]⟩ ∧
    machine.Alone 4 s s' ∧ s'.pool[4]? = some ⟨index, k'⟩ ∧ AtRest s'.mem k' := by
  obtain ⟨s, hr, hs⟩ := Machine.exists_reachable (M := machine) blockingOnGuard
    (p := fun s => s.pool[4]?.map Interleave.Thread.stack =
      some [.wait (.create .zero 0 true), .life (.dropHandle 0)]) (by decide)
  obtain ⟨⟨index, k⟩, hi, rfl⟩ := Option.map_eq_some_iff.mp (of_decide_eq_true hs)
  obtain ⟨s', k', ha, hi', hrest, -⟩ := alone_comes_to_rest hr hi
  exact ⟨s, s', index, k', hr, hi, ha, hi', hrest⟩

/-- At rest, whoever waits and was not notified has a reason. -/
theorem justified_of_rest (hr : Reachable s) (hrest : ∀ t ∈ s.pool, AtRest s.mem t.stack) :
    (∀ t ∈ s.pool, ∀ o l k, t.stack = .wait (.park o l true) :: k → Justified s.mem o) ∧
    ∀ o ∈ s.mem.observers, ∀ l, o.pending = true → o.listener = some l →
      (s.mem.listeners l).notified = false → Justified s.mem o := by
  have hq := quiescent_of_rest hr hrest
  have hnot : ∀ {o : Observer} {l : ListenerId}, WaitsOn s.mem s.frames o.event o.node l →
      (s.mem.listeners l).notified = false → ¬Fired s.mem o.event o.node := by
    intro o l hw hn hf
    rcases notifiedOrBound_reach hr _ _ l hw hf with hyes | hmem
    · rw [hn] at hyes
      cases hyes
    · cases hq _ (Multiset.mem_coe.mp hmem)
  constructor
  · intro t ht o l k hstack
    have hmem : .wait (.park o l true) ∈ s.frames := List.mem_flatMap.mpr ⟨t, ht, by simp [hstack]⟩
    rcases hrest t ht with he | ⟨f, k', he, -, o', l', rfl, hn⟩
    · simp [hstack] at he
    · obtain ⟨he, -⟩ := List.cons.inj (hstack.symm.trans he)
      cases he
      refine hq.justified hr ?_ (hnot (.park (Multiset.mem_coe.mpr hmem)) hn)
      exact (references_reach hr).live_of_refs (Multiset.mem_coe.mpr hmem) (by simp [Frame.refs])
  · intro o ho l hp hl hn
    refine hq.justified hr ((references_reach hr).live_of_observer ho) (hnot (.observer ho hp hl) hn)

/-- **Calls come to rest.**  From every reachable state, with no new call, the calls in
flight can run until each has returned or blocks on a listener that was not notified.  In
every state where they have, whoever waits and was not notified has a reason: neither the
node nor an ancestor was told to stop, or it waits for completion and a guard in a client's
hands is left below the node. -/
theorem calls_come_to_rest (hr : Reachable s) :
    (∃ s', machine.Leads (fun _ a => ∃ i, a = .run i false) s s' ∧
      ∀ t ∈ s'.pool, AtRest s'.mem t.stack) ∧
    ((∀ t ∈ s.pool, AtRest s.mem t.stack) →
      (∀ t ∈ s.pool, ∀ o l k, t.stack = .wait (.park o l true) :: k → Justified s.mem o) ∧
      ∀ o ∈ s.mem.observers, ∀ l, o.pending = true → o.listener = some l →
        (s.mem.listeners l).notified = false → Justified s.mem o) :=
  ⟨exists_rest hr, justified_of_rest hr⟩

theorem calls_come_to_rest_blockingOnGuard : ∃ s, Reachable s ∧
    (∃ s', machine.Leads (fun _ a => ∃ i, a = .run i false) s s' ∧
      ∀ t ∈ s'.pool, AtRest s'.mem t.stack) ∧
    Justified s.mem ⟨.zero, 0, none, false, false⟩ := by
  obtain ⟨s, hr, hs⟩ := Machine.exists_reachable (M := machine)
    (blockingOnGuard ++ List.replicate 6 (.run 4 false))
    (p := fun s => (s.mem.listeners 0).notified = false ∧
      s.pool.map Interleave.Thread.stack = [[], [], [], [],
        [.wait (.park ⟨.zero, 0, none, false, false⟩ 0 true), .life (.dropHandle 0)]]) (by decide)
  obtain ⟨hn, hpool⟩ := of_decide_eq_true hs
  obtain ⟨hcome, hreason⟩ := calls_come_to_rest hr
  have hrest : ∀ t ∈ s.pool, AtRest s.mem t.stack := by
    intro t ht
    have hstack := List.mem_map_of_mem (f := Interleave.Thread.stack) ht
    rw [hpool] at hstack
    simp only [List.mem_cons, List.not_mem_nil, or_false, or_self_left] at hstack
    rcases hstack with he | he
    · exact .inl he
    · exact .inr ⟨_, _, he, rfl, _, _, rfl, hn⟩
  obtain ⟨t, ht, he⟩ : ∃ t ∈ s.pool, t.stack =
      [.wait (.park ⟨.zero, 0, none, false, false⟩ 0 true), .life (.dropHandle 0)] :=
    List.mem_map.mp (by rw [hpool]; simp)
  exact ⟨s, hr, hcome, (hreason hrest).1 t ht _ _ _ he⟩

/-! ## Shutdown -/

/-- The shutdown of a node has come to its end, but for guards that are left in its subtree. -/
structure ShutDownBelow (n : NodeId) (s : State) : Prop where
  /-- Every live node of the subtree is stopped. -/
  stopped : ∀ m, s.mem.Live m → n ∈ s.mem.lineage m → (s.mem.state m).stopped = true
  /-- It is complete exactly if no guard is left below it. -/
  complete : ∀ m, s.mem.Live m → n ∈ s.mem.lineage m →
    (shutdownState s.mem m = .complete ↔ s.mem.guardsBelow m = [])
  /-- A thread blocks only until a node of the subtree is complete, which a guard keeps it from. -/
  blocked : ∀ t ∈ s.pool, ∀ o l k, t.stack = .wait (.park o l true) :: k →
    n ∈ s.mem.lineage o.node → o.event = .zero ∧ s.mem.guardsBelow o.node ≠ []
  /-- So does a task whose last poll was pending, if it was not notified. -/
  pending : ∀ o ∈ s.mem.observers, ∀ l, o.pending = true → o.listener = some l →
    (s.mem.listeners l).notified = false → n ∈ s.mem.lineage o.node →
      o.event = .zero ∧ s.mem.guardsBelow o.node ≠ []

theorem shutDownBelow_of_rest (hr : Reachable s) (hrest : ∀ t ∈ s.pool, AtRest s.mem t.stack)
    (htold : s.mem.Told n) : ShutDownBelow n s := by
  have hq := quiescent_of_rest hr hrest
  have hj := justified_of_rest hr hrest
  have hst : (s.mem.state n).stopped = true := by
    refine ((propagated_reach hr).told htold).resolve_right fun hmem => ?_
    cases hq _ (Multiset.mem_coe.mp hmem)
  have hstopped : ∀ m, s.mem.Live m → n ∈ s.mem.lineage m → (s.mem.state m).stopped = true :=
    fun m hm hbelow => stopped_of_ancestor hr hq.stopsDone hbelow hst hm
  constructor
  · exact hstopped
  · intro m hm hbelow
    rw [hq.complete_iff hr hm]
    exact and_iff_right (hstopped m hm hbelow)
  · intro t ht o l k hk hbelow
    exact (hj.1 t ht o l k hk).resolve_left fun hnot => hnot n hbelow htold
  · intro o ho l hp hl hn hbelow
    exact (hj.2 o ho l hp hl hn).resolve_left fun hnot => hnot n hbelow htold

/-- **Shutdown comes to its end.**  Once a node was told to stop, every run of the calls in
flight ends, of those that `runs_come_to_rest` is about: whatever the schedule, as long as
a weak compare-and-swap fails only if the word has changed, and a blocked thread goes on
only once it is notified.  Where it ends, all live nodes of the subtree are stopped, each
is complete exactly if no guard is left below it, and only those wait on for a node of the
subtree that wait for completion and for which a guard is left. -/
theorem shutdown_comes_to_its_end (hr : Reachable s) (htold : s.mem.Told n) :
    machine.Inevitable (Machine.Moves Frame.Moves) (ShutDownBelow n) s := by
  refine ⟨terminates hr, fun s' hl hstuck => ?_⟩
  have hr' : Reachable s' := hr.leads (hl.mono fun _ _ _ => trivial)
  exact shutDownBelow_of_rest hr' (atRest_of_stuck fun i => hstuck _)
    (told_of_extends (extends_leads hl) htold)

theorem shutdown_comes_to_its_end_blockingOnGuard : ∃ s, Reachable s ∧
    (s.mem.state 0).stopped = false ∧
    machine.Inevitable (Machine.Moves Frame.Moves) (ShutDownBelow 0) s := by
  obtain ⟨s, hr, hs⟩ := Machine.exists_reachable (M := machine) (blockingOnGuard.take 13)
    (p := fun s => (s.mem.state 0).stopped = false ∧ s.mem.shutDown 0 = true) (by decide)
  obtain ⟨hst, hshut⟩ := of_decide_eq_true hs
  exact ⟨s, hr, hst, shutdown_comes_to_its_end hr (.inl hshut)⟩

end Swansong
