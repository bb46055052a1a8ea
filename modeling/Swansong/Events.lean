import Swansong.Monotonic
import Swansong.Writes

/-!
# Events and their waiters

A `ShutdownCompletion` waits until its node is stopped with no arrived shard, a
`ShuttingDown` until its node is stopped.  Several steps can make this true: a stop, the
departure that empties a stopped node, or one that takes back an arrival.  Each of them is
followed by a notification, and a waiter checks again after it registered its listener, so
no waiter is left behind, however often the node empties and fills again.

The events are those of the `event_listener` crate.  What the crate relies on is assumed in
`execNotify`: `notify(usize::MAX)` notifies every listener that was created before it.

## Main definitions

* `Fired` — what an event's waiters wait for.
* `WaitsOn` — a task or a thread waits on a listener.
* `no_lost_notification` — the result.
-/

namespace Swansong

open Interleave (Machine)

variable {index : ℕ} {choice : Bool} {h h' : Heap} {fr K : Multiset Frame} {s : State}
  {e : Event} {n : NodeId} {l : ListenerId}

/-- What the waiters on a node's event wait for. -/
def Fired (h : Heap) : Event → NodeId → Prop
  | .stop, n => (h.state n).stopped = true
  | .zero, n => (h.state n).stopped = true ∧ (h.state n).shards = 0

theorem Fired.stopped (hf : Fired h e n) : (h.state n).stopped = true := by
  cases e with
  | stop => exact hf
  | zero => exact hf.1

theorem Fired.congr (hs : h'.state n = h.state n) : Fired h' e n ↔ Fired h e n := by
  cases e <;> simp only [Fired, hs]

/-- A task or a thread waits on the listener, which is for the node's event. -/
inductive WaitsOn (h : Heap) (fr : Multiset Frame) : Event → NodeId → ListenerId → Prop
  /-- Its last poll returned Pending. -/
  | observer {o : Observer} {l : ListenerId} : o ∈ h.observers → o.pending = true →
      o.listener = some l → WaitsOn h fr o.event o.node l
  /-- It is about to poll the listener, or blocks on it. -/
  | park {o : Observer} {l : ListenerId} {blocking : Bool} : .wait (.park o l blocking) ∈ fr →
      WaitsOn h fr o.event o.node l

/-! ## What fires an event -/

/-- A step that fires an event goes on to notify it. -/
theorem fired_exec {f : Frame} (hv : f.Valid h) (hf : Fired (exec index choice h f).1 e n) :
    Fired h e n ∨ .notify e n ∈ (exec index choice h f).2 := by
  rcases nodeWrite_of_exec index choice h n f with hsame | hwrite
  · exact .inl ((Fired.congr hsame).mp hf)
  · generalize hword : (exec index choice h f).1.state n = w at hwrite
    have hfired : w.stopped = true ∧ (e = .zero → w.shards = 0) := by
      rw [← hword]
      exact ⟨hf.stopped, fun he => by subst he; exact hf.2⟩
    cases hwrite with
    | count root =>
        left
        cases e with
        | stop => exact hfired.1
        | zero => exact absurd (hfired.2 rfl) (by simp)
    | add =>
        left
        cases e with
        | stop => exact hfired.1
        | zero => exact absurd (hfired.2 rfl) (by simp)
    | arrive =>
        left
        cases e with
        | stop => exact hfired.1
        | zero =>
            have hzero : (h.state n).shards ||| 1 = 0 := hfired.2 rfl
            have hle : 1 ≤ (h.state n).shards ||| 1 := Nat.right_le_or
            omega
    | sub =>
        cases e with
        | stop => exact .inl hfired.1
        | zero =>
            right
            have hzero : (h.state n).shards - 1 = 0 := hfired.2 rfl
            have hst : (h.state n).stopped = true := hfired.1
            simp [exec, execDepart, hzero, hst]
    | depart =>
        left
        cases e with
        | stop => exact hfired.1
        | zero => exact ⟨hfired.1, hv.2.1⟩
    | stop =>
        by_cases hst : (h.state n).stopped = true
        · left
          cases e with
          | stop => exact hst
          | zero => exact ⟨hst, hfired.2 rfl⟩
        · right
          cases e with
          | stop => simp [exec, execStop, hst]
          | zero =>
              have hzero : (h.state n).shards = 0 := hfired.2 rfl
              simp [exec, execStop, hst, hzero]

/-! ## What makes a waiter -/

/-- A step that adds no waiter. -/
theorem waitsOn_of_same {f : Frame} {r : Heap × List Frame} (hobs : r.1.observers = h.observers)
    (hpark : ∀ o l b, .wait (.park o l b) ∉ r.2) (hw : WaitsOn r.1 (↑r.2 + K) e n l) :
    WaitsOn h (f ::ₘ K) e n l := by
  cases hw with
  | observer ho hp hl => exact .observer (hobs ▸ ho) hp hl
  | park hmem =>
      rcases Multiset.mem_add.mp hmem with hmem | hmem
      · exact absurd hmem (hpark _ _ _)
      · exact .park (Multiset.mem_cons_of_mem hmem)

theorem mem_observers_waitReady {o o' : Observer} {b : Bool}
    (ho : o' ∈ (waitReady h o b).1.observers) (hp : o'.pending = true) : o' ∈ h.observers := by
  unfold waitReady at ho
  split at ho
  · exact ho
  · rcases List.mem_cons.mp ho with rfl | ho
    · cases hp
    · exact ho

theorem park_not_mem_waitReady {o o' : Observer} {b b' : Bool} :
    .wait (.park o' l b') ∉ (waitReady h o b).2 := by
  unfold waitReady
  split <;> simp

/-- Only a poll of the listener leaves an observer pending. -/
theorem pending_of_mem_execWait {f : WaitFrame} {o : Observer}
    (ho : o ∈ (execWait h f).1.observers) (hp : o.pending = true) :
    o ∈ h.observers ∨
      ∃ o' l, f = .park o' l false ∧ o = { o' with listener := some l, pending := true } := by
  cases f with
  | create event m blocking =>
      left
      simp only [execWait] at ho
      split at ho
      · exact ho
      · rcases List.mem_cons.mp ho with rfl | ho
        · cases hp
        · exact ho
  | stopped o' b =>
      left
      simp only [execWait] at ho
      (repeat' split at ho) <;> first | exact ho | exact mem_observers_waitReady ho hp
  | zero o' b =>
      left
      simp only [execWait] at ho
      split at ho <;> first | exact ho | exact mem_observers_waitReady ho hp
  | listen o' b => exact .inl ho
  | stoppedAgain o' l b =>
      left
      simp only [execWait] at ho
      (repeat' split at ho) <;> first | exact ho | exact mem_observers_waitReady ho hp
  | zeroAgain o' l b =>
      left
      simp only [execWait] at ho
      split at ho <;> first | exact ho | exact mem_observers_waitReady ho hp
  | park o' l b =>
      simp only [execWait] at ho
      split at ho
      · exact .inl ho
      · split at ho
        · exact .inl ho
        · rename_i hb
          rcases List.mem_cons.mp ho with rfl | ho
          · exact .inr ⟨o', l, by simp [Bool.eq_false_of_not_eq_true hb], rfl⟩
          · exact .inl ho

theorem park_of_mem_waitNext {o o' : Observer} {b b' : Bool}
    (hg : .wait (.park o' l b') ∈ waitNext o b) : o' = o := by
  unfold waitNext at hg
  split at hg <;> simp at hg
  exact hg.1

/-- A call turns to its listener when a check failed. -/
theorem not_fired_of_park {f : WaitFrame} {o : Observer} {b : Bool} (hv : (Frame.wait f).Valid h)
    (hg : .wait (.park o l b) ∈ (execWait h f).2) :
    ¬Fired h o.event o.node ∨ f = .park o l b := by
  cases f with
  | create event m blocking =>
      simp only [execWait] at hg
      split at hg <;> simp at hg
  | stopped o' b' =>
      left
      simp only [execWait] at hg
      split at hg
      · split at hg
        · simp at hg
        · exact absurd hg park_not_mem_waitReady
      · rename_i hst
        obtain rfl := park_of_mem_waitNext hg
        exact fun hf => hst hf.stopped
  | zero o' b' =>
      left
      simp only [execWait] at hg
      split at hg
      · exact absurd hg park_not_mem_waitReady
      · rename_i hzero
        obtain rfl := park_of_mem_waitNext hg
        rw [hv.2.1]
        exact fun hf => hzero hf.2
  | listen o' b' => simp [execWait] at hg
  | stoppedAgain o' l' b' =>
      left
      simp only [execWait] at hg
      split at hg
      · split at hg
        · simp at hg
        · exact absurd hg park_not_mem_waitReady
      · rename_i hst
        obtain ⟨rfl, -, -⟩ : o = o' ∧ l = l' ∧ b = b' := by simpa using hg
        exact fun hf => hst hf.stopped
  | zeroAgain o' l' b' =>
      left
      simp only [execWait] at hg
      split at hg
      · exact absurd hg park_not_mem_waitReady
      · rename_i hzero
        obtain ⟨rfl, -, -⟩ : o = o' ∧ l = l' ∧ b = b' := by simpa using hg
        rw [hv.2.2.1]
        exact fun hf => hzero hf.2
  | park o' l' b' =>
      right
      simp only [execWait] at hg
      split at hg
      · simp at hg
      · split at hg
        · rename_i hb
          obtain ⟨rfl, rfl, rfl⟩ : o = o' ∧ l = l' ∧ b = true := by simpa using hg
          rw [hb]
        · simp at hg

/-- A call starts to wait only when what it waits for has not come. -/
theorem waitsOn_execWait {f : WaitFrame} (hv : (Frame.wait f).Valid h)
    (hw : WaitsOn (execWait h f).1 (↑(execWait h f).2 + K) e n l) :
    WaitsOn h (.wait f ::ₘ K) e n l ∨ ¬Fired h e n := by
  cases hw with
  | observer ho hp hl =>
      left
      rcases pending_of_mem_execWait ho hp with ho | ⟨o', l', rfl, rfl⟩
      · exact .observer ho hp hl
      · obtain rfl := Option.some.inj hl
        exact .park (o := o') (Multiset.mem_cons_self (.wait (.park o' l' false)) K)
  | park hmem =>
      rcases Multiset.mem_add.mp hmem with hmem | hmem
      · rcases not_fired_of_park hv hmem with hnot | rfl
        · exact .inr hnot
        · exact .inl (.park (Multiset.mem_cons_self _ K))
      · exact .inl (.park (Multiset.mem_cons_of_mem hmem))

theorem waitsOn_exec {f : Frame} (hv : f.Valid h)
    (hw : WaitsOn (exec index choice h f).1 (↑(exec index choice h f).2 + K) e n l) :
    WaitsOn h (f ::ₘ K) e n l ∨ ¬Fired h e n := by
  by_cases hf : ∃ f', f = .wait f'
  · obtain ⟨f', rfl⟩ := hf
    exact waitsOn_execWait hv hw
  · push Not at hf
    obtain ⟨hobs, hpush⟩ := observers_exec index choice h hf
    exact .inl (waitsOn_of_same hobs (fun o l b hg => hpush _ hg) hw)

/-! ## The invariant -/

/-- The listener of a waiter is for the event and the node it waits for. -/
theorem listenerOk_of_waitsOn (hv : Valid h fr) (hw : WaitsOn h fr e n l) :
    l < h.nextListener ∧ (h.listeners l).event = e ∧ (h.listeners l).node = n := by
  cases hw with
  | observer ho hp hl => exact (hv.wf.observers _ ho).2 l hl
  | park hmem => exact (hv.frames _ hmem).2

/-- Who waits for what has come was notified, or is about to be. -/
def NotifiedOrBound (h : Heap) (fr : Multiset Frame) : Prop :=
  ∀ e n l, WaitsOn h fr e n l → Fired h e n → (h.listeners l).notified = true ∨ .notify e n ∈ fr

theorem notifiedOrBound_exec {f : Frame} (hv : Valid h (f ::ₘ K))
    (hi : NotifiedOrBound h (f ::ₘ K)) :
    NotifiedOrBound (exec index choice h f).1 (↑(exec index choice h f).2 + K) := by
  intro e n l hw hf
  have hfv := hv.frames _ (Multiset.mem_cons_self f K)
  rcases fired_exec hfv hf with hfired | hmem
  · rcases waitsOn_exec hfv hw with hwaits | hnot
    · have hok := listenerOk_of_waitsOn hv hwaits
      rcases hi e n l hwaits hfired with hnot | hmem
      · exact .inl ((extends_exec.listeners l hok.1).2.2 hnot)
      · rcases Multiset.mem_cons.mp hmem with rfl | hmem
        · -- the notification runs, and reaches the listener
          left
          simp [exec, execNotify, hok.2.1, hok.2.2]
        · exact .inr (Multiset.mem_add.mpr (.inr hmem))
    · exact absurd hfired hnot
  · exact .inr (Multiset.mem_add.mpr (.inl hmem))

theorem waitsOn_start {fr fs : List Frame} {op : Op} (hs : start index h fr op = some (h', fs))
    (hw : WaitsOn h' (↑fs + ↑fr) e n l) : WaitsOn h ↑fr e n l := by
  cases hw with
  | observer ho hp hl =>
      refine .observer ?_ hp hl
      unfold start at hs
      split at hs <;>
        simp only [Option.ite_none_right_eq_some, Option.some.injEq, Prod.mk.injEq] at hs <;>
        obtain ⟨-, rfl, -⟩ := hs
      all_goals first
        | exact ho
        | exact List.mem_of_mem_erase ho
  | park hmem =>
      rcases Multiset.mem_add.mp hmem with hmem | hmem
      · cases starts_of_mem_start hs hmem
      · exact .park hmem

theorem notifiedOrBound_reach {P : State → Act → Prop} (hr : machine.Reach P s) :
    NotifiedOrBound s.mem s.frames := by
  refine discipline.invariant (J := Valid) valid_reach ?_ ?_ ?_ hr
  · intro e n l hw
    cases hw with
    | observer ho hp hl => cases ho
    | park hmem => cases hmem
  · intro index b h f K _ hv _ hi
    exact notifiedOrBound_exec hv hi
  · intro index h fr op h' fs hs _ _ hi e n l hw hf
    have hsame : h'.state = h.state ∧ h'.listeners = h.listeners := by
      obtain ⟨_, _, _, _, _, _, _, _, _, _, rfl⟩ := start_heap hs
      exact ⟨rfl, rfl⟩
    rw [hsame.2]
    refine (hi e n l (waitsOn_start hs hw) ((Fired.congr (congrFun hsame.1 n)).mp hf)).imp_right ?_
    exact fun hmem => Multiset.mem_add.mpr (.inr hmem)

/-! ## The result -/

/-- A thread that blocks on a notified listener goes back to its checks. -/
theorem park_of_notified {o : Observer} {blocking : Bool} (hl : (h.listeners l).notified = true) :
    execWait h (.park o l blocking) = (h, [.wait (.stopped { o with listener := none } blocking)]) := by
  rw [execWait, if_pos hl]

/-- **No lost notification.**  In every reachable state, a task or a thread that waits for
a node to stop, or to be stopped and empty, when it is, has been notified, or a stop or a
departure in flight is about to notify it.  When none is, every thread that blocks on such
an event goes back to its checks in its next step.  This rests on `event_listener`: a
notification reaches all listeners created before it. -/
theorem no_lost_notification (hr : Reachable s) (e : Event) (n : NodeId) (hf : Fired s.mem e n) :
    (∀ l, WaitsOn s.mem s.frames e n l →
      (s.mem.listeners l).notified = true ∨ .notify e n ∈ s.frames) ∧
    (.notify e n ∉ s.frames → ∀ o l blocking, .wait (.park o l blocking) ∈ s.frames →
      o.event = e → o.node = n → execWait s.mem (.park o l blocking) =
        (s.mem, [.wait (.stopped { o with listener := none } blocking)])) := by
  have hall : ∀ l, WaitsOn s.mem s.frames e n l →
      (s.mem.listeners l).notified = true ∨ .notify e n ∈ s.frames :=
    fun l hw => notifiedOrBound_reach hr e n l hw hf
  refine ⟨hall, ?_⟩
  rintro hfree o l blocking hmem rfl rfl
  refine park_of_notified ((hall l (.park hmem)).resolve_right hfree)

/-- A task waits for the root to stop, while another thread stops it: as far as the
notification. -/
def awaitedThenStopped : List Act :=
  List.flatten [
    [.start 0 (.newRoot 1 false), .start 1 (.shuttingDown 0), .run 1 false, .run 1 false,
      .start 1 (.poll ⟨.stop, 0, none, false, false⟩)],
    List.replicate 4 (.run 2 false), [.start 0 (.shutDown 0)], List.replicate 4 (.run 3 false)]

theorem no_lost_notification_awaitedThenStopped : ∃ s, Reachable s ∧
    s.mem.observers = [⟨.stop, 0, some 0, true, false⟩] ∧ (s.mem.listeners 0).notified = true := by
  obtain ⟨s, hr, hs⟩ := Machine.exists_reachable (M := machine) awaitedThenStopped
    (p := fun s => s.mem.observers = [⟨.stop, 0, some 0, true, false⟩] ∧
      (s.mem.state 0).stopped = true ∧ .notify .stop 0 ∉ s.frames) (by decide)
  obtain ⟨ho, hst, hfree⟩ := of_decide_eq_true hs
  refine ⟨s, hr, ho, ?_⟩
  refine ((no_lost_notification hr .stop 0 hst).1 0 ?_).resolve_right hfree
  have hmem : (⟨.stop, 0, some 0, true, false⟩ : Observer) ∈ s.mem.observers := by
    rw [ho]
    exact List.mem_singleton_self _
  exact WaitsOn.observer hmem rfl rfl

end Swansong
