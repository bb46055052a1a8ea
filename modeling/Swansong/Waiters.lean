import Swansong.Latch
import Swansong.SlabMap
import Mathlib.Data.Multiset.Bind

/-!
# The waiter registry

An interrupt that returned Pending is registered: its shard's slab of waiters holds its
waker under the key that the interrupt remembers.  Until the shard is drained, the
occupied slots are the registrations of the interrupts there are, each once.  The drain
takes all of them at once; afterwards the slab is empty for good, since registrations
re-check the stop bit under the lock, and the keys that interrupts remember remove nothing.

## Main definitions

* `Heap.stopListeners` — the interrupts there are, in clients' hands or inside a call.
* `Heap.registered` — what they registered on a shard.
* `Heap.wakes` — the wakers a shard's drain woke, or is about to wake.
* `Heap.SameWaiting` — a step that concerns no interrupt.
-/

namespace Swansong

open Interleave (Machine)

variable {index : ℕ} {choice : Bool} {h h' : Heap} {K : Multiset Frame} {s : State} {sh : ShardId}

/-! ## The slots of a slab of waiters -/

namespace Slab

/-- The occupied slots: their keys, with the wakers they hold. -/
def registrations (waiters : Slab Waker) : List Registration :=
  (List.range waiters.slots.length).filterMap fun key => (waiters.get key).map (Registration.mk key)

variable {waiters : Slab Waker}

@[simp] theorem registrations_empty : (empty : Slab Waker).registrations = [] := rfl

@[simp] theorem mem_registrations {r : Registration} :
    r ∈ waiters.registrations ↔ waiters.get r.key = some r.waker := by
  obtain ⟨key, w⟩ := r
  simp only [registrations, List.mem_filterMap, List.mem_range, Option.map_eq_some_iff,
    Registration.mk.injEq]
  constructor
  · rintro ⟨_, -, _, hget, rfl, rfl⟩
    exact hget
  · intro hget
    have hlt := (List.getElem?_eq_some_iff.mp (get_eq_some.mp hget)).1
    exact ⟨key, hlt, w, hget, rfl, rfl⟩

theorem nodup_registrations : waiters.registrations.Nodup := by
  refine List.nodup_range.filterMap ?_
  intro j k r hj hk
  obtain ⟨_, -, rfl⟩ := Option.map_eq_some_iff.mp hj
  obtain ⟨_, -, hr⟩ := Option.map_eq_some_iff.mp hk
  exact (congrArg Registration.key hr).symm

theorem map_waker_registrations : waiters.registrations.map Registration.waker = waiters.values := by
  rw [registrations, List.map_filterMap, values, ← filterMap_range_length]
  congr 1
  ext1 key
  rw [Option.map_map]
  exact Option.map_id'

theorem registrations_insert (w : Waker) :
    (waiters.insert w).1.registrations.Perm (⟨(waiters.insert w).2, w⟩ :: waiters.registrations) := by
  rw [List.perm_ext_iff_of_nodup nodup_registrations]
  · intro r
    obtain ⟨key, w'⟩ := r
    rw [mem_registrations, List.mem_cons, mem_registrations, get_insert, Registration.mk.injEq]
    by_cases hkey : key = (waiters.insert w).2
    · subst hkey
      simp [get_insert_key, eq_comm]
    · simp [hkey]
  · refine List.nodup_cons.mpr ⟨?_, nodup_registrations⟩
    simp [get_insert_key]

theorem registrations_remove {r : Registration} (hr : r ∈ waiters.registrations) :
    waiters.registrations.Perm (r :: (waiters.remove r.key).1.registrations) := by
  have hget := mem_registrations.mp hr
  rw [List.perm_ext_iff_of_nodup nodup_registrations]
  · intro q
    rw [List.mem_cons, mem_registrations, mem_registrations, get_remove]
    by_cases hkey : q.key = r.key
    · have heq : q = r ↔ q.waker = r.waker := by
        cases q
        cases r
        simp_all
      rw [if_pos hkey, heq, hkey, hget]
      simp [eq_comm]
    · have hne : q ≠ r := fun he => hkey (he ▸ rfl)
      simp [hkey, hne]
  · refine List.nodup_cons.mpr ⟨?_, nodup_registrations⟩
    simp [get_remove]

end Slab

/-! ## The interrupts there are -/

/-- The interrupt that a poll, or a drop, has in hand. -/
def PollFrame.interrupt : PollFrame → Interrupt
  | .poll i _ | .wrapped i _ | .registered i _ | .register i _ | .drop i => i

@[simp] theorem interrupt_poll (i : Interrupt) (w : Waker) : (PollFrame.poll i w).interrupt = i := rfl
@[simp] theorem interrupt_register (i : Interrupt) (w : Waker) :
    (PollFrame.register i w).interrupt = i := rfl
@[simp] theorem interrupt_drop (i : Interrupt) : (PollFrame.drop i).interrupt = i := rfl

def Frame.interrupt : Frame → Option Interrupt
  | .poll f => some f.interrupt
  | _ => none

/-- The interrupts there are: those in clients' hands, and those inside a call. -/
def Heap.stopListeners (h : Heap) (fr : Multiset Frame) : Multiset Interrupt :=
  ↑h.interrupts + fr.filterMap Frame.interrupt

/-- The interrupt's registration, if it is on this shard. -/
def Interrupt.registrationOn (sh : ShardId) (i : Interrupt) : Option Registration :=
  if i.shard = sh then i.registration else none

/-- The registrations that interrupts hold on a shard. -/
def Heap.registered (h : Heap) (fr : Multiset Frame) (sh : ShardId) : Multiset Registration :=
  (h.stopListeners fr).filterMap (Interrupt.registrationOn sh)

/-- The waker of the shard that the frame is about to wake. -/
def Frame.wakes (sh : ShardId) : Frame → Option Waker
  | .stop (.wake s w) => if s = sh then some w else none
  | _ => none

/-- The wakers that the shard's drains woke, or are about to wake. -/
def Heap.wakes (h : Heap) (fr : Multiset Frame) (sh : ShardId) : Multiset Waker :=
  ↑(h.woken sh) + fr.filterMap (Frame.wakes sh)

theorem filterMap_eq_zero {α β : Type} {f : α → Option β} {m : Multiset α}
    (hm : ∀ a ∈ m, f a = none) : m.filterMap f = 0 := by
  induction m using Multiset.induction with
  | empty => rfl
  | cons a m ih =>
      rw [Multiset.filterMap_cons_none a m (hm a (by simp))]
      exact ih fun b hb => hm b (by simp [hb])

theorem stopListeners_add (fs : Multiset Frame) :
    h.stopListeners (fs + K) = fs.filterMap Frame.interrupt + h.stopListeners K := by
  rw [Heap.stopListeners, Heap.stopListeners, Multiset.filterMap_add, add_left_comm]

theorem stopListeners_poll (f : PollFrame) :
    h.stopListeners (.poll f ::ₘ K) = f.interrupt ::ₘ h.stopListeners K := by
  rw [Heap.stopListeners, Heap.stopListeners, Multiset.filterMap_cons_some Frame.interrupt _ K rfl,
    Multiset.add_cons]

theorem stopListeners_cons {f : Frame} (hf : f.interrupt = none) :
    h.stopListeners (f ::ₘ K) = h.stopListeners K := by
  rw [Heap.stopListeners, Heap.stopListeners, Multiset.filterMap_cons_none _ _ hf]

/-! ## What a step does to the waiters -/

/-- The parts of the memory that waiting is about. -/
def Heap.SameWaiting (h h' : Heap) : Prop :=
  h'.interrupts = h.interrupts ∧ h'.waiters = h.waiters ∧ h'.drained = h.drained ∧ h'.woken = h.woken

/-- Only polls and stops have to do with waiting. -/
theorem sameWaiting_exec {f : Frame} (hpoll : ∀ f', f ≠ .poll f') (hstop : ∀ f', f ≠ .stop f') :
    h.SameWaiting (exec index choice h f).1 := by
  cases f with
  | arrive f =>
      obtain ⟨_, _, he⟩ := execArrive_heap index choice h f
      rw [exec, he]
      exact ⟨rfl, rfl, rfl, rfl⟩
  | depart f =>
      obtain ⟨_, _, he⟩ := execDepart_heap h f
      rw [exec, he]
      exact ⟨rfl, rfl, rfl, rfl⟩
  | stop f => exact absurd rfl (hstop f)
  | notify event n => exact ⟨rfl, rfl, rfl, rfl⟩
  | life f =>
      obtain ⟨_, _, _, _, _, _, he⟩ := execLife_heap h f
      rw [exec, he]
      exact ⟨rfl, rfl, rfl, rfl⟩
  | child f =>
      obtain ⟨_, _, _, _, _, _, _, _, _, he⟩ := execChild_heap index h f
      rw [exec, he]
      exact ⟨rfl, rfl, rfl, rfl⟩
  | guard f =>
      obtain ⟨_, _, _, _, _, _, _, _, he⟩ := execGuard_heap index choice h f
      rw [exec, he]
      exact ⟨rfl, rfl, rfl, rfl⟩
  | wait f =>
      obtain ⟨_, _, _, _, he⟩ := execWait_heap h f
      rw [exec, he]
      exact ⟨rfl, rfl, rfl, rfl⟩
  | poll f => exact absurd rfl (hpoll f)
  | walk report todo total out =>
      obtain ⟨_, _, _, he⟩ := execWalk_heap h report total out todo
      rw [exec, he]
      exact ⟨rfl, rfl, rfl, rfl⟩

/-- Only polls go on with an interrupt. -/
theorem interrupt_of_mem_exec {f g : Frame} (hpoll : ∀ f', f ≠ .poll f')
    (hg : g ∈ (exec index choice h f).2) : g.interrupt = none := by
  cases f with
  | arrive f => rcases mem_execArrive hg with ⟨_, rfl⟩ | ⟨_, rfl⟩ | ⟨_, rfl⟩ <;> rfl
  | depart f => rcases mem_execDepart hg with ⟨_, rfl⟩ | ⟨_, rfl⟩ <;> rfl
  | stop f => rcases mem_execStop hg with ⟨_, rfl⟩ | ⟨_, _, rfl⟩ | ⟨_, rfl⟩ | ⟨_, rfl⟩ <;> rfl
  | notify event n => cases hg
  | life f =>
      rcases mem_execLife hg with ⟨_, rfl⟩ | ⟨_, -, rfl⟩ | ⟨_, rfl⟩ | ⟨_, -, rfl⟩ | ⟨_, -, rfl⟩ <;> rfl
  | child f => rcases mem_execChild hg with ⟨_, rfl⟩ | ⟨_, rfl⟩ <;> rfl
  | guard f => rcases mem_execGuard hg with ⟨_, rfl, -⟩ | ⟨_, rfl⟩ | ⟨_, rfl⟩ | ⟨_, rfl⟩ <;> rfl
  | wait f => rcases mem_execWait hg with ⟨_, rfl⟩ | ⟨_, rfl⟩ <;> rfl
  | poll f => exact absurd rfl (hpoll f)
  | walk report todo total out =>
      rcases mem_execWalk hg with ⟨_, _, _, rfl⟩ | ⟨_, rfl⟩ | ⟨_, -, rfl⟩ <;> rfl

/-- What the step of a poll, or of a drop, makes of its interrupt and of the waiters of
the interrupt's shard. -/
inductive PollStep (h : Heap) : PollFrame → Option Interrupt → Slab Waker → Prop
  /-- The registration stays. -/
  | keep {f : PollFrame} {pending : Option Waker}
      (hp : pending = f.interrupt.pending ∨ pending = none ∨
        ∃ i w, f = .registered i w ∧ pending = some w) :
      PollStep h f (some { f.interrupt with pending := pending }) (h.waiters f.interrupt.shard)
  /-- The registration is replaced. -/
  | register {i : Interrupt} {w : Waker} (hst : (h.shard i.shard).stopped = false) :
      PollStep h (.register i w)
        (some { i with
          registration := some ⟨((i.unregister (h.waiters i.shard)).insert w).2, w⟩
          pending := some w })
        ((i.unregister (h.waiters i.shard)).insert w).1
  | drop {i : Interrupt} :
      PollStep h (.drop i) none (i.unregister (h.waiters i.shard))

theorem stopListeners_pollReturn {i : Interrupt} {pending : Option Waker} :
    (pollReturn h i pending).1.stopListeners (↑(pollReturn h i pending).2 + K) =
      { i with pending := pending } ::ₘ h.stopListeners K := by
  simp [pollReturn, Heap.stopListeners, ← Multiset.cons_coe]

/-- The step of a poll, or of a drop, seen on the interrupts and the waiters. -/
structure Polls (h : Heap) (K : Multiset Frame) (f : PollFrame) (r : Heap × List Frame)
    (next : Option Interrupt) (waiters : Slab Waker) : Prop where
  step : PollStep h f next waiters
  stopListeners : r.1.stopListeners (↑r.2 + K) = ↑next.toList + h.stopListeners K
  waiters : r.1.waiters = Function.update h.waiters f.interrupt.shard waiters
  shard : r.1.shard = h.shard
  drained : r.1.drained = h.drained
  woken : r.1.woken = h.woken

/-- The call goes on with the interrupt. -/
theorem polls_goOn {f f' : PollFrame} (hi : f'.interrupt = f.interrupt) :
    Polls h K f (h, [.poll f']) (some f.interrupt) (h.waiters f.interrupt.shard) where
  step := .keep (.inl rfl)
  stopListeners := by
    rw [← hi]
    simpa using stopListeners_poll f'
  waiters := by simp
  shard := rfl
  drained := rfl
  woken := rfl

/-- The call returns, and leaves the registration alone. -/
theorem polls_return {f : PollFrame} {pending : Option Waker} (hp : pending = none ∨
    ∃ i w, f = .registered i w ∧ pending = some w) :
    Polls h K f (pollReturn h f.interrupt pending)
      (some { f.interrupt with pending := pending }) (h.waiters f.interrupt.shard) where
  step := .keep (.inr hp)
  stopListeners := by
    rw [stopListeners_pollReturn]
    simp
  waiters := by simp [pollReturn]
  shard := rfl
  drained := rfl
  woken := rfl

variable (choice h) in
theorem polls_exec (f : PollFrame) (K : Multiset Frame) :
    ∃ next waiters, Polls h K f (execPoll choice h f) next waiters := by
  cases f with
  | poll i w =>
      rw [execPoll]
      split
      · exact ⟨_, _, polls_return (.inl rfl)⟩
      · exact ⟨_, _, polls_goOn rfl⟩
  | wrapped i w =>
      rw [execPoll]
      split
      · exact ⟨_, _, polls_return (.inl rfl)⟩
      · refine ⟨_, _, polls_goOn ?_⟩
        split <;> rfl
  | registered i w =>
      rw [execPoll]
      split
      · exact ⟨_, _, polls_return (.inl rfl)⟩
      · exact ⟨_, _, polls_return (.inr ⟨i, w, rfl, rfl⟩)⟩
  | register i w =>
      rw [execPoll]
      split
      · exact ⟨_, _, polls_return (.inl rfl)⟩
      · rename_i hst
        refine ⟨_, _, .register (by simpa using hst), ?_, rfl, rfl, rfl, rfl⟩
        rw [stopListeners_pollReturn]
        rfl
  | drop i => exact ⟨_, _, .drop, by simp [execPoll, Heap.stopListeners], rfl, rfl, rfl, rfl⟩

/-- The wakers that the frame's step takes from the shard's waiters. -/
def Frame.takes (h : Heap) (sh : ShardId) : Frame → List Waker
  | .stop (.drain s _) => if s = sh then (h.waiters sh).values else []
  | _ => []

theorem wakes_add (fs : Multiset Frame) :
    h.wakes (fs + K) sh = fs.filterMap (Frame.wakes sh) + h.wakes K sh := by
  rw [Heap.wakes, Heap.wakes, Multiset.filterMap_add, add_left_comm]

theorem wakes_congr (hw : h'.woken sh = h.woken sh) : h'.wakes K sh = h.wakes K sh := by
  rw [Heap.wakes, Heap.wakes, hw]

/-- A step that wakes nobody and takes no waiters. -/
theorem wakes_step {f : Frame} {r : Heap × List Frame} (hf : f.wakes sh = none)
    (hw : r.1.woken sh = h.woken sh) (hfs : ∀ g ∈ r.2, g.wakes sh = none) :
    r.1.wakes (↑r.2 + K) sh = h.wakes (f ::ₘ K) sh := by
  rw [wakes_add, filterMap_eq_zero hfs, zero_add, wakes_congr hw, Heap.wakes, Heap.wakes,
    Multiset.filterMap_cons_none _ _ hf]

/-- Only stops have to do with wakes. -/
theorem wakes_of_mem_exec {f g : Frame} (hstop : ∀ f', f ≠ .stop f')
    (hg : g ∈ (exec index choice h f).2) : g.wakes sh = none := by
  cases f with
  | arrive f => rcases mem_execArrive hg with ⟨_, rfl⟩ | ⟨_, rfl⟩ | ⟨_, rfl⟩ <;> rfl
  | depart f => rcases mem_execDepart hg with ⟨_, rfl⟩ | ⟨_, rfl⟩ <;> rfl
  | stop f => exact absurd rfl (hstop f)
  | notify event n => cases hg
  | life f =>
      rcases mem_execLife hg with ⟨_, rfl⟩ | ⟨_, -, rfl⟩ | ⟨_, rfl⟩ | ⟨_, -, rfl⟩ | ⟨_, -, rfl⟩ <;> rfl
  | child f => rcases mem_execChild hg with ⟨f', rfl⟩ | ⟨_, rfl⟩ <;> rfl
  | guard f => rcases mem_execGuard hg with ⟨_, rfl, -⟩ | ⟨_, rfl⟩ | ⟨_, rfl⟩ | ⟨_, rfl⟩ <;> rfl
  | wait f => rcases mem_execWait hg with ⟨_, rfl⟩ | ⟨_, rfl⟩ <;> rfl
  | poll f => obtain ⟨_, rfl⟩ := mem_execPoll hg; rfl
  | walk report todo total out =>
      rcases mem_execWalk hg with ⟨_, _, _, rfl⟩ | ⟨_, rfl⟩ | ⟨_, -, rfl⟩ <;> rfl

/-- A step adds what it takes from the waiters to the wakers woken, or about to be. -/
theorem wakes_execStop (f : StopFrame) :
    (execStop h f).1.wakes (↑(execStop h f).2 + K) sh =
      h.wakes (.stop f ::ₘ K) sh + ↑((Frame.stop f).takes h sh) := by
  cases f with
  | node n =>
      simp only [Frame.takes, Multiset.coe_nil, add_zero]
      refine wakes_step rfl rfl fun g hg => ?_
      simp only [execStop] at hg
      split at hg
      · cases hg
      · rcases List.mem_append.mp hg with hg | hg
        · rcases List.mem_append.mp hg with hg | hg
          · obtain ⟨_, -, rfl⟩ := mem_stopShards.mp hg
            rfl
          · rcases List.mem_pair.mp hg with rfl | rfl <;> rfl
        · split at hg
          · obtain rfl := List.mem_singleton.mp hg
            rfl
          · cases hg
  | shard s =>
      simp only [Frame.takes, Multiset.coe_nil, add_zero]
      refine wakes_step rfl rfl fun g hg => ?_
      obtain rfl := List.mem_singleton.mp hg
      rfl
  | drain s empty =>
      rw [wakes_add, add_comm]
      have hflush : (↑(if empty then [Frame.depart (.flush s)] else []) : Multiset Frame).filterMap
          (Frame.wakes sh) = 0 := by
        refine filterMap_eq_zero fun g hg => ?_
        split at hg
        · obtain rfl := List.mem_singleton.mp hg
          rfl
        · cases hg
      have hpushed : (↑(execStop h (.drain s empty)).2 : Multiset Frame).filterMap (Frame.wakes sh) =
          ↑((Frame.stop (.drain s empty)).takes h sh) := by
        rw [execStop, ← Multiset.coe_add, Multiset.filterMap_add, hflush, add_zero,
          Multiset.filterMap_coe, List.filterMap_map]
        by_cases hs : s = sh
        · subst hs
          simp [Function.comp_def, Frame.wakes, Frame.takes]
        · simp [Function.comp_def, Frame.wakes, Frame.takes, hs]
      rw [hpushed]
      rw [Heap.wakes, Heap.wakes, Multiset.filterMap_cons_none _ _ rfl]
      rfl
  | wake s w =>
      simp only [Frame.takes, Multiset.coe_nil, add_zero]
      by_cases hs : s = sh
      · subst hs
        rw [execStop, Multiset.coe_nil, zero_add, Heap.wakes, Heap.wakes,
          Multiset.filterMap_cons_some (Frame.wakes s) _ K (b := w) (by simp [Frame.wakes])]
        simp [← Multiset.cons_coe]
      · refine wakes_step (by simp [Frame.wakes, hs]) ?_ (by simp [execStop])
        simp [execStop, Ne.symm hs]
  | liveChildren n i acc =>
      simp only [Frame.takes, Multiset.coe_nil, add_zero]
      refine wakes_step rfl ?_ fun g hg => ?_
      · simp only [execStop]
        split <;> rfl
      · simp only [execStop] at hg
        split at hg
        · obtain rfl := List.mem_singleton.mp hg
          rfl
        · obtain ⟨c, -, hg⟩ := List.mem_flatMap.mp hg
          rcases List.mem_pair.mp hg with rfl | rfl <;> rfl

variable (index choice) in
theorem wakes_exec (f : Frame) :
    (exec index choice h f).1.wakes (↑(exec index choice h f).2 + K) sh =
      h.wakes (f ::ₘ K) sh + ↑(f.takes h sh) := by
  by_cases hstop : ∃ f', f = .stop f'
  · obtain ⟨f, rfl⟩ := hstop
    exact wakes_execStop f
  · have hstop : ∀ f', f ≠ .stop f' := fun f' he => hstop ⟨f', he⟩
    have htakes : f.takes h sh = [] ∧ f.wakes sh = none := by
      cases f with
      | stop f => exact absurd rfl (hstop f)
      | _ => exact ⟨rfl, rfl⟩
    rw [htakes.1, Multiset.coe_nil, add_zero]
    refine wakes_step htakes.2 ?_ fun g hg => wakes_of_mem_exec hstop hg
    by_cases hpoll : ∃ f', f = .poll f'
    · obtain ⟨f, rfl⟩ := hpoll
      obtain ⟨_, _, hp⟩ := polls_exec choice h f 0
      exact congrFun hp.woken sh
    · exact congrFun (sameWaiting_exec (fun f' he => hpoll ⟨f', he⟩) hstop).2.2.2 sh

variable (index choice) in
theorem stopListeners_exec {f : Frame} (hpoll : ∀ f', f ≠ .poll f') :
    (exec index choice h f).1.stopListeners (↑(exec index choice h f).2 + K) =
      h.stopListeners (f ::ₘ K) := by
  have hf : f.interrupt = none := by
    cases f with
    | poll f => exact absurd rfl (hpoll f)
    | _ => rfl
  have hinterrupts : (exec index choice h f).1.interrupts = h.interrupts := by
    by_cases hstop : ∃ f', f = .stop f'
    · obtain ⟨f, rfl⟩ := hstop
      obtain ⟨_, _, _, _, _, _, he⟩ := execStop_heap h f
      rw [exec, he]
    · exact (sameWaiting_exec hpoll fun f' he => hstop ⟨f', he⟩).1
  rw [stopListeners_add, filterMap_eq_zero fun g hg => interrupt_of_mem_exec hpoll hg, zero_add,
    stopListeners_cons hf, Heap.stopListeners, Heap.stopListeners, hinterrupts]

variable (index choice h) in
/-- The waiters are written by polls and drops, and by drains. -/
theorem waiters_exec {f : Frame} (hpoll : ∀ f', f ≠ .poll f')
    (hdrain : ∀ s empty, f ≠ .stop (.drain s empty)) :
    (exec index choice h f).1.waiters = h.waiters ∧
      (exec index choice h f).1.drained = h.drained := by
  by_cases hstop : ∃ f', f = .stop f'
  · obtain ⟨f, rfl⟩ := hstop
    cases f with
    | drain s empty => exact absurd rfl (hdrain s empty)
    | liveChildren n i acc =>
        simp only [exec, execStop]
        split <;> exact ⟨rfl, rfl⟩
    | _ => exact ⟨rfl, rfl⟩
  · exact ⟨(sameWaiting_exec hpoll fun f' he => hstop ⟨f', he⟩).2.1,
      (sameWaiting_exec hpoll fun f' he => hstop ⟨f', he⟩).2.2.1⟩

/-! ## Starting an operation -/

/-- Operations keep the interrupts there are, but for the one that makes a new one. -/
theorem stopListeners_start {fr fs : List Frame} {op : Op}
    (hs : start index h fr op = some (h', fs)) :
    h'.stopListeners (↑fs + ↑fr) = h.stopListeners ↑fr ∨
      ∃ n, op = .interrupt n ∧ h'.stopListeners (↑fs + ↑fr) =
        ⟨⟨n, h.shardIndex index n⟩, none, none⟩ ::ₘ h.stopListeners ↑fr := by
  have hmoved : ∀ {i : Interrupt} {l m : List Frame}, i ∈ h.interrupts →
      l.filterMap Frame.interrupt = i :: m.filterMap Frame.interrupt →
      (↑(h.interrupts.erase i) + (↑l : Multiset Frame).filterMap Frame.interrupt : Multiset Interrupt) =
        ↑h.interrupts + (↑m : Multiset Frame).filterMap Frame.interrupt := by
    intro i l m hi hl
    rw [Multiset.filterMap_coe, hl, Multiset.coe_add, Multiset.filterMap_coe, Multiset.coe_add,
      Multiset.coe_eq_coe]
    exact List.perm_middle.trans ((List.perm_cons_erase hi).symm.append_right _)
  cases op with
  | interrupt n =>
      right
      simp only [start, Option.ite_none_right_eq_some, Option.some.injEq, Prod.mk.injEq] at hs
      obtain ⟨-, rfl, rfl⟩ := hs
      exact ⟨n, rfl, by simp [Heap.stopListeners]⟩
  | pollInterrupt i w =>
      left
      simp only [start, Option.ite_none_right_eq_some, Option.some.injEq, Prod.mk.injEq] at hs
      obtain ⟨hi, rfl, rfl⟩ := hs
      exact hmoved hi rfl
  | dropInterrupt i g =>
      left
      cases g with
      | none =>
          simp only [start, Option.ite_none_right_eq_some, Option.some.injEq, Prod.mk.injEq] at hs
          obtain ⟨hi, rfl, rfl⟩ := hs
          exact hmoved hi rfl
      | some g =>
          simp only [start, Option.ite_none_right_eq_some, Option.some.injEq, Prod.mk.injEq] at hs
          obtain ⟨⟨hi, -⟩, rfl, rfl⟩ := hs
          exact hmoved hi rfl
  | _ =>
      left
      simp only [start, Option.ite_none_right_eq_some, Option.some.injEq, Prod.mk.injEq] at hs
      obtain ⟨-, rfl, rfl⟩ := hs
      rfl

end Swansong
