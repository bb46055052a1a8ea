import Swansong.Waiters

/-!
# Registrations and wakes over a run

The invariant of `Swansong.Waiters` is kept by every step.  It follows that a stop
wakes every interrupt that was registered when the shard was drained, once, through the
waker of its latest pending poll, and that no interrupt is left waiting with a waker
that nobody wakes.

## Main definitions

* `Waiting`, `waiting_reach` — the invariant.
* `Follows` — an interrupt, followed through a run.
* `waiters_exact`, `drain_wakes_once`, `no_lost_wake` — the results.
-/

namespace Swansong

open Interleave (Machine)

variable {index : ℕ} {choice : Bool} {h h' : Heap} {fr K : Multiset Frame} {s s' : State}
  {sh : ShardId}

/-- What interrupts, waiters and wakes have to do with each other. -/
structure Waiting (h : Heap) (fr : Multiset Frame) : Prop where
  /-- The occupied slots are the registrations. -/
  registered : ∀ {sh}, h.drained sh = false → h.registered fr sh = ↑(h.waiters sh).registrations
  drained : ∀ {sh}, h.drained sh = true → h.waiters sh = .empty ∧ (h.shard sh).stopped = true
  unwoken : ∀ {sh}, h.drained sh = false → h.wakes fr sh = 0
  /-- What is registered after the drain was woken by it, or is about to be. -/
  woken : ∀ {sh}, h.drained sh = true → (h.registered fr sh).map Registration.waker ≤ h.wakes fr sh
  pending : ∀ i ∈ h.stopListeners fr, ∀ w, i.pending = some w →
    i.registration.map Registration.waker = some w
  confirms : ∀ {i w}, .poll (.registered i w) ∈ fr → i.confirms w = true
  draining : ∀ {sh}, (h.shard sh).stopped = true →
    h.drained sh = true ∨ ∃ empty, .stop (.drain sh empty) ∈ fr

/-! ## Polls -/

theorem Interrupt.confirms_iff {i : Interrupt} {w : Waker} :
    i.confirms w = true ↔ i.registration.map Registration.waker = some w := by
  obtain ⟨_, registration, _⟩ := i
  cases registration with
  | none => simp [confirms]
  | some r => simp [confirms]

theorem unregister_empty (i : Interrupt) : i.unregister .empty = .empty := by
  unfold Interrupt.unregister
  split
  · rfl
  · exact Slab.remove_of_get_eq_none (Slab.get_empty _)

/-- Without its own, the registrations of the other interrupts are left. -/
theorem registrations_unregister {i : Interrupt} {waiters : Slab Waker} {R : Multiset Registration}
    (hR : ↑i.registration.toList + R = (↑waiters.registrations : Multiset Registration)) :
    R = ↑(i.unregister waiters).registrations := by
  unfold Interrupt.unregister
  split
  · rename_i hi
    simpa [hi] using hR
  · rename_i r hi
    have hcons : r ::ₘ R = (↑waiters.registrations : Multiset Registration) := by
      simpa [hi, ← Multiset.cons_coe] using hR
    have hr : r ∈ waiters.registrations := by
      rw [← Multiset.mem_coe, ← hcons]
      exact Multiset.mem_cons_self r R
    have hperm := Multiset.coe_eq_coe.mpr (Slab.registrations_remove hr)
    rw [← hcons, ← Multiset.cons_coe] at hperm
    exact (Multiset.cons_inj_right r).mp hperm

/-- A poll or a drop keeps the occupied slots the registrations. -/
theorem registrations_pollStep {f : PollFrame} {next : Option Interrupt} {waiters : Slab Waker}
    {R : Multiset Registration} (hp : PollStep h f next waiters)
    (hR : ↑f.interrupt.registration.toList + R =
      (↑(h.waiters f.interrupt.shard).registrations : Multiset Registration)) :
    ↑(next.bind Interrupt.registration).toList + R = (↑waiters.registrations : Multiset Registration) := by
  cases hp with
  | keep hp => exact hR
  | @register i w hst =>
      rw [registrations_unregister hR]
      simp only [Option.bind_some, Option.toList_some]
      rw [Multiset.coe_singleton, Multiset.singleton_add, Multiset.cons_coe]
      exact (Multiset.coe_eq_coe.mpr (Slab.registrations_insert w)).symm
  | drop =>
      simp only [Option.bind_none, Option.toList_none, Multiset.coe_nil, zero_add]
      exact registrations_unregister hR

theorem PollStep.shard {f : PollFrame} {i : Interrupt} {waiters : Slab Waker}
    (hp : PollStep h f (some i) waiters) : i.shard = f.interrupt.shard := by
  cases hp <;> rfl

/-- Another shard's drain leaves nothing to wake. -/
theorem PollStep.waiters_of_drained {f : PollFrame} {next : Option Interrupt} {waiters : Slab Waker}
    (hp : PollStep h f next waiters) (hw : h.waiters f.interrupt.shard = .empty)
    (hst : (h.shard f.interrupt.shard).stopped = true) :
    waiters = .empty ∧ ∀ i ∈ next, i.registration = f.interrupt.registration := by
  cases hp with
  | keep hp => exact ⟨hw, by simp⟩
  | register hst' => exact absurd hst (by simp [hst'])
  | @drop i =>
      refine ⟨?_, by simp⟩
      rw [show h.waiters i.shard = .empty from hw]
      exact unregister_empty i

theorem PollStep.pending {f : PollFrame} {i : Interrupt} {waiters : Slab Waker}
    (hp : PollStep h f (some i) waiters)
    (hold : ∀ w, f.interrupt.pending = some w →
      f.interrupt.registration.map Registration.waker = some w)
    (hconf : ∀ j w, f = .registered j w → j.confirms w = true) {w : Waker}
    (hw : i.pending = some w) : i.registration.map Registration.waker = some w := by
  generalize hi : some i = next at hp
  cases hp with
  | keep hp =>
      obtain rfl := Option.some.inj hi
      rcases hp with hp | hp | ⟨j, w', rfl, hp⟩
      · exact hold w (hp ▸ hw)
      · simp [hp] at hw
      · obtain rfl : w' = w := by simpa [hp] using hw
        exact Interrupt.confirms_iff.mp (hconf j w' rfl)
  | @register j w' hst =>
      obtain rfl := Option.some.inj hi
      simpa using hw
  | drop => cases hi

/-- Only a pending poll replaces a registration. -/
theorem PollStep.registration_of_not_pending {f : PollFrame} {i : Interrupt} {waiters : Slab Waker}
    (hp : PollStep h f (some i) waiters) (hi : i.pending = none) :
    i.registration = f.interrupt.registration := by
  cases hp with
  | keep hp => rfl
  | register hst => cases hi

/-! ## Steps -/

theorem filterMap_toList {α β : Type} (g : α → Option β) (next : Option α) :
    (↑next.toList : Multiset α).filterMap g = ↑(next.bind g).toList := by
  rw [Multiset.filterMap_coe]
  cases next with
  | none => rfl
  | some a => cases hg : g a <;> simp [hg]

theorem registered_add {fs : Multiset Frame} (next : Option Interrupt)
    (hs : h'.stopListeners fs = ↑next.toList + h.stopListeners K) :
    h'.registered fs sh = ↑(next.bind (Interrupt.registrationOn sh)).toList + h.registered K sh := by
  rw [Heap.registered, hs, Multiset.filterMap_add, filterMap_toList]
  rfl

theorem bind_registrationOn {t : ShardId} {next : Option Interrupt} (hn : ∀ i ∈ next, i.shard = t) :
    next.bind (Interrupt.registrationOn sh) = if t = sh then next.bind Interrupt.registration else none := by
  cases next with
  | none => simp
  | some i => simp [Interrupt.registrationOn, hn i rfl]

/-- The registrations on another shard stay. -/
theorem Polls.registered {f : PollFrame} {r : Heap × List Frame} {next : Option Interrupt}
    {waiters : Slab Waker} (hp : Polls h K f r next waiters) :
    h.registered (.poll f ::ₘ K) sh =
        ↑(if f.interrupt.shard = sh then f.interrupt.registration else none).toList +
          h.registered K sh ∧
      r.1.registered (↑r.2 + K) sh =
        ↑(if f.interrupt.shard = sh then next.bind Interrupt.registration else none).toList +
          h.registered K sh := by
  constructor
  · exact registered_add (some f.interrupt) (by rw [stopListeners_poll]; rfl)
  · rw [registered_add next hp.stopListeners, bind_registrationOn]
    intro i hi
    obtain rfl := Option.mem_def.mp hi
    exact hp.step.shard

theorem waiting_execPoll {f : PollFrame} (hw : Waiting h (.poll f ::ₘ K)) :
    Waiting (execPoll choice h f).1 (↑(execPoll choice h f).2 + K) := by
  obtain ⟨next, waiters, hp⟩ := polls_exec choice h f K
  have hwakes : ∀ s, (execPoll choice h f).1.wakes (↑(execPoll choice h f).2 + K) s =
      h.wakes (.poll f ::ₘ K) s := fun s => (wakes_exec 0 choice (.poll f)).trans (add_zero _)
  constructor
  · intro s hs
    rw [hp.drained] at hs
    have hold := hw.registered hs
    rw [hp.registered.1] at hold
    rw [hp.registered.2, hp.waiters]
    by_cases hsh : f.interrupt.shard = s
    · subst hsh
      simp only [if_true, Function.update_self] at hold ⊢
      exact registrations_pollStep hp.step hold
    · simpa [hsh, Ne.symm hsh] using hold
  · intro s hs
    rw [hp.drained] at hs
    obtain ⟨hempty, hst⟩ := hw.drained hs
    refine ⟨?_, by rwa [hp.shard]⟩
    rw [hp.waiters]
    by_cases hsh : f.interrupt.shard = s
    · subst hsh
      rw [Function.update_self]
      exact (hp.step.waiters_of_drained hempty hst).1
    · rwa [Function.update_of_ne (Ne.symm hsh)]
  · intro s hs
    rw [hp.drained] at hs
    rw [hwakes]
    exact hw.unwoken hs
  · intro s hs
    rw [hp.drained] at hs
    refine le_trans ?_ ((hw.woken hs).trans_eq (hwakes s).symm)
    rw [hp.registered.1, hp.registered.2]
    refine Multiset.map_le_map (Multiset.add_le_add_iff_right.mpr ?_)
    by_cases hsh : f.interrupt.shard = s
    · subst hsh
      -- no registration is made on a drained shard
      obtain ⟨hempty, hst⟩ := hw.drained hs
      have hsame := (hp.step.waiters_of_drained hempty hst).2
      rw [if_pos rfl, if_pos rfl]
      cases next with
      | none => exact Multiset.zero_le _
      | some i => simp [hsame i rfl]
    · simp [hsh]
  · intro i hi
    rw [hp.stopListeners] at hi
    have hold : ∀ j ∈ f.interrupt ::ₘ h.stopListeners K, ∀ w, j.pending = some w →
        j.registration.map Registration.waker = some w := by
      rw [← stopListeners_poll]
      exact hw.pending
    rcases Multiset.mem_add.mp hi with hi | hi
    · have hi : next = some i := by simpa [eq_comm] using hi
      intro w
      refine (hi ▸ hp.step : PollStep h f (some i) waiters).pending
        (hold _ (Multiset.mem_cons_self _ _)) fun j w' hf => ?_
      exact hw.confirms (hf ▸ Multiset.mem_cons_self _ K)
    · exact hold i (Multiset.mem_cons_of_mem hi)
  · intro i w hi
    rcases Multiset.mem_add.mp hi with hi | hi
    · -- the shortcut is taken only with the same waker
      cases f <;> simp only [execPoll, pollReturn] at hi <;> (repeat' split at hi) <;> simp at hi
      rename_i j w' _ hconf
      obtain ⟨rfl, rfl⟩ := hi
      exact hconf
    · exact hw.confirms (Multiset.mem_cons_of_mem hi)
  · intro s hst
    rw [hp.shard] at hst
    rw [hp.drained]
    refine (hw.draining hst).imp_right ?_
    rintro ⟨empty, hmem⟩
    refine ⟨empty, ?_⟩
    rcases Multiset.mem_cons.mp hmem with hmem | hmem
    · cases hmem
    · exact Multiset.mem_add.mpr (.inr hmem)

/-! ## Other steps -/

variable (index choice) in
theorem registered_exec {f : Frame} (hpoll : ∀ f', f ≠ .poll f') :
    (exec index choice h f).1.registered (↑(exec index choice h f).2 + K) sh =
      h.registered (f ::ₘ K) sh := by
  rw [Heap.registered, Heap.registered, stopListeners_exec index choice hpoll]

variable (index choice) in
theorem confirms_exec {f : Frame} (hpoll : ∀ f', f ≠ .poll f') (hw : Waiting h (f ::ₘ K))
    {i : Interrupt} {w : Waker} (hi : .poll (.registered i w) ∈ ↑(exec index choice h f).2 + K) :
    i.confirms w = true := by
  rcases Multiset.mem_add.mp hi with hi | hi
  · cases interrupt_of_mem_exec hpoll hi
  · exact hw.confirms (Multiset.mem_cons_of_mem hi)

/-- The drain takes the registrations, and their wakers are about to be woken. -/
theorem waiting_drain {empty : Bool} (hst : (h.shard sh).stopped = true)
    (hw : Waiting h (.stop (.drain sh empty) ::ₘ K)) :
    Waiting (execStop h (.drain sh empty)).1 (↑(execStop h (.drain sh empty)).2 + K) := by
  have hpoll : ∀ f', Frame.stop (.drain sh empty) ≠ .poll f' := by simp
  have hreg : ∀ {s}, (execStop h (.drain sh empty)).1.registered
      (↑(execStop h (.drain sh empty)).2 + K) s = h.registered (.stop (.drain sh empty) ::ₘ K) s :=
    registered_exec 0 false hpoll
  have hwakes : ∀ s, (execStop h (.drain sh empty)).1.wakes (↑(execStop h (.drain sh empty)).2 + K) s =
      h.wakes (.stop (.drain sh empty) ::ₘ K) s +
        ↑((Frame.stop (.drain sh empty)).takes h s) := fun s => wakes_execStop (.drain sh empty)
  have hother : ∀ {s}, s ≠ sh →
      (execStop h (.drain sh empty)).1.wakes (↑(execStop h (.drain sh empty)).2 + K) s =
        h.wakes (.stop (.drain sh empty) ::ₘ K) s := by
    intro s hne
    rw [hwakes, Frame.takes, if_neg (Ne.symm hne)]
    exact add_zero _
  have hdrained : ∀ {s}, s ≠ sh → (execStop h (.drain sh empty)).1.drained s = h.drained s :=
    fun hne => Function.update_of_ne hne _ _
  have hwaiters : ∀ {s}, s ≠ sh → (execStop h (.drain sh empty)).1.waiters s = h.waiters s :=
    fun hne => Function.update_of_ne hne _ _
  constructor
  · intro s hs
    by_cases hsh : s = sh
    · subst hsh
      simp [execStop] at hs
    · rw [hdrained hsh] at hs
      rw [hreg, hwaiters hsh]
      exact hw.registered hs
  · intro s hs
    by_cases hsh : s = sh
    · subst hsh
      exact ⟨by simp [execStop], hst⟩
    · rw [hdrained hsh] at hs
      rw [hwaiters hsh]
      exact hw.drained hs
  · intro s hs
    by_cases hsh : s = sh
    · subst hsh
      simp [execStop] at hs
    · rw [hdrained hsh] at hs
      rw [hother hsh]
      exact hw.unwoken hs
  · intro s hs
    by_cases hsh : s = sh
    · subst hsh
      rw [hreg, hwakes, Frame.takes, if_pos rfl]
      by_cases hd : h.drained s = true
      · exact (hw.woken hd).trans (Multiset.le_add_right _ _)
      · -- what was registered is what the drain takes
        rw [hw.registered (by simpa using hd), Multiset.map_coe, Slab.map_waker_registrations]
        exact Multiset.le_add_left _ _
    · rw [hdrained hsh] at hs
      rw [hreg, hother hsh]
      exact hw.woken hs
  · intro i hi
    exact hw.pending i (by rwa [← stopListeners_exec 0 false hpoll])
  · exact confirms_exec 0 false hpoll hw
  · intro s hs
    by_cases hsh : s = sh
    · subst hsh
      exact .inl (by simp [execStop])
    · rw [hdrained hsh]
      refine (hw.draining hs).imp_right ?_
      rintro ⟨e, hmem⟩
      refine ⟨e, Multiset.mem_add.mpr (.inr ?_)⟩
      rcases Multiset.mem_cons.mp hmem with hmem | hmem
      · cases hmem
        exact absurd rfl hsh
      · exact hmem

/-- Steps that leave the waiters alone. -/
theorem waiting_exec_of_ne {f : Frame} (hpoll : ∀ f', f ≠ .poll f')
    (hdrain : ∀ s empty, f ≠ .stop (.drain s empty)) (hw : Waiting h (f ::ₘ K)) :
    Waiting (exec index choice h f).1 (↑(exec index choice h f).2 + K) := by
  obtain ⟨hwaiters, hdrained⟩ := waiters_exec index choice h hpoll hdrain
  have hwakes : ∀ s, (exec index choice h f).1.wakes (↑(exec index choice h f).2 + K) s =
      h.wakes (f ::ₘ K) s := by
    intro s
    rw [wakes_exec]
    unfold Frame.takes
    split
    · exact absurd rfl (hdrain _ _)
    · exact add_zero _
  constructor
  · intro s hs
    rw [hdrained] at hs
    rw [registered_exec index choice hpoll, hwaiters]
    exact hw.registered hs
  · intro s hs
    rw [hdrained] at hs
    obtain ⟨hempty, hst⟩ := hw.drained hs
    exact ⟨by rw [hwaiters, hempty], extends_exec.latched s hst⟩
  · intro s hs
    rw [hdrained] at hs
    rw [hwakes]
    exact hw.unwoken hs
  · intro s hs
    rw [hdrained] at hs
    rw [registered_exec index choice hpoll, hwakes]
    exact hw.woken hs
  · rw [stopListeners_exec index choice hpoll]
    exact hw.pending
  · exact confirms_exec index choice hpoll hw
  · intro s hst
    rw [hdrained]
    by_cases hf : f = .stop (.shard s)
    · subst hf
      right
      exact ⟨_, Multiset.mem_add.mpr (.inl (List.mem_singleton_self _))⟩
    · rw [latched_exec hf] at hst
      refine (hw.draining hst).imp_right ?_
      rintro ⟨e, hmem⟩
      refine ⟨e, Multiset.mem_add.mpr (.inr ?_)⟩
      exact (Multiset.mem_cons.mp hmem).resolve_left fun he => hdrain s e he.symm

/-! ## The invariant -/

theorem waiting_exec {f : Frame} (hv : Valid h (f ::ₘ K)) (hw : Waiting h (f ::ₘ K)) :
    Waiting (exec index choice h f).1 (↑(exec index choice h f).2 + K) := by
  by_cases hpoll : ∃ f', f = .poll f'
  · obtain ⟨f, rfl⟩ := hpoll
    exact waiting_execPoll hw
  · by_cases hdrain : ∃ s empty, f = .stop (.drain s empty)
    · obtain ⟨s, empty, rfl⟩ := hdrain
      have hst : (h.shard s).stopped = true := (hv.frames _ (Multiset.mem_cons_self _ K)).2
      exact waiting_drain hst hw
    · exact waiting_exec_of_ne (fun f' he => hpoll ⟨f', he⟩) (fun s e he => hdrain ⟨s, e, he⟩) hw

theorem wakes_start {fr fs : List Frame} {op : Op} (hs : start index h fr op = some (h', fs)) :
    h'.wakes (↑fs + ↑fr) sh = h.wakes ↑fr sh := by
  have hfs : ∀ g ∈ fs, g.wakes sh = none := by
    intro g hg
    have hstarts := starts_of_mem_start hs hg
    unfold Frame.wakes
    split
    · cases hstarts
    · rfl
  rw [wakes_add, filterMap_eq_zero hfs, zero_add]
  obtain ⟨_, _, _, _, _, _, _, _, _, _, rfl⟩ := start_heap hs
  rfl

theorem waiting_start {fr fs : List Frame} {op : Op} (hs : start index h fr op = some (h', fs))
    (hw : Waiting h ↑fr) : Waiting h' (↑fs + ↑fr) := by
  have hlisteners := stopListeners_start hs
  have hreg : ∀ s, h'.registered (↑fs + ↑fr) s = h.registered ↑fr s := by
    intro s
    rcases hlisteners with he | ⟨n, -, he⟩
    · rw [Heap.registered, he, Heap.registered]
    · rw [Heap.registered, he, Multiset.filterMap_cons_none _ _ (by simp [Interrupt.registrationOn]),
        Heap.registered]
  have hsame : h'.waiters = h.waiters ∧ h'.drained = h.drained ∧ h'.shard = h.shard := by
    obtain ⟨_, _, _, _, _, _, _, _, _, _, rfl⟩ := start_heap hs
    exact ⟨rfl, rfl, rfl⟩
  obtain ⟨hwaiters, hdrained, hshard⟩ := hsame
  constructor
  · intro s hd
    rw [hreg, hwaiters]
    exact hw.registered (hdrained ▸ hd)
  · intro s hd
    rw [hwaiters, hshard]
    exact hw.drained (hdrained ▸ hd)
  · intro s hd
    rw [wakes_start hs]
    exact hw.unwoken (hdrained ▸ hd)
  · intro s hd
    rw [hreg, wakes_start hs]
    exact hw.woken (hdrained ▸ hd)
  · intro i hi
    rcases hlisteners with he | ⟨n, -, he⟩
    · exact hw.pending i (he ▸ hi)
    · rw [he] at hi
      rcases Multiset.mem_cons.mp hi with rfl | hi
      · simp
      · exact hw.pending i hi
  · intro i w hi
    rcases Multiset.mem_add.mp hi with hi | hi
    · cases starts_of_mem_start hs hi
    · exact hw.confirms hi
  · intro s hst
    rw [hshard] at hst
    rw [hdrained]
    refine (hw.draining hst).imp_right ?_
    rintro ⟨e, hmem⟩
    exact ⟨e, Multiset.mem_add.mpr (.inr hmem)⟩

theorem waiting_reach {P : State → Act → Prop} (hr : machine.Reach P s) :
    Waiting s.mem s.frames := by
  refine discipline.invariant (J := Valid) valid_reach ?_ ?_ ?_ hr
  · constructor <;>
      simp [machine, Heap.empty, Heap.registered, Heap.stopListeners, Heap.wakes]
  · intro index b h f K _ hv _ hw
    exact waiting_exec hv hw
  · intro index h fr op h' fs hop _ _ hw
    exact waiting_start hop hw

/-! ## The registry is exact -/

/-- An interrupt that is followed through a run, and the waker of its latest poll that
returned Pending. -/
inductive Follows : State → Interrupt → Option Waker → Prop
  | new {s s' : State} {index n} : Reachable s →
      machine.step s (.start index (.interrupt n)) = some s' →
      Follows s' ⟨⟨n, s.mem.shardIndex index n⟩, none, none⟩ none
  /-- A step that leaves it alone. -/
  | other {s s' : State} {a i latest} : Follows s i latest → machine.step s a = some s' →
      i ∈ s'.mem.stopListeners s'.frames → Follows s' i latest
  /-- A step of a poll of it. -/
  | poll {s s' : State} {a f i L latest} : Follows s f.interrupt latest →
      machine.step s a = some s' → s.top a = some (.poll f) →
      s.mem.stopListeners s.frames = f.interrupt ::ₘ L → s'.mem.stopListeners s'.frames = i ::ₘ L →
      Follows s' i (i.pending <|> latest)

theorem Follows.reachable {i : Interrupt} {latest : Option Waker} (hf : Follows s i latest) :
    Reachable s := by
  induction hf with
  | new hr hs => exact .step hr trivial hs
  | other _ hs _ ih => exact .step ih trivial hs
  | poll _ hs _ _ _ ih => exact .step ih trivial hs

/-- What a step of a poll does to the interrupts there are. -/
theorem exists_pollStep {a : Act} {f : PollFrame} (hr : Reachable s) (hs : machine.step s a = some s')
    (htop : s.top a = some (.poll f)) : ∃ L next waiters, PollStep s.mem f next waiters ∧
      s.mem.stopListeners s.frames = f.interrupt ::ₘ L ∧
      s'.mem.stopListeners s'.frames = ↑next.toList + L ∧ .poll f ∈ s.frames := by
  obtain ⟨i, b, index, K, rfl, -, hfr, hmem, hfr'⟩ := discipline.step_of_top hr hs htop
  obtain ⟨next, waiters, hp⟩ := polls_exec b s.mem f K
  refine ⟨s.mem.stopListeners K, next, waiters, hp.step, ?_, ?_, ?_⟩
  · rw [hfr]
    exact stopListeners_poll f
  · rw [hmem, hfr']
    exact hp.stopListeners
  · rw [← Multiset.mem_coe, hfr]
    exact Multiset.mem_cons_self _ K

/-- The registration holds the waker of the latest pending poll. -/
theorem Follows.waker_eq {i : Interrupt} {latest : Option Waker} (hf : Follows s i latest) :
    i.registration.map Registration.waker = latest := by
  induction hf with
  | new hr hs => rfl
  | other _ _ _ ih => exact ih
  | @poll s s' a f i L latest hf hs htop hL hL' ih =>
      have hr := hf.reachable
      obtain ⟨L₁, next, waiters, hp, hL₁, hL₁', hmem⟩ := exists_pollStep hr hs htop
      obtain rfl : L = L₁ := (Multiset.cons_inj_right _).mp (hL.symm.trans hL₁)
      have hw := waiting_reach hr
      have hnext : next = some i := by
        have := hL'.symm.trans hL₁'
        rw [← Multiset.singleton_add, Multiset.add_left_inj] at this
        cases next with
        | none => simp at this
        | some j => simpa [eq_comm] using this
      subst hnext
      have hpend : ∀ w, i.pending = some w → i.registration.map Registration.waker = some w := by
        intro w
        refine hp.pending (hw.pending _ (hL ▸ Multiset.mem_cons_self _ L)) fun j w' he => ?_
        exact hw.confirms (he ▸ hmem)
      cases hpending : i.pending with
      | some w => exact hpend w hpending
      | none => rw [hp.registration_of_not_pending hpending, ih]; rfl

/-- Every interrupt there is can be followed. -/
theorem exists_follows (hr : Reachable s) :
    ∀ i ∈ s.mem.stopListeners s.frames, ∃ latest, Follows s i latest := by
  induction hr with
  | init => simp [machine, Heap.empty, Heap.stopListeners, Interleave.Config.frames]
  | @step s s' a hr _ hs ih =>
      intro i hi
      by_cases htop : ∃ f, s.top a = some (.poll f)
      · obtain ⟨f, htop⟩ := htop
        obtain ⟨L, next, waiters, -, hL, hL', -⟩ := exists_pollStep hr hs htop
        rw [hL'] at hi
        rcases Multiset.mem_add.mp hi with hnext | hL''
        · obtain rfl : next = some i := by simpa [eq_comm] using hnext
          obtain ⟨latest, hf⟩ := ih f.interrupt (hL ▸ Multiset.mem_cons_self _ L)
          exact ⟨_, .poll hf hs htop hL hL'⟩
        · obtain ⟨latest, hf⟩ := ih i (hL ▸ Multiset.mem_cons_of_mem hL'')
          exact ⟨latest, .other hf hs (hL' ▸ hi)⟩
      · rcases discipline.step_cases hr hs with
          ⟨j, b, index, f, k, K, rfl, hj, -, hfr, hmem, hfr'⟩ | ⟨index, op, fs, rfl, hstart, hfr'⟩
        · have htop' : s.top (.run j b : Act) = some f := Interleave.Config.top_run hj
          have hpoll : ∀ f', f ≠ .poll f' := fun f' he => htop ⟨f', he ▸ htop'⟩
          have hsame : s'.mem.stopListeners s'.frames = s.mem.stopListeners s.frames := by
            rw [hmem, hfr', hfr]
            exact stopListeners_exec index b hpoll
          obtain ⟨latest, hf⟩ := ih i (hsame ▸ hi)
          exact ⟨latest, .other hf hs hi⟩
        · rcases stopListeners_start hstart with he | ⟨n, rfl, he⟩
          · rw [← hfr'] at he
            obtain ⟨latest, hf⟩ := ih i (he ▸ hi)
            exact ⟨latest, .other hf hs hi⟩
          · rw [← hfr'] at he
            rw [he] at hi
            rcases Multiset.mem_cons.mp hi with rfl | hi'
            · exact ⟨none, .new hr hs⟩
            · obtain ⟨latest, hf⟩ := ih i hi'
              exact ⟨latest, .other hf hs (he ▸ hi)⟩

/-- The slot of a registration. -/
theorem slot_of_registered {i : Interrupt} {r : Registration} (hr : Reachable s)
    (hd : s.mem.drained sh = false) (hi : i ∈ s.mem.stopListeners s.frames) (hsh : i.shard = sh)
    (hreg : i.registration = some r) : (s.mem.waiters sh).get r.key = some r.waker := by
  rw [← Slab.mem_registrations, ← Multiset.mem_coe, ← (waiting_reach hr).registered hd]
  refine (Multiset.mem_filterMap _ _).mpr ⟨i, hi, ?_⟩
  rw [Interrupt.registrationOn, if_pos hsh, hreg]

/-- **The registry is exact.**  In every reachable state the occupied slots of a shard
that was not drained are the registrations of the interrupts there are, each once.  A
registration holds the waker of its interrupt's latest pending poll, and a step that
leaves an interrupt alone leaves its slot alone.  After the drain the slab stays empty,
and the keys that interrupts hold remove nothing. -/
theorem waiters_exact (hr : Reachable s) (sh : ShardId) :
    (s.mem.drained sh = false → ∀ r, (s.mem.registered s.frames sh).count r =
      if (s.mem.waiters sh).get r.key = some r.waker then 1 else 0) ∧
    (∀ i ∈ s.mem.stopListeners s.frames, ∃ latest, Follows s i latest) ∧
    (∀ i latest, Follows s i latest → i.registration.map Registration.waker = latest) ∧
    (∀ a s', machine.step s a = some s' → s'.mem.drained sh = false →
      ∀ i ∈ s.mem.stopListeners s.frames, i ∈ s'.mem.stopListeners s'.frames → i.shard = sh →
        ∀ r, i.registration = some r →
          (s'.mem.waiters sh).get r.key = (s.mem.waiters sh).get r.key) ∧
    (s.mem.drained sh = true → ∀ s', machine.Leads (fun _ _ => True) s s' →
      s'.mem.waiters sh = .empty ∧
        ∀ key, (s'.mem.waiters sh).remove key = (s'.mem.waiters sh, none)) := by
  refine ⟨?_, exists_follows hr, fun i latest hf => hf.waker_eq, ?_, ?_⟩
  · intro hd r
    rw [(waiting_reach hr).registered hd, Multiset.coe_count,
      List.Nodup.count Slab.nodup_registrations]
    simp
  · intro a s' hs hd i hi hi' hsh r hreg
    have hold : s.mem.drained sh = false := by
      by_contra hne
      rw [(extends_step hs).drained sh (by simpa using hne)] at hd
      cases hd
    rw [slot_of_registered hr hold hi hsh hreg,
      slot_of_registered (hr.step trivial hs) hd hi' hsh hreg]
  · intro hd s' hl
    have hempty := ((waiting_reach (hr.leads hl)).drained ((extends_leads hl).drained sh hd)).1
    refine ⟨hempty, fun key => ?_⟩
    rw [hempty]
    exact Prod.ext (Slab.remove_of_get_eq_none (Slab.get_empty key))
      ((Slab.remove_value _ key).trans (Slab.get_empty key))

/-- An interrupt is polled with one waker, then with another. -/
def polledTwice : List Act :=
  [.start 0 (.newRoot 1 false), .start 1 (.interrupt 0),
    .start 1 (.pollInterrupt ⟨⟨0, 0⟩, none, none⟩ ⟨7, 7⟩), .run 2 false, .run 2 false, .run 2 false,
    .start 1 (.pollInterrupt ⟨⟨0, 0⟩, some ⟨0, ⟨7, 7⟩⟩, some ⟨7, 7⟩⟩ ⟨8, 8⟩), .run 3 false,
    .run 3 false, .run 3 false]

theorem waiters_exact_polledTwice : ∃ s, Reachable s ∧
    (s.mem.registered s.frames ⟨0, 0⟩).count ⟨0, ⟨8, 8⟩⟩ = 1 ∧
    (s.mem.registered s.frames ⟨0, 0⟩).count ⟨0, ⟨7, 7⟩⟩ = 0 := by
  obtain ⟨s, hr, hs⟩ := Machine.exists_reachable (M := machine) polledTwice
    (p := fun s => s.mem.drained ⟨0, 0⟩ = false ∧ (s.mem.waiters ⟨0, 0⟩).get 0 = some ⟨8, 8⟩)
    (by decide)
  obtain ⟨hd, hget⟩ := of_decide_eq_true hs
  have hcount := (waiters_exact hr ⟨0, 0⟩).1 hd
  refine ⟨s, hr, ?_, ?_⟩
  · rw [hcount, if_pos hget]
  · rw [hcount, hget]
    decide

/-! ## Wakes over a run -/

/-- Once a shard is drained, nothing more is taken from its waiters. -/
theorem wakes_leads {P : State → Act → Prop} (hr : Reachable s) (hl : machine.Leads P s s')
    (hd : s.mem.drained sh = true) : s'.mem.wakes s'.frames sh = s.mem.wakes s.frames sh := by
  induction hl with
  | refl => rfl
  | @step s₁ s₂ a hl _ hs ih =>
      rw [← ih]
      have hr₁ := hr.leads (hl.mono fun _ _ _ => trivial)
      rcases discipline.step_cases hr₁ hs with
        ⟨j, b, index, f, k, K, -, -, -, hfr, hmem, hfr'⟩ | ⟨index, op, fs, -, hstart, hfr'⟩
      · have hempty := ((waiting_reach hr₁).drained ((extends_leads hl).drained sh hd)).1
        have htakes : f.takes s₁.mem sh = [] := by
          unfold Frame.takes
          split
          · split
            · rw [hempty]
              rfl
            · rfl
          · rfl
        rw [hmem, hfr', hfr]
        refine (wakes_exec index b f).trans ?_
        rw [htakes]
        exact add_zero _
      · rw [hfr']
        exact wakes_start hstart

/-- Only the drain drains. -/
theorem top_of_drained {a : Act} (hr : Reachable s) (hs : machine.step s a = some s')
    (hd : ¬s.mem.drained sh = true) (hd' : s'.mem.drained sh = true) :
    ∃ empty, s.top a = some (.stop (.drain sh empty)) := by
  rcases discipline.step_cases hr hs with
    ⟨j, b, index, f, k, K, rfl, hj, -, -, hmem, -⟩ | ⟨index, op, fs, -, hstart, -⟩
  · have htop : s.top (.run j b : Act) = some f := Interleave.Config.top_run hj
    have hmem : s'.mem = (exec index b s.mem f).1 := hmem
    rw [hmem] at hd'
    by_cases hpoll : ∃ f', f = .poll f'
    · obtain ⟨f, rfl⟩ := hpoll
      obtain ⟨_, _, hp⟩ := polls_exec b s.mem f 0
      exact absurd ((congrFun hp.drained sh).symm.trans hd') hd
    · by_cases hdrain : ∃ t empty, f = .stop (.drain t empty)
      · obtain ⟨t, empty, rfl⟩ := hdrain
        by_cases ht : sh = t
        · subst ht
          exact ⟨empty, htop⟩
        · exact absurd (by simpa [exec, execStop, ht] using hd') hd
      · rw [(waiters_exec index b s.mem (fun f' he => hpoll ⟨f', he⟩)
          fun t e he => hdrain ⟨t, e, he⟩).2] at hd'
        exact absurd hd' hd
  · obtain ⟨_, _, _, _, _, _, _, _, _, _, he⟩ := start_heap hstart
    rw [he] at hd'
    exact absurd hd' hd

/-- **The drain wakes each waiter once.**  Nobody is woken before a shard is drained.  Once
it is, the wakers that were woken and those about to be are, over the rest of the run,
those registered when the drain took them, one for each interrupt registered then. -/
theorem drain_wakes_once (hr : Reachable s) (sh : ShardId) :
    (s.mem.drained sh = false → s.mem.wakes s.frames sh = 0) ∧
    (s.mem.drained sh = true → ∃ s₀ s₁ a empty, Reachable s₀ ∧ s₀.mem.drained sh = false ∧
      s₀.top a = some (.stop (.drain sh empty)) ∧ machine.step s₀ a = some s₁ ∧
      machine.Leads (fun _ _ => True) s₁ s ∧
      s.mem.wakes s.frames sh = (s₀.mem.registered s₀.frames sh).map Registration.waker) := by
  refine ⟨(waiting_reach hr).unwoken, fun hd => ?_⟩
  obtain ⟨s₀, s₁, a, hr₀, hd₀, hs, hd₁, hl⟩ :=
    hr.exists_entry (p := fun s => s.mem.drained sh = true) (by simp [machine, Heap.empty]) hd
  obtain ⟨empty, htop⟩ := top_of_drained hr₀ hs hd₀ hd₁
  have hd₀ : s₀.mem.drained sh = false := by simpa using hd₀
  refine ⟨s₀, s₁, a, empty, hr₀, hd₀, htop, hs, hl, ?_⟩
  rw [wakes_leads (hr₀.step trivial hs) hl hd₁]
  obtain ⟨j, b, index, K, rfl, -, hfr, hmem, hfr'⟩ := discipline.step_of_top hr₀ hs htop
  have hw := waiting_reach hr₀
  rw [hmem, hfr', hw.registered hd₀, Multiset.map_coe, Slab.map_waker_registrations]
  refine (wakes_exec index b _).trans ?_
  rw [← hfr, hw.unwoken hd₀, zero_add, Frame.takes, if_pos rfl]

/-! ## No wake is lost -/

/-- Whether the frame is on its way through a stop of the shard. -/
def Frame.stopsShard (sh : ShardId) : Frame → Bool
  | .stop (.shard s) | .stop (.drain s _) | .stop (.wake s _) => s = sh
  | _ => false

/-- Pending interrupts are registered with the wakers they are pending with. -/
theorem count_pending_le {l : List Interrupt} {w : Waker}
    (hl : ∀ i ∈ l, ∀ w, i.pending = some w → i.registration.map Registration.waker = some w) :
    l.countP (fun i => i.shard = sh ∧ i.pending = some w) ≤
      ((l.filterMap (Interrupt.registrationOn sh)).map Registration.waker).count w := by
  induction l with
  | nil => rfl
  | cons i l ih =>
      have ih := ih fun j hj => hl j (List.mem_cons_of_mem i hj)
      rw [List.countP_cons]
      by_cases hi : i.shard = sh ∧ i.pending = some w
      · obtain ⟨r, hr, hrw⟩ := Option.map_eq_some_iff.mp (hl i List.mem_cons_self w hi.2)
        have hon : i.registrationOn sh = some r := by rw [Interrupt.registrationOn, if_pos hi.1, hr]
        rw [List.filterMap_cons_some hon, List.map_cons, hrw, List.count_cons_self]
        simpa [hi] using ih
      · simp only [hi, decide_false, Bool.false_eq_true, if_false, add_zero]
        refine ih.trans ?_
        rw [List.filterMap_cons]
        split
        · exact le_rfl
        · exact List.count_le_count_cons

/-- **No lost wake.**  In every reachable state, the waker that an interrupt is pending
with is in its slot, or the shard is stopped and its drain woke the waker, or is about to,
once for each interrupt pending with it.  Polls that begin after a wake return the
terminal value without registering.  When the node is stopped or collected and no stop is
on its way through the shard, every such waker was woken. -/
theorem no_lost_wake (hr : Reachable s) (sh : ShardId) :
    (∀ i ∈ s.mem.interrupts, i.shard = sh → ∀ w, i.pending = some w →
      (s.mem.drained sh = false ∧ ∃ r, i.registration = some r ∧ r.waker.willWake w = true ∧
        (s.mem.waiters sh).get r.key = some r.waker) ∨
      (s.mem.drained sh = true ∧ (s.mem.shard sh).stopped = true ∧
        w ∈ s.mem.wakes s.frames sh)) ∧
    (s.mem.drained sh = true → ∀ w,
      s.mem.interrupts.countP (fun i => i.shard = sh ∧ i.pending = some w) ≤
        (s.mem.wakes s.frames sh).count w) ∧
    (s.mem.drained sh = true → ∀ s', machine.Leads (fun _ _ => True) s s' →
      ∀ i w choice, i.shard = sh →
        execPoll choice s'.mem (.poll i w) = pollReturn s'.mem i none) ∧
    (s.mem.Ended sh.node → (∀ f ∈ s.frames, f.stopsShard sh = false) →
      ∀ i ∈ s.mem.interrupts, i.shard = sh → ∀ w, i.pending = some w → w ∈ s.mem.woken sh) := by
  have hw := waiting_reach hr
  have hmem : ∀ {i}, i ∈ s.mem.interrupts → i ∈ s.mem.stopListeners s.frames :=
    fun hi => Multiset.mem_add.mpr (.inl hi)
  have hcount : s.mem.drained sh = true → ∀ w,
      s.mem.interrupts.countP (fun i => i.shard = sh ∧ i.pending = some w) ≤
        (s.mem.wakes s.frames sh).count w := by
    intro hd w
    refine (count_pending_le fun i hi => hw.pending i (hmem hi)).trans ?_
    refine le_trans ?_ (Multiset.count_le_of_le w (hw.woken hd))
    rw [Heap.registered, Heap.stopListeners, Multiset.filterMap_add, Multiset.map_add,
      Multiset.count_add, Multiset.filterMap_coe, Multiset.map_coe, Multiset.coe_count]
    exact Nat.le_add_right _ _
  have hwakes : s.mem.drained sh = true → ∀ i ∈ s.mem.interrupts, i.shard = sh → ∀ w,
      i.pending = some w → w ∈ s.mem.wakes s.frames sh := by
    intro hd i hi hsh w hpending
    refine Multiset.count_pos.mp (lt_of_lt_of_le ?_ (hcount hd w))
    exact List.countP_pos_iff.mpr ⟨i, hi, by simp [hsh, hpending]⟩
  refine ⟨?_, hcount, ?_, ?_⟩
  · intro i hi hsh w hpending
    by_cases hd : s.mem.drained sh = true
    · exact .inr ⟨hd, (hw.drained hd).2, hwakes hd i hi hsh w hpending⟩
    · obtain ⟨r, hreg, hrw⟩ := Option.map_eq_some_iff.mp (hw.pending i (hmem hi) w hpending)
      have hd : s.mem.drained sh = false := by simpa using hd
      exact .inl ⟨hd, r, hreg, Waker.willWake_iff.mpr hrw,
        slot_of_registered hr hd (hmem hi) hsh hreg⟩
  · intro hd s' hl i w choice hsh
    have hst := (extends_leads hl).latched sh (hw.drained hd).2
    rw [execPoll, hsh, if_pos hst]
  · intro hend hfree i hi hsh w hpending
    have hhas : s.mem.HasShard sh := hsh ▸ (valid_reach hr).wf.interrupts i hi
    have hst : (s.mem.shard sh).stopped = true := by
      refine ((latched_reach hr).ended hhas hend).resolve_right fun hf => ?_
      simpa [Frame.stopsShard] using hfree _ hf
    have hd : s.mem.drained sh = true := by
      refine (hw.draining hst).resolve_right ?_
      rintro ⟨empty, hf⟩
      simpa [Frame.stopsShard] using hfree _ hf
    have hmem := hwakes hd i hi hsh w hpending
    rw [Heap.wakes, filterMap_eq_zero, add_zero] at hmem
    · exact hmem
    · intro f hf
      have := hfree f hf
      unfold Frame.wakes
      split
      · rw [if_neg (by simpa [Frame.stopsShard] using this)]
      · rfl

/-- The root is stopped as far as the drain, and the wake of its one waiter. -/
def polledThenStopped : List Act :=
  polledTwice ++ [.start 0 (.shutDown 0), .run 4 false, .run 4 false, .run 4 false, .run 4 false]

theorem drain_wakes_once_polledThenStopped : ∃ s, Reachable s ∧
    s.mem.woken ⟨0, 0⟩ = [⟨8, 8⟩] ∧ ∃ s₀ : State,
      s.mem.wakes s.frames ⟨0, 0⟩ = (s₀.mem.registered s₀.frames ⟨0, 0⟩).map Registration.waker := by
  obtain ⟨s, hr, hs⟩ := Machine.exists_reachable (M := machine) polledThenStopped
    (p := fun s => s.mem.drained ⟨0, 0⟩ = true ∧ s.mem.woken ⟨0, 0⟩ = [⟨8, 8⟩]) (by decide)
  obtain ⟨hd, hwoken⟩ := of_decide_eq_true hs
  obtain ⟨s₀, _, _, _, _, _, _, _, _, hwakes⟩ := (drain_wakes_once hr ⟨0, 0⟩).2 hd
  exact ⟨s, hr, hwoken, s₀, hwakes⟩

theorem no_lost_wake_polledThenStopped : ∃ s, Reachable s ∧
    s.mem.interrupts = [⟨⟨0, 0⟩, some ⟨0, ⟨8, 8⟩⟩, some ⟨8, 8⟩⟩] ∧
    (⟨8, 8⟩ : Waker) ∈ s.mem.woken ⟨0, 0⟩ := by
  obtain ⟨s, hr, hs⟩ := Machine.exists_reachable (M := machine) polledThenStopped
    (p := fun s => s.mem.interrupts = [⟨⟨0, 0⟩, some ⟨0, ⟨8, 8⟩⟩, some ⟨8, 8⟩⟩] ∧
      (s.mem.state 0).stopped = true ∧ s.frames.all fun f => !f.stopsShard ⟨0, 0⟩) (by decide)
  obtain ⟨hi, hst, hfree⟩ := of_decide_eq_true hs
  refine ⟨s, hr, hi, ?_⟩
  exact (no_lost_wake hr ⟨0, 0⟩).2.2.2 (.inl hst) (by simpa using hfree) _
    (by rw [hi]; exact List.mem_singleton_self _) rfl _ rfl

end Swansong
