import Swansong.Completion
import Swansong.Monotonic
import Swansong.Latch
import Swansong.Transparency

/-!
# No spurious interruption

An interrupt holds a shard and not its node, so a node may be collected under it.  It
takes its stop branch only if the node was stopped or collected, and whoever has a
stake in a child, down to a guard on a descendant, keeps the child from being
collected.

## Main results

* `Released`, `released_of_collected` — what a collected child is free of.
* `Interrupt.StopsIn`, `Call.Passes` — the stop branch of a poll, and the other branch of
  every call, by what they return.
* `no_spurious_interruption` — the rule for interrupts, with the lifetimes it needs.
-/

namespace Swansong

open Interleave (Machine)

variable {h : Heap} {s : State} {n c : NodeId} {sh : ShardId} {τ ι : Type} {ω : Outputs}

/-- The node is allocated, and its last strong reference was dropped. -/
def Heap.Collected (h : Heap) (n : NodeId) : Prop := n < h.size ∧ h.strong n = 0

/-- Nothing keeps the node: no handle, held or being dropped, no observer, no guard, and
no live descendant. -/
structure Released (s : State) (c : NodeId) : Prop where
  handles : s.mem.handles c = 0
  dropHandle : .life (.dropHandle c) ∉ s.frames
  observers : ∀ o, InUse s.mem s.frames o → o.node ≠ c
  guards : ∀ g, Outstanding s g → g.shard.node ≠ c
  descendants : ∀ d, c ∈ s.mem.lineage d → s.mem.strong d = 0

/-- The node was stopped or collected. -/
def Heap.Gone (h : Heap) (n : NodeId) : Prop := (h.state n).stopped = true ∨ h.Collected n

/-! ## The two branches of a call -/

/-- A poll of the interrupt takes its stop branch at one of its checks: it gives the
interrupt back with nothing pending. -/
def Interrupt.StopsIn (h : Heap) (i : Interrupt) (w : Waker) : Prop :=
  ∃ choice, execPoll choice h (.poll i w) = pollReturn h i none ∨
    execPoll choice h (.registered i w) = pollReturn h i none ∨
    execPoll choice h (.register i w) = pollReturn h i none

/-- The call begins in the state and goes on along a run. -/
def Call.Begins (s : State) (c : Call ι) : Prop :=
  c.check = s ∧ machine.Leads (fun _ _ => True) s c.recheck

/-- The call drives the wrapped value. -/
def Call.Drives (W : Wrapped τ ι ω) (i : InterruptOf τ) (c : Call ι) : Prop :=
  (i.call W c.moment c.method).1.wrapped = (W.call c.method c.world i.wrapped).1

/-- The call drives the wrapped value and returns its answer. -/
def Call.Passes (W : Wrapped τ ι ω) (i : InterruptOf τ) (c : Call ι) : Prop :=
  c.Drives W i ∧ (i.call W c.moment c.method).2 = c.method.answer (W.call c.method c.world i.wrapped).2

/-- Whether a poll of the interrupt goes on to the wrapped value, and is Pending if that
is: by its registration, or by a new one. -/
def Delegates (h : Heap) (i : Interrupt) (w : Waker) : Prop :=
  ∀ choice,
    execPoll choice h (.poll i w) = (h, [.poll (.wrapped i w)]) ∧
    execPoll choice h (.registered i w) = pollReturn h i (some w) ∧
    ∃ waiters key, execPoll choice h (.register i w) =
      pollReturn { h with waiters := waiters } { i with registration := some ⟨key, w⟩ } (some w)

theorem delegates_of_not_latched {i : Interrupt} {w : Waker}
    (hi : (h.shard i.shard).stopped = false) : Delegates h i w := by
  intro choice
  simp only [execPoll, hi, Bool.false_eq_true, if_false]
  exact ⟨trivial, trivial, _, _, rfl⟩

/-- The stop branch is that of a latched shard. -/
theorem latched_of_stopsIn {i : Interrupt} {w : Waker} (hi : i.StopsIn h w) :
    (h.shard i.shard).stopped = true := by
  by_contra hst
  have hst : (h.shard i.shard).stopped = false := by simpa using hst
  obtain ⟨choice, hpoll | hpoll | hpoll⟩ := hi
  · rw [(delegates_of_not_latched hst choice).1] at hpoll
    cases congrArg Prod.snd hpoll
  · -- the interrupt is given back with the waker pending
    rw [(delegates_of_not_latched hst choice).2.1] at hpoll
    have hback := congrArg (fun r => r.1.interrupts) hpoll
    simp [pollReturn] at hback
  · obtain ⟨waiters, key, hregister⟩ := (delegates_of_not_latched (w := w) hst choice).2.2
    rw [hregister] at hpoll
    have hback := congrArg (fun r => r.1.interrupts) hpoll
    simp [pollReturn] at hback

theorem drives_of_not_late {W : Wrapped τ ι ω} {i : InterruptOf τ} {c : Call ι}
    (hc : ¬c.Late i.stopListener.shard) : c.Drives W i := (call_early W hc).1

/-- A call passes if its shard is not latched at its second check. -/
theorem passes_of_not_overtaken {W : Wrapped τ ι ω} {i : InterruptOf τ} {c : Call ι}
    (hc : c.Begins s) (hover : ¬c.Overtaken i.stopListener.shard) : c.Passes W i := by
  have hearly : ¬c.Late i.stopListener.shard := by
    intro hlate
    obtain ⟨rfl, hl⟩ := hc
    exact hover ((extends_leads hl).latched _ hlate)
  obtain ⟨hdriven, hreply | ⟨-, hover', -⟩⟩ := call_early W hearly
  · exact ⟨hdriven, hreply⟩
  · exact absurd hover' hover

/-! ## Latched shards and collected nodes -/

/-- A latched shard is one of a node that was stopped or collected. -/
theorem stopped_or_collected (hr : Reachable s) (hst : (s.mem.shard sh).stopped = true) :
    s.mem.Gone sh.node := by
  have hsh := (sound_reach hr).valid.wf.hasShard_of_stopped hst
  exact ((latched_reach hr).latched hst).imp_right fun hdead => ⟨hsh.1, hdead⟩

/-- An observer in use keeps its node alive. -/
theorem live_of_inUse (hr : Reachable s) {o : Observer} (ho : InUse s.mem s.frames o) :
    0 < s.mem.strong o.node := by
  have hs := sound_reach hr
  rcases ho with ho | ⟨f, hf, hp⟩
  · exact hs.references.live_of_observer ho
  · refine hs.references.live_of_refs (Multiset.mem_coe.mpr (Multiset.mem_coe.mp hf)) ?_
    cases f with
    | create event m blocking => exact hp.elim
    | _ =>
        obtain rfl := hp
        simp [Frame.refs]

/-- A guard on a child keeps the child alive. -/
theorem live_of_outstanding (hr : Reachable s) {g : Guard} (hg : Outstanding s g)
    (hroot : s.mem.isRoot g.shard.node = false) : 0 < s.mem.strong g.shard.node := by
  have hs := sound_reach hr
  have hpin : g.pin = true := by rw [(guardOk_of_outstanding hs hg).2, hroot]; rfl
  rcases hg with hg | hg
  · exact hs.references.live_of_guard hg hpin
  · exact hs.references.live_of_refs (Multiset.mem_coe.mpr hg) (by simp [Frame.refs, hpin])

/-- A node is collected only when nothing keeps it, except that the guards of a root do
not keep the root. -/
theorem released_of_collected (hr : Reachable s) (hroot : s.mem.isRoot c = false)
    (hc : s.mem.Collected c) : Released s c := by
  have hs := sound_reach hr
  have hdead : ¬0 < s.mem.strong c := by rw [hc.2]; exact lt_irrefl 0
  constructor
  · by_contra hh
    exact hdead (hs.references.live_of_handle (Nat.pos_of_ne_zero hh))
  · intro hf
    exact hdead (hs.references.live_of_refs (Multiset.mem_coe.mpr hf) (by simp [Frame.refs]))
  · rintro o ho rfl
    exact hdead (live_of_inUse hr ho)
  · rintro g hg rfl
    exact hdead (live_of_outstanding hr hg hroot)
  · intro d hd
    by_contra hlive
    exact hdead (hs.live_lineage (Nat.pos_of_ne_zero hlive) c hd)

/-- The nodes above a node that is below a child are not roots, down to the child. -/
theorem not_isRoot_of_mem_lineage (hw : h.Wf) (hc : c ∈ h.lineage n) (hroot : h.isRoot c = false) :
    h.isRoot n = false := by
  refine hw.lineage_down (motive := fun m => h.isRoot m = false) ?_ c hc hroot
  intro m q hp _
  simp [Heap.isRoot, hp]

/-- A child with an outstanding guard in its subset is not collected. -/
theorem live_of_guarded (hr : Reachable s) {g : Guard} (hg : Outstanding s g)
    (hc : c ∈ s.mem.lineage g.shard.node) (hroot : s.mem.isRoot c = false) :
    0 < s.mem.strong c := by
  have hs := sound_reach hr
  have hhome := not_isRoot_of_mem_lineage hs.valid.wf hc hroot
  exact hs.live_lineage (live_of_outstanding hr hg hhome) c hc

/-- A child with an outstanding guard in its subset that was not stopped has no latched
shard. -/
theorem not_latched_of_guarded (hr : Reachable s) {g : Guard} (hg : Outstanding s g)
    (hc : sh.node ∈ s.mem.lineage g.shard.node) (hroot : s.mem.isRoot sh.node = false)
    (hst : (s.mem.state sh.node).stopped = false) : (s.mem.shard sh).stopped = false := by
  by_contra hlatched
  rcases stopped_or_collected hr (by simpa using hlatched) with hst' | ⟨-, hdead⟩
  · rw [hst] at hst'
    cases hst'
  · have := live_of_guarded hr hg hc hroot
    omega

/-- The interrupts on the shard delegate: a poll goes on to the wrapped value and can wait
for it, and every call drives the wrapped value.  A call during which neither the guard is
dropped nor the node is stopped also returns what the wrapped value answers. -/
structure GoesOn (s : State) (g : Guard) (sh : ShardId) : Prop where
  poll : ∀ (i : Interrupt) (w : Waker), i.shard = sh → Delegates s.mem i w
  drives : ∀ {τ ι : Type} {ω : Outputs} (W : Wrapped τ ι ω) (i : InterruptOf τ) (c : Call ι),
    i.stopListener.shard = sh → c.Begins s → c.Drives W i
  passes : ∀ {τ ι : Type} {ω : Outputs} (W : Wrapped τ ι ω) (i : InterruptOf τ) (c : Call ι),
    i.stopListener.shard = sh → c.Begins s → Outstanding c.recheck g →
      (c.recheck.mem.state sh.node).stopped = false → c.Passes W i

/-- A guard below a child that was not stopped keeps the child's interrupts delegating. -/
theorem goesOn_of_guarded (hr : Reachable s) {g : Guard} (hg : Outstanding s g)
    (hc : sh.node ∈ s.mem.lineage g.shard.node) (hroot : s.mem.isRoot sh.node = false)
    (hst : (s.mem.state sh.node).stopped = false) : GoesOn s g sh := by
  have hnot := not_latched_of_guarded hr hg hc hroot hst
  constructor
  · rintro i w rfl
    exact delegates_of_not_latched hnot
  · rintro τ ι ω W i c rfl ⟨rfl, -⟩
    exact drives_of_not_late (by simpa [Call.Late] using hnot)
  · rintro τ ι ω W i c rfl hbegins hg' hst'
    -- the tree above the guard is the same at the second check
    have hr' := hr.leads hbegins.2
    have hext := extends_leads hbegins.2
    have hw := (sound_reach hr).valid.wf
    have hn := (guardOk_of_outstanding (sound_reach hr) hg).1.1
    have hc' : i.stopListener.shard.node ∈ c.recheck.mem.lineage g.shard.node := by
      rw [lineage_congr hw (sound_reach hr').valid.wf hext hn]
      exact hc
    have hroot' : c.recheck.mem.isRoot i.stopListener.shard.node = false := by
      rw [hext.isRoot (hw.lt_of_live (live_of_guarded hr hg hc hroot))]
      exact hroot
    refine passes_of_not_overtaken hbegins ?_
    simpa [Call.Overtaken] using not_latched_of_guarded hr' hg' hc' hroot' hst'

/-- **No spurious interruption.**  In every reachable state a shard is latched only if its
node was stopped or collected, and a child is collected only when nothing keeps it.  So a
poll, at whichever of its checks, takes its stop branch only if the node was stopped or
collected; a call of any method of an interrupt leaves the wrapped value alone only if the
node was stopped or collected when the call began, and returns anything but the wrapped
value's answer only if it was by the call's second check.  And a guard anywhere below a
child that was not stopped keeps the child's interrupts delegating. -/
theorem no_spurious_interruption (hr : Reachable s) :
    (∀ sh, (s.mem.shard sh).stopped = true → s.mem.Gone sh.node) ∧
    (∀ c, s.mem.isRoot c = false → s.mem.Collected c → Released s c) ∧
    (∀ (i : Interrupt) w, i.StopsIn s.mem w → s.mem.Gone i.shard.node) ∧
    (∀ {τ ι : Type} {ω : Outputs} (W : Wrapped τ ι ω) (i : InterruptOf τ) (c : Call ι),
      c.Begins s → (¬c.Drives W i → s.mem.Gone i.stopListener.shard.node) ∧
        (¬c.Passes W i → c.recheck.mem.Gone i.stopListener.shard.node)) ∧
    (∀ g sh, Outstanding s g → sh.node ∈ s.mem.lineage g.shard.node →
      s.mem.isRoot sh.node = false → (s.mem.state sh.node).stopped = false → GoesOn s g sh) := by
  refine ⟨fun sh => stopped_or_collected hr, fun c => released_of_collected hr, ?_, ?_,
    fun g sh => goesOn_of_guarded hr⟩
  · intro i w hi
    exact stopped_or_collected hr (latched_of_stopsIn hi)
  · intro τ ι ω W i c hbegins
    constructor
    · intro hdrives
      obtain ⟨rfl, -⟩ := hbegins
      by_contra hgone
      exact hdrives (drives_of_not_late fun hlate => hgone (stopped_or_collected hr hlate))
    · intro hpasses
      by_contra hgone
      refine hpasses (passes_of_not_overtaken hbegins fun hover => hgone ?_)
      exact stopped_or_collected (hr.leads hbegins.2) hover

/-- The handles of a child are dropped while a guard on it is outstanding; an interrupt on
it goes on. -/
def guardedInterrupt : List Act :=
  List.flatten [guardedChild, [.start 1 (.interrupt 1), .start 1 (.drop 1)],
    List.replicate 2 (.run 4 false)]

theorem no_spurious_interruption_guardedInterrupt : ∃ s, Reachable s ∧ s.mem.handles 1 = 0 ∧
    ⟨⟨1, 0⟩, none, none⟩ ∈ s.mem.interrupts ∧ Delegates s.mem ⟨⟨1, 0⟩, none, none⟩ ⟨7, 7⟩ ∧
    Call.Passes countdown ⟨⟨⟨1, 0⟩, none, none⟩, 3⟩ ⟨.pollNext ⟨7, 7⟩, (), s, s⟩ := by
  obtain ⟨s, hr, hs⟩ := Machine.exists_reachable (M := machine) guardedInterrupt
    (p := fun s => s.mem.handles 1 = 0 ∧ ⟨⟨1, 0⟩, none, none⟩ ∈ s.mem.interrupts ∧
      (⟨0, ⟨1, 0⟩, true, ⟨"src/tasks.rs", 120, 9⟩, none⟩ : Guard) ∈ s.mem.guards ∧
      s.mem.isRoot 1 = false ∧ (s.mem.state 1).stopped = false ∧ 1 ∈ s.mem.lineage 1) (by decide)
  obtain ⟨hh, hi, hg, hroot, hst, hself⟩ := of_decide_eq_true hs
  have hgoes := (no_spurious_interruption hr).2.2.2.2 _ ⟨1, 0⟩ (.inl hg) hself hroot hst
  exact ⟨s, hr, hh, hi, hgoes.poll ⟨⟨1, 0⟩, none, none⟩ _ rfl,
    hgoes.passes countdown ⟨⟨⟨1, 0⟩, none, none⟩, 3⟩ _ rfl ⟨rfl, .refl⟩ (.inl hg) hst⟩

end Swansong
