import Swansong.Valid

/-!
# When completion is monotonic

A completion keeps no memory of having resolved: each poll reads its node's word
again.  A guard may still be created on a stopped node, or a descendant, and then
the node counts a shard once more, so a later poll of the completion is Pending.
The completion stays resolved as long as no step counts a shard on its node.

## Main results

* `pending_after_resolved` — a completion that resolved and is Pending again.
* `completion_monotonic` — what keeps a resolved completion resolved, in every run.
-/

namespace Swansong

open Interleave (Machine)

variable {index : ℕ} {choice : Bool} {h h' : Heap} {fr fr' K : Multiset Frame} {n : NodeId}
  {o : Observer}

/-- The node is stopped and counts no shard. -/
def Heap.Complete (h : Heap) (n : NodeId) : Prop :=
  (h.state n).stopped = true ∧ (h.state n).shards = 0

/-- A `ShutdownCompletion` some poll of which returned Ready. -/
def Observer.Resolved (o : Observer) : Prop := o.event = .zero ∧ o.resolved = true

/-- The frame polls, or blocks on, this observer. -/
def WaitFrame.polls (o : Observer) : WaitFrame → Prop
  | .create _ _ _ => False
  | .stopped o' _ | .zero o' _ | .listen o' _ | .stoppedAgain o' _ _ | .zeroAgain o' _ _
  | .park o' _ _ => o' = o

/-- The observer is in a client's hands, or a call on it is in flight. -/
def InUse (h : Heap) (fr : Multiset Frame) (o : Observer) : Prop :=
  o ∈ h.observers ∨ ∃ f : WaitFrame, .wait f ∈ fr ∧ f.polls o

/-- The step of the frame counts one more shard on the node. -/
def Frame.counts (h : Heap) (choice : Bool) (n : NodeId) : Frame → Prop
  | .arrive (.node m) => m = n ∧ h.parent n = none
  | .arrive (.nodeAdd m _ state) => m = n ∧ h.state n = state ∧ choice = false
  | .arrive (.nodeCas m _ state) => m = n ∧ h.state n = state
  | _ => False

/-! ## What ends completeness -/

theorem Heap.Complete.setState {m : NodeId} {w : NodeWord} (hc : h.Complete n)
    (hw : m = n → w.stopped = true ∧ w.shards = 0) : (h.setState m w).Complete n := by
  rcases eq_or_ne m n with rfl | hne
  · simpa [Heap.Complete] using hw rfl
  · simpa [Heap.Complete, hne.symm] using hc

/-- Only a step that counts a shard on a complete node makes it incomplete. -/
theorem complete_exec {f : Frame} (hc : h.Complete n) (hf : ¬f.counts h choice n) :
    (exec index choice h f).1.Complete n := by
  cases f with
  | arrive f =>
      cases f with
      | shard sh unit => exact hc
      | shardAdd sh unit state => simp only [exec, execArrive]; split <;> exact hc
      | shardCas sh unit state => simp only [exec, execArrive]; split <;> exact hc
      | node m =>
          simp only [exec, execArrive]
          split
          · rename_i hp
            exact hc.setState fun hm => absurd ⟨hm, hm ▸ hp⟩ hf
          · exact hc
      | nodeAdd m parent state =>
          simp only [exec, execArrive]
          split
          · rename_i hst
            exact hc.setState fun hm => absurd ⟨hm, hm ▸ hst.1, by simpa using hst.2⟩ hf
          · exact hc
      | nodeCas m up state =>
          simp only [exec, execArrive]
          split
          · rename_i hst
            exact hc.setState fun hm => absurd ⟨hm, hm ▸ hst⟩ hf
          · exact hc
  | depart f =>
      cases f with
      | shard sh unit => exact hc
      | flush sh => simp only [exec, execDepart]; split <;> exact hc
      | node m => exact hc.setState fun hm => by subst hm; simp [hc.1, hc.2]
      | nodeCas m parent state =>
          simp only [exec, execDepart]
          split
          · rename_i hst
            exact hc.setState fun hm => by subst hm; simp [← hst, hc.1]
          · exact hc
  | stop f =>
      cases f with
      | node m => exact hc.setState fun hm => by subst hm; simp [hc.2]
      | liveChildren m i acc => simp only [exec, execStop]; split <;> exact hc
      | _ => exact hc
  | _ =>
      rw [Heap.Complete, state_exec rfl]
      exact hc

/-! ## Resolved completions -/

/-- A resolved completion's node is complete; the completion is not waiting, and a call
on it has only its first checks to make. -/
structure Settled (h : Heap) (fr : Multiset Frame) : Prop where
  held : ∀ o ∈ h.observers, o.Resolved → h.Complete o.node ∧ o.pending = false
  polled : ∀ f : WaitFrame, .wait f ∈ fr → ∀ o, f.polls o → o.Resolved →
    h.Complete o.node ∧ ∃ blocking, f = .stopped o blocking ∨ f = .zero o blocking

theorem Settled.complete (hs : Settled h fr) (ho : o.Resolved) (hu : InUse h fr o) :
    h.Complete o.node := by
  rcases hu with hmem | ⟨f, hf, hp⟩
  · exact (hs.held o hmem ho).1
  · exact (hs.polled f hf o hp ho).1

/-- A step that starts no wait and gives back no observer. -/
theorem Settled.frame (hs : Settled h fr) (hobs : h'.observers ⊆ h.observers)
    (hfr : ∀ f : WaitFrame, .wait f ∈ fr' → .wait f ∈ fr)
    (hc : ∀ o, o.Resolved → InUse h fr o → h'.Complete o.node) : Settled h' fr' where
  held o ho hr := ⟨hc o hr (.inl (hobs ho)), (hs.held o (hobs ho) hr).2⟩
  polled f hf o hp hr := ⟨hc o hr (.inr ⟨f, hfr f hf, hp⟩), (hs.polled f (hfr f hf) o hp hr).2⟩

/-- A step that gives an observer back. -/
theorem Settled.back (hs : Settled h fr) (hobs : h'.observers = o :: h.observers)
    (hst : h'.state = h.state) (hfr : ∀ f : WaitFrame, .wait f ∈ fr' → .wait f ∈ fr)
    (ho : o.Resolved → h.Complete o.node ∧ o.pending = false) : Settled h' fr' where
  held o' ho' hr := by
    simp only [Heap.Complete, hst]
    rcases List.mem_cons.mp (hobs ▸ ho') with rfl | ho'
    · exact ho hr
    · exact hs.held o' ho' hr
  polled f hf := by
    simp only [Heap.Complete, hst]
    exact hs.polled f (hfr f hf)

/-- A step of a call that goes on. -/
theorem Settled.wait {g : WaitFrame} (hs : Settled h fr) (hobs : h'.observers = h.observers)
    (hst : h'.state = h.state) (hfr : ∀ f : WaitFrame, .wait f ∈ fr' → .wait f ∈ fr)
    (hg : ∀ o, g.polls o → o.Resolved →
      h.Complete o.node ∧ ∃ blocking, g = .stopped o blocking ∨ g = .zero o blocking) :
    Settled h' (.wait g ::ₘ fr') where
  held o ho := by
    simp only [Heap.Complete, hst]
    exact hs.held o (hobs ▸ ho)
  polled f hf := by
    simp only [Heap.Complete, hst]
    rcases Multiset.mem_cons.mp hf with hf | hf
    · obtain rfl := Frame.wait.inj hf
      exact hg
    · exact hs.polled f (hfr f hf)

/-- The steps of a wait. -/
theorem settled_execWait {f : WaitFrame} (hs : Settled h (.wait f ::ₘ K))
    (hf : (Frame.wait f).Valid h) : Settled (execWait h f).1 (↑(execWait h f).2 + K) := by
  have hK : ∀ g : WaitFrame, .wait g ∈ K → .wait g ∈ Frame.wait f ::ₘ K :=
    fun g hg => Multiset.mem_cons_of_mem hg
  have hdrop : ∀ o, ∀ g : WaitFrame, .wait g ∈ (↑[Frame.life (.dropArc o)] + K : Multiset Frame) →
      .wait g ∈ Frame.wait f ::ₘ K := fun o g hg => hK g (by simpa using hg)
  have hready : ∀ o blocking, (o.event = .zero → h.Complete o.node) →
      Settled (waitReady h o blocking).1 (↑(waitReady h o blocking).2 + K) := by
    intro o blocking ho
    unfold waitReady
    split
    · exact hs.frame (List.Subset.refl _) (hdrop _) fun _ => hs.complete
    · exact hs.back rfl rfl (by simpa using hK) fun hr => ⟨ho hr.1, rfl⟩
  -- a call that goes on to wait is not on a resolved completion
  have hgo : ∀ {h' g}, h'.observers = h.observers → h'.state = h.state →
      (∀ o, g.polls o → ¬o.Resolved) → Settled h' (↑[Frame.wait g] + K) :=
    fun hobs hst hg => hs.wait hobs hst hK fun o hp hr => absurd hr (hg o hp)
  have hnext : ∀ o blocking, ¬o.Resolved → Settled h (↑(waitNext o blocking) + K) := by
    intro o blocking ho
    unfold waitNext
    split
    · exact hgo rfl rfl fun o' hp => hp ▸ ho
    · exact hgo rfl rfl fun o' hp => hp ▸ ho
  have hself := hs.polled f (Multiset.mem_cons_self _ K)
  cases f with
  | create event n blocking =>
      simp only [execWait]
      split
      · exact hgo rfl rfl fun o hp hr => by obtain rfl := hp; cases hr.2
      · exact hs.back rfl rfl (by simpa using hK) fun hr => by cases hr.2
  | stopped o blocking =>
      simp only [execWait]
      split
      · split
        · refine hs.wait rfl rfl hK fun o' hp hr => ?_
          obtain rfl := hp
          exact ⟨(hself o rfl hr).1, blocking, .inr rfl⟩
        · rename_i hev
          exact hready o blocking fun h0 => by rw [hev] at h0; cases h0
      · rename_i hst
        exact hnext o blocking fun hr => hst (hself o rfl hr).1.1
  | zero o blocking =>
      simp only [execWait]
      split
      · rename_i h0
        exact hready o blocking fun _ => ⟨hf.2.2, h0⟩
      · rename_i h0
        exact hnext o blocking fun hr => h0 (hself o rfl hr).1.2
  | listen o blocking =>
      have ho : ¬o.Resolved := fun hr => by simpa using (hself o rfl hr).2
      exact hgo rfl rfl fun o' hp => hp ▸ ho
  | stoppedAgain o l blocking =>
      have ho : ¬o.Resolved := fun hr => by simpa using (hself o rfl hr).2
      simp only [execWait]
      split
      · split
        · exact hgo rfl rfl fun o' hp => hp ▸ ho
        · rename_i hev
          exact hready _ blocking fun h0 => by rw [hev] at h0; cases h0
      · exact hgo rfl rfl fun o' hp => hp ▸ ho
  | zeroAgain o l blocking =>
      have ho : ¬o.Resolved := fun hr => by simpa using (hself o rfl hr).2
      simp only [execWait]
      split
      · rename_i h0
        exact hready _ blocking fun _ => ⟨hf.2.2.2, h0⟩
      · exact hgo rfl rfl fun o' hp => hp ▸ ho
  | park o l blocking =>
      have ho : ¬o.Resolved := fun hr => by simpa using (hself o rfl hr).2
      simp only [execWait]
      split
      · exact hgo rfl rfl fun o' hp hr => ho (by obtain rfl := hp; exact hr)
      · split
        · exact hgo rfl rfl fun o' hp => hp ▸ ho
        · exact hs.back rfl rfl (by simpa using hK) fun hr => absurd hr ho

variable (index choice h) in
/-- Other steps start no wait and give back no observer. -/
theorem observers_exec {f : Frame} (hf : ∀ f', f ≠ .wait f') :
    (exec index choice h f).1.observers = h.observers ∧
      ∀ g : WaitFrame, .wait g ∉ (exec index choice h f).2 := by
  cases f with
  | arrive f =>
      obtain ⟨_, _, he⟩ := execArrive_heap index choice h f
      refine ⟨by rw [exec, he], fun g hg => ?_⟩
      rcases mem_execArrive hg with ⟨_, hg⟩ | ⟨_, hg⟩ | ⟨_, hg⟩ <;> cases hg
  | depart f =>
      obtain ⟨_, _, he⟩ := execDepart_heap h f
      refine ⟨by rw [exec, he], fun g hg => ?_⟩
      rcases mem_execDepart hg with ⟨_, hg⟩ | ⟨_, hg⟩ <;> cases hg
  | stop f =>
      obtain ⟨_, _, _, _, _, _, he⟩ := execStop_heap h f
      refine ⟨by rw [exec, he], fun g hg => ?_⟩
      rcases mem_execStop hg with ⟨_, hg⟩ | ⟨_, _, hg⟩ | ⟨_, hg⟩ | ⟨_, hg⟩ <;> cases hg
  | notify event n => exact ⟨rfl, by simp [exec, execNotify]⟩
  | life f =>
      obtain ⟨_, _, _, _, _, _, he⟩ := execLife_heap h f
      refine ⟨by rw [exec, he], fun g hg => ?_⟩
      rcases mem_execLife hg with ⟨_, hg⟩ | ⟨_, -, hg⟩ | ⟨_, hg⟩ | ⟨_, -, hg⟩ | ⟨_, -, hg⟩ <;> cases hg
  | child f =>
      obtain ⟨_, _, _, _, _, _, _, _, _, he⟩ := execChild_heap index h f
      refine ⟨by rw [exec, he], fun g hg => ?_⟩
      rcases mem_execChild hg with ⟨_, hg⟩ | ⟨_, hg⟩ <;> cases hg
  | guard f =>
      obtain ⟨_, _, _, _, _, _, _, _, he⟩ :=
        execGuard_heap index choice h f
      refine ⟨by rw [exec, he], fun g hg => ?_⟩
      rcases mem_execGuard hg with ⟨_, hg, -⟩ | ⟨_, hg⟩ | ⟨_, hg⟩ | ⟨_, hg⟩ <;> cases hg
  | wait f => exact absurd rfl (hf f)
  | poll f =>
      obtain ⟨_, _, he⟩ := execPoll_heap choice h f
      refine ⟨by rw [exec, he], fun g hg => ?_⟩
      obtain ⟨_, hg⟩ := mem_execPoll hg
      cases hg
  | walk report todo total out =>
      obtain ⟨_, _, _, he⟩ := execWalk_heap h report total out todo
      refine ⟨by rw [exec, he], fun g hg => ?_⟩
      rcases mem_execWalk hg with ⟨_, _, _, hg⟩ | ⟨_, hg⟩ | ⟨_, -, hg⟩ <;> cases hg

theorem settled_exec {f : Frame} (hs : Settled h (f ::ₘ K)) (hf : f.Valid h)
    (hkeep : ∀ n, f.counts h choice n → ∀ o, o.Resolved → InUse h (f ::ₘ K) o → o.node ≠ n) :
    Settled (exec index choice h f).1 (↑(exec index choice h f).2 + K) := by
  by_cases hwait : ∃ f', f = .wait f'
  · obtain ⟨f, rfl⟩ := hwait
    exact settled_execWait hs hf
  · rw [not_exists] at hwait
    obtain ⟨hobs, hpush⟩ := observers_exec index choice h hwait
    refine hs.frame (hobs ▸ List.Subset.refl _) (fun g hg => ?_) fun o hr hu => ?_
    · rcases Multiset.mem_add.mp hg with hg | hg
      · exact absurd hg (hpush g)
      · exact Multiset.mem_cons_of_mem hg
    · exact complete_exec (hs.complete hr hu) fun hc => hkeep _ hc o hr hu rfl

/-- Starting an operation creates an observer, or takes one out of the client's hands. -/
theorem observers_start {fr fs : List Frame} {op : Op} (hs : start index h fr op = some (h', fs)) :
    h'.observers ⊆ h.observers ∧ ∀ f : WaitFrame, .wait f ∈ fs →
      (∃ event n blocking, f = .create event n blocking) ∨
        ∃ o ∈ h.observers, ∃ blocking, f = .stopped o blocking := by
  unfold start at hs
  split at hs <;> simp only [Option.ite_none_right_eq_some, Option.some.injEq, Prod.mk.injEq] at hs <;>
    obtain ⟨hop, rfl, rfl⟩ := hs
  case h_18 o => exact ⟨List.erase_subset, by simpa using hop⟩
  case h_19 o => exact ⟨List.erase_subset, by simpa using hop⟩
  case h_20 o => exact ⟨List.erase_subset, by simp⟩
  all_goals exact ⟨List.Subset.refl _, by simp⟩

theorem settled_start {fr fs : List Frame} {op : Op} (hs : Settled h fr)
    (hop : start index h fr op = some (h', fs)) : Settled h' (↑fs + ↑fr) := by
  obtain ⟨hobs, hwait⟩ := observers_start hop
  have hst : h'.state = h.state := by
    obtain ⟨_, _, _, _, _, _, _, _, _, _, rfl⟩ := start_heap hop
    rfl
  refine ⟨fun o ho => ?_, fun f hf o hp => ?_⟩
  · simp only [Heap.Complete, hst]
    exact hs.held o (hobs ho)
  · simp only [Heap.Complete, hst]
    rcases Multiset.mem_add.mp hf with hf | hf
    · rcases hwait f hf with ⟨_, _, _, rfl⟩ | ⟨o', ho', b, rfl⟩
      · exact hp.elim
      · obtain rfl := hp
        exact fun hr => ⟨(hs.held o' ho' hr).1, b, .inl rfl⟩
    · exact hs.polled f hf o hp

/-- The step does not count a shard on the node of a resolved completion. -/
def KeepsCompleted (s : State) (a : Act) : Prop :=
  ∀ i choice index f k n, a = .run i choice → s.pool[i]? = some ⟨index, f :: k⟩ →
    f.counts s.mem choice n → ∀ o, o.Resolved → InUse s.mem s.frames o → o.node ≠ n

theorem settled_reach {s : State} (hr : machine.Reach KeepsCompleted s) :
    Settled s.mem s.frames := by
  induction hr with
  | init => exact ⟨by simp [machine, Heap.empty], by simp [Interleave.Config.frames]⟩
  | step hr hkeep hs ih =>
      rcases discipline.step_cases hr.reachable hs with
        ⟨i, b, index, f, k, K, rfl, hi, -, hfr, hmem, hfr'⟩ | ⟨index, op, fs, -, hstart, hfr'⟩
      · rw [hfr', hmem]
        rw [hfr] at ih
        have hf := (valid_reach hr).frames f (hfr ▸ Multiset.mem_cons_self f K)
        refine settled_exec ih hf fun n hc o hres hu => ?_
        exact hkeep i b index f k n rfl hi hc o hres (hfr ▸ hu)
      · rw [hfr']
        exact settled_start ih hstart

/-- **Completion is monotonic, where it is.**  In a run in which no step counts a shard
on the node of a resolved completion, every poll of a resolved completion returns Ready:
it makes the first check of the loop, and that succeeds. -/
theorem completion_monotonic {s : State} (hr : machine.Reach KeepsCompleted s) {o : Observer}
    (ho : o.Resolved) :
    (o ∈ s.mem.observers → o.pending = false) ∧
    ∀ f : WaitFrame, .wait f ∈ s.frames → f.polls o →
      (∃ b, f = .stopped o b ∧ execWait s.mem f = (s.mem, [.wait (.zero o b)])) ∨
      (∃ b, f = .zero o b ∧ execWait s.mem f = waitReady s.mem o b) := by
  have hs := settled_reach hr
  refine ⟨fun hmem => (hs.held o hmem ho).2, fun f hf hp => ?_⟩
  obtain ⟨hc, b, rfl | rfl⟩ := hs.polled f hf o hp ho
  · exact .inl ⟨b, rfl, by simp [execWait, hc.1, ho.1]⟩
  · exact .inr ⟨b, rfl, by simp [execWait, hc.2]⟩

/-- A child is shut down and a poll of its completion returns Ready.  Then guards are
created on its parent and on a sibling, and the completion is polled again. -/
def resolvedBesideGuards : List Act :=
  List.flatten [[.start 0 (.newRoot 2 false), .start 0 (.child 0)], List.replicate 7 (.run 1 false),
    [.start 0 (.child 0)], List.replicate 7 (.run 2 false),
    [.start 0 (.shutDown 1)], List.replicate 10 (.run 3 false),
    [.start 0 (.poll ⟨.zero, 1, none, false, false⟩)], List.replicate 2 (.run 4 false),
    [.start 1 (.guard 0 ⟨"src/main.rs", 12, 5⟩)], List.replicate 6 (.run 5 false),
    [.start 1 (.guard 2 ⟨"src/main.rs", 13, 5⟩)], List.replicate 9 (.run 6 false),
    [.start 0 (.poll ⟨.zero, 1, none, false, true⟩), .run 7 false]]

/-- The call is on an observer of the node, if it is on an observer. -/
def Frame.observes (n : NodeId) : Frame → Bool
  | .wait (.stopped o _) | .wait (.zero o _) | .wait (.listen o _) | .wait (.stoppedAgain o _ _)
  | .wait (.zeroAgain o _ _) | .wait (.park o _ _) => o.node = n
  | _ => true

/-- Whether all observers are of the node and the step is no arrival at it. -/
def arrivesElsewhere (n : NodeId) (s : State) : Act → Bool
  | .run i _ =>
    s.mem.observers.all (fun o => o.node = n) && s.frames.all (Frame.observes n) &&
    match s.pool[i]? with
    | some ⟨_, .arrive (.node m) :: _⟩ | some ⟨_, .arrive (.nodeAdd m _ _) :: _⟩
    | some ⟨_, .arrive (.nodeCas m _ _) :: _⟩ => m ≠ n
    | _ => true
  | .start _ _ => true

theorem keepsCompleted_of_arrivesElsewhere {s : State} {a : Act}
    (h : arrivesElsewhere n s a = true) : KeepsCompleted s a := by
  rintro i choice index f k m rfl hi hc o - hu
  simp only [arrivesElsewhere, hi, Bool.and_eq_true, List.all_eq_true] at h
  obtain ⟨⟨hheld, hframes⟩, htop⟩ := h
  have hon : o.node = n := by
    rcases hu with ho | ⟨f, hf, hp⟩
    · simpa using hheld o ho
    · have hf := hframes _ hf
      cases f with
      | create event n blocking => exact hp.elim
      | _ =>
          obtain rfl := hp
          simpa [Frame.observes] using hf
  have hne : m ≠ n := by
    cases f with
    | arrive f =>
        cases f with
        | node m' => simpa [hc.1] using htop
        | nodeAdd m' parent state => simpa [hc.1] using htop
        | nodeCas m' up state => simpa [hc.1] using htop
        | _ => exact hc.elim
    | _ => exact hc.elim
  rw [hon]
  exact hne.symm

theorem completion_monotonic_resolved : ∃ s : State, machine.Reach KeepsCompleted s ∧
    (s.mem.guards.map fun g => g.shard.node) = [2, 0] ∧
    ∃ o : Observer, o.Resolved ∧ o.node = 1 ∧ .wait (.zero o false) ∈ s.frames ∧
      execWait s.mem (.zero o false) = waitReady s.mem o false := by
  obtain ⟨s, hr, hs⟩ := Machine.exists_reach (M := machine)
    (fun s a => keepsCompleted_of_arrivesElsewhere (n := 1) (s := s) (a := a)) resolvedBesideGuards
    (p := fun s => (s.mem.guards.map fun g => g.shard.node) = [2, 0] ∧
      .wait (.zero ⟨.zero, 1, none, false, true⟩ false) ∈ s.frames) (by decide)
  obtain ⟨hg, hf⟩ := of_decide_eq_true hs
  have ho : (⟨.zero, 1, none, false, true⟩ : Observer).Resolved := ⟨rfl, rfl⟩
  refine ⟨s, hr, hg, _, ho, rfl, hf, ?_⟩
  rcases (completion_monotonic hr ho).2 _ hf rfl with ⟨b, hstopped, -⟩ | ⟨b, hzero, hready⟩
  · cases hstopped
  · cases hzero
    exact hready

/-! ## A resolved completion that is Pending again -/

/-- A root is shut down and a poll of its completion returns Ready. -/
def resolved : List Act :=
  List.flatten [[.start 0 (.newRoot 2 false), .start 0 (.shutDown 0)],
    List.replicate 13 (.run 1 false),
    [.start 0 (.poll ⟨.zero, 0, none, false, false⟩), .run 2 false, .run 2 false]]

/-- Then a guard is created on the root, and the completion is polled again. -/
def resolvedThenGuarded : List Act :=
  List.flatten [resolved, [.start 0 (.guard 0 ⟨"src/main.rs", 1, 1⟩)],
    List.replicate 6 (.run 3 false), [.start 0 (.poll ⟨.zero, 0, none, false, true⟩)],
    List.replicate 6 (.run 4 false)]

/-- Not every poll of a completion that returned Ready once returns Ready again. -/
theorem pending_after_resolved :
    ¬∀ s, Reachable s → ∀ o ∈ s.mem.observers, o.Resolved → o.pending = false := by
  intro hmono
  obtain ⟨s, hr, hs⟩ := Machine.exists_reachable (M := machine) resolvedThenGuarded
    (p := fun s => (⟨.zero, 0, some 0, true, true⟩ : Observer) ∈ s.mem.observers) (by decide)
  cases hmono s hr ⟨.zero, 0, some 0, true, true⟩ (of_decide_eq_true hs) ⟨rfl, rfl⟩

end Swansong
