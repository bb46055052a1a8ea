import Swansong.Quiescence
import Swansong.Writes

/-!
# Departures of a child

The departure that takes a live child's last shard finds the child stopped, so a
stop cannot come between it and the compare-and-swap that takes the child's arrival
back: only an arrival at the child, or another departure, makes that fail.  Over any
run, a child sends its parent's shard one departure for each of its arrivals there.

## Main definitions

* `CountsOn`, `Unarrives` — the steps that make a departure's compare-and-swap fail.
* `arrivals`, `departures` — the steps that record a child's arrival at a shard, and the
  departures the child sends there.
* `kidsAdded`, `kidsTaken` — the steps that count a child on a shard, and that uncount one.
* `child_departures` — the result.
-/

namespace Swansong

open Interleave (Machine total)
open Count (bit_of)

variable {index : ℕ} {choice : Bool} {h : Heap} {K : Multiset Frame} {s : State} {n c p : NodeId}
  {sh : ShardId}

/-! ## The word between a departure and its compare-and-swap -/

/-- The step counts one more shard on the node: a compare-and-swap of `Inner::arrive`. -/
def CountsOn (c : NodeId) (s : State) (a : Act) : Prop :=
  (∃ p i, a = .run i false ∧ s.top a = some (.arrive (.nodeAdd c p (s.mem.state c)))) ∨
    ∃ up, s.top a = some (.arrive (.nodeCas c up (s.mem.state c)))

/-- The step takes the node's arrival back. -/
def Unarrives (c : NodeId) (s : State) (a : Act) : Prop :=
  ∃ p, s.top a = some (.depart (.nodeCas c p (s.mem.state c)))

/-- The departure of a live child's last shard finds the child stopped. -/
theorem stopped_of_last_depart {s' : State} {a : Act} (hr : Reachable s)
    (hs : machine.step s a = some s') (hf : s.top a = some (.depart (.node c)))
    (hlive : s.mem.Live c) (h0 : (s.mem.state c).sub.shards = 0) :
    (s.mem.state c).stopped = true := by
  obtain ⟨i, b, index, K, -, he, hfr, -, -⟩ := discipline.step_of_top hr hs hf
  have hsound := sound_reach hr
  have hfl : Flushing s.mem s.frames := flushing_reach hr
  rw [hfr] at hsound hfl
  rcases ended_of_last_depart hsound he hfl h0 with hst | hdead
  · exact hst
  · exact absurd hlive (by simp [Heap.Live, hdead])

/-- A stopped child without shards keeps its word until a shard arrives at it or its
arrival is taken back. -/
theorem word_kept {s' : State} {a : Act} (hr : Reachable s) (hs : machine.step s a = some s')
    {q : Parent} (hq : s.mem.parent c = some q) (h0 : (s.mem.state c).shards = 0)
    (hst : (s.mem.state c).stopped = true) (hcount : ¬CountsOn c s a) (hun : ¬Unarrives c s a) :
    s'.mem.state c = s.mem.state c := by
  rcases discipline.step_cases hr hs with
    ⟨i, b, index, f, k, K, rfl, hi, he, hfr, hmem, -⟩ | ⟨index, op, fs, -, hstart, -⟩
  · have htop : s.top (.run i b : Act) = some f := Interleave.Config.top_run hi
    rw [hmem]
    rcases nodeWrite_of_exec index b s.mem c f with hsame | hw
    · exact hsame
    · generalize hnew : (exec index b s.mem f).1.state c = w at hw
      have hdone : w = s.mem.state c → (machine.exec index b s.mem f).1.state c = s.mem.state c :=
        fun he => hnew.trans he
      cases hw with
      | count hroot =>
          rw [hq] at hroot
          cases hroot
      | @add parent =>
          cases b with
          | false => exact absurd (.inl ⟨parent, i, rfl, htop⟩) hcount
          | true =>
              -- the weak compare-and-swap failed spuriously
              simp [exec, execArrive] at hnew
              exact hdone hnew.symm
      | @arrive up => exact absurd (.inr ⟨up, htop⟩) hcount
      | sub =>
          -- another shard would be left to depart
          have hl := (sound_reach hr).ledger
          rw [hfr] at hl
          have hpos : 0 < s.mem.ahead (.shards c) := ahead_pos he hl (bit_of rfl)
          simp only [Heap.ahead, h0] at hpos
          omega
      | @depart parent => exact absurd ⟨parent, htop⟩ hun
      | stop => exact hdone (NodeWord.stop_of_stopped hst)
  · obtain ⟨_, _, _, _, _, _, _, _, _, _, he⟩ := start_heap hstart
    rw [he]

/-- So the compare-and-swap succeeds, and sends one departure to the recorded shard. -/
theorem nodeCas_of_leads {s' : State} (hr : Reachable s) {q : Parent}
    (hq : s.mem.parent c = some q) (h0 : (s.mem.state c).shards = 0)
    (hst : (s.mem.state c).stopped = true)
    (hl : machine.Leads (fun s a => ¬CountsOn c s a ∧ ¬Unarrives c s a) s s') :
    s'.mem.state c = s.mem.state c := by
  induction hl with
  | refl => rfl
  | step hl hp hs ih =>
      have hparent := (extends_leads hl).parent c ((sound_reach hr).valid.wf.parent hq).1
      have hr' := hr.leads (hl.mono fun _ _ _ => trivial)
      rw [← ih]
      exact word_kept hr' hs (hparent.trans hq) (by rw [ih, h0]) (by rw [ih, hst]) hp.1 hp.2

/-! ## Arrivals and departures of a child -/

/-- Whether the frame's step records the arrival of `c` at the shard. -/
def Frame.arrives (h : Heap) (c : NodeId) (sh : ShardId) : Frame → ℕ
  | .arrive (.nodeCas m up state) => if m = c ∧ up = sh ∧ h.state m = state then 1 else 0
  | _ => 0

/-- The departures that the frame's step sends from `c` to the shard. -/
def Frame.departs (h : Heap) (c : NodeId) (sh : ShardId) : Frame → ℕ
  | .depart (.nodeCas m p state) =>
    if m = c then (execDepart h (.nodeCas m p state)).2.count (.depart (.shard sh .kidsOne)) else 0
  | _ => 0

/-- Recorded arrivals of `c` at the shard. -/
def arrivals (c : NodeId) (sh : ShardId) (s : State) (a : Act) : ℕ :=
  ((s.top a).map (Frame.arrives s.mem c sh)).getD 0

/-- Departures of `c` from the shard. -/
def departures (c : NodeId) (sh : ShardId) (s : State) (a : Act) : ℕ :=
  ((s.top a).map (Frame.departs s.mem c sh)).getD 0

/-- One if the child is arrived at the shard. -/
def Heap.arrivedAt (h : Heap) (c : NodeId) (sh : ShardId) : ℕ := if h.ArrivedAt c sh then 1 else 0

/-- A step that neither records an arrival of `c` nor takes it back. -/
theorem arrivedAt_exec {f : Frame} (hs : Sound h (f ::ₘ K))
    (ha : ∀ up state, f = .arrive (.nodeCas c up state) → h.state c ≠ state)
    (hd : ∀ p state, f = .depart (.nodeCas c p state) → h.state c ≠ state) :
    (exec index choice h f).1.ArrivedAt c sh ↔ h.ArrivedAt c sh := by
  have hsame : ((exec index choice h f).1.state c).arrived = (h.state c).arrived ∧
      ((exec index choice h f).1.state c).parentShard = (h.state c).parentShard := by
    rcases nodeWrite_of_exec index choice h c f with he | hw
    · rw [he]
      exact ⟨rfl, rfl⟩
    · generalize (exec index choice h f).1.state c = w at hw
      cases hw with
      | count hroot => exact ⟨rfl, rfl⟩
      | add => exact ⟨rfl, rfl⟩
      | arrive => exact absurd rfl (ha _ _ rfl)
      | sub => exact ⟨rfl, rfl⟩
      | depart => exact absurd rfl (hd _ _ rfl)
      | stop => exact ⟨rfl, rfl⟩
  rw [Heap.ArrivedAt, Heap.ArrivedAt, hsame.1, hsame.2]
  by_cases hc : c < h.size
  · rw [extends_exec.parent c hc]
  · have hzero := (hs.valid.wf.freshNode (not_lt.mp hc)).1
    simp [hzero]

/-- What a step adds to the arrivals of `c` at the shard is what it sends back in
departures, and the change of whether `c` is arrived there. -/
theorem arrives_exec {f : Frame} (hs : Sound h (f ::ₘ K)) :
    f.arrives h c sh + h.arrivedAt c sh =
      f.departs h c sh + (exec index choice h f).1.arrivedAt c sh := by
  have hv : f.Valid h := hs.valid.frames _ (Multiset.mem_cons_self _ K)
  have hother : (∀ up state, f = .arrive (.nodeCas c up state) → h.state c ≠ state) →
      (∀ p state, f = .depart (.nodeCas c p state) → h.state c ≠ state) →
      (exec index choice h f).1.arrivedAt c sh = h.arrivedAt c sh := by
    intro ha hd
    simp only [Heap.arrivedAt, arrivedAt_exec hs ha hd]
  cases f with
  | arrive f =>
      cases f with
      | nodeCas m up state =>
          by_cases hm : m = c ∧ h.state m = state
          · -- the arrival is recorded
            obtain ⟨rfl, rfl⟩ := hm
            obtain ⟨⟨hn, i, hp⟩, hup, hun⟩ := hv
            have hzero := (hs.valid.wf.unarrived hp hun).2
            have hold : ¬h.ArrivedAt m sh := fun hat => by
              rw [Heap.ArrivedAt, hun] at hat
              cases hat.1
            have hnew : (exec index choice h (.arrive (.nodeCas m up (h.state m)))).1.ArrivedAt m sh ↔
                sh = up := by
              have he : (exec index choice h (.arrive (.nodeCas m up (h.state m)))).1 =
                  h.setState m ((h.state m).arriveAt up.index) := by simp [exec, execArrive]
              rw [he]
              exact arrivedAt_iff hp (by simp) (by simp [NodeWord.arriveAt, hzero])
            simp only [Heap.arrivedAt, hold, hnew, Frame.arrives, Frame.departs, if_false, true_and,
              and_true, eq_comm (a := sh)]
            omega
          · have hne : m = c → h.state m ≠ state := fun he hst => hm ⟨he, hst⟩
            rw [hother]
            · have hno : ¬(m = c ∧ up = sh ∧ h.state m = state) := fun he => hm ⟨he.1, he.2.2⟩
              simp [Frame.arrives, Frame.departs, hno]
            · rintro up' state' he
              obtain ⟨rfl, rfl, rfl⟩ := by simpa using he
              exact hne rfl
            · simp
      | _ => rw [hother (by simp) (by simp)]; simp [Frame.arrives, Frame.departs]
  | depart f =>
      cases f with
      | nodeCas m p state =>
          by_cases hm : m = c ∧ h.state m = state
          · -- the arrival is taken back
            obtain ⟨rfl, rfl⟩ := hm
            obtain ⟨⟨hn, i, hp⟩, hzero, hps⟩ := hv
            have harr := hs.ledger.departing (Multiset.mem_cons_self _ K)
            have hold : h.ArrivedAt m sh ↔ sh = ⟨p, (h.state m).parentShard⟩ :=
              arrivedAt_iff hp harr rfl
            have hnew : ¬(exec index choice h (.depart (.nodeCas m p (h.state m)))).1.ArrivedAt m sh := by
              simp [exec, execDepart, Heap.ArrivedAt]
            have hsent : (Frame.depart (.nodeCas m p (h.state m))).departs h m sh =
                if sh = ⟨p, (h.state m).parentShard⟩ then 1 else 0 := by
              by_cases hsh : sh = ⟨p, (h.state m).parentShard⟩
              · subst hsh
                simp [Frame.departs, execDepart]
              · simp [Frame.departs, execDepart, hsh, Ne.symm hsh]
            simp only [Heap.arrivedAt, hold, hnew, Frame.arrives, hsent, if_false]
            omega
          · have hne : m = c → h.state m ≠ state := fun he hst => hm ⟨he, hst⟩
            rw [hother]
            · by_cases hmc : m = c
              · subst hmc
                simp [Frame.arrives, Frame.departs, execDepart, hne rfl]
              · simp [Frame.arrives, Frame.departs, hmc]
            · simp
            · rintro p' state' he
              obtain ⟨rfl, rfl, rfl⟩ := by simpa using he
              exact hne rfl
      | _ => rw [hother (by simp) (by simp)]; simp [Frame.arrives, Frame.departs]
  | _ => rw [hother (by simp) (by simp)]; simp [Frame.arrives, Frame.departs]

/-- Over any run, a child arrived at a shard as often as it departed from it, and once
more if it is arrived there. -/
theorem arrivals_eq {x : ℕ × ℕ}
    (ht : machine.Tally (fun s a => (arrivals c sh s a, departures c sh s a)) s x) :
    x.1 = x.2 + s.mem.arrivedAt c sh := by
  induction ht with
  | init => simp [Heap.arrivedAt, Heap.ArrivedAt, machine, Heap.empty]
  | @step s s' a x ht hs ih =>
      have hr := ht.reachable
      rcases discipline.step_cases hr hs with
        ⟨i, b, index, f, k, K, rfl, hi, he, hfr, hmem, -⟩ | ⟨index, op, fs, rfl, hstart, -⟩
      · have htop : s.top (.run i b : Act) = some f := Interleave.Config.top_run hi
        have hsound := sound_reach hr
        rw [hfr] at hsound
        have hstep : f.arrives s.mem c sh + s.mem.arrivedAt c sh =
            f.departs s.mem c sh + (exec index b s.mem f).1.arrivedAt c sh := arrives_exec hsound
        have hmem : s'.mem = (exec index b s.mem f).1 := hmem
        simp only [arrivals, departures, htop, Option.map_some, Option.getD_some, Prod.fst_add,
          Prod.snd_add, hmem]
        omega
      · have hsame : s'.mem.arrivedAt c sh = s.mem.arrivedAt c sh := by
          obtain ⟨_, _, _, _, _, _, _, _, _, _, he⟩ := start_heap hstart
          rw [he]
          rfl
        simpa [arrivals, departures, Interleave.Config.top, hsame] using ih

/-! ## What the parent's shard counts -/

/-- Whether the frame's step counts a child on the shard. -/
def Frame.addsKid (b : Bool) (h : Heap) (sh : ShardId) : Frame → ℕ
  | .arrive (.shardAdd s .kidsOne state) => if s = sh ∧ h.shard s = state ∧ !b then 1 else 0
  | .arrive (.shardCas s .kidsOne state) => if s = sh ∧ h.shard s = state then 1 else 0
  | _ => 0

/-- Whether the frame's step is a `KIDS_ONE` departure from the shard. -/
def Frame.takesKid (sh : ShardId) : Frame → ℕ
  | .depart (.shard s .kidsOne) => if s = sh then 1 else 0
  | _ => 0

/-- Children counted on the shard. -/
def kidsAdded (sh : ShardId) (s : State) : Act → ℕ
  | .run i b => ((s.top (.run i b : Act)).map (Frame.addsKid b s.mem sh)).getD 0
  | .start _ _ => 0

/-- `KIDS_ONE` departures from the shard. -/
def kidsTaken (sh : ShardId) (s : State) (a : Act) : ℕ :=
  ((s.top a).map (Frame.takesKid sh)).getD 0

theorem kids_setShard (s : ShardId) (w : ShardWord) :
    ((h.setShard s w).shard sh).kids = if s = sh then w.kids else (h.shard sh).kids := by
  by_cases hs : s = sh
  · simp [hs]
  · simp [hs, Ne.symm hs]

variable (index choice h sh) in
/-- Only arrivals of children and their departures change how many a shard counts. -/
theorem kids_exec_of_ne (f : Frame) (hadd : ∀ s state, f ≠ .arrive (.shardAdd s .kidsOne state))
    (hcas : ∀ s state, f ≠ .arrive (.shardCas s .kidsOne state))
    (hsub : ∀ s, f ≠ .depart (.shard s .kidsOne)) :
    ((exec index choice h f).1.shard sh).kids = (h.shard sh).kids := by
  rcases shardWrite_of_exec index choice h sh f with he | hw
  · rw [he]
  · generalize (exec index choice h f).1.shard sh = w at hw
    cases hw with
    | @add unit =>
        cases unit with
        | localOne => rfl
        | kidsOne => exact absurd rfl (hadd _ _)
    | @arrive unit =>
        cases unit with
        | localOne => rfl
        | kidsOne => exact absurd rfl (hcas _ _)
    | @sub unit =>
        cases unit with
        | localOne => rfl
        | kidsOne => exact absurd rfl (hsub _)
    | flush hempty => rw [hempty]; rfl
    | stop => rfl
    | forShardAdd => rfl
    | cloneAdd => rfl
    | drop => rfl

/-- What a step adds to the children counted on the shard is what it takes back, and the
change of the count. -/
theorem kids_exec {f : Frame} (hs : Sound h (f ::ₘ K)) (he : discipline.Enabled f K) :
    f.addsKid choice h sh + (h.shard sh).kids =
      f.takesKid sh + ((exec index choice h f).1.shard sh).kids := by
  have hother := kids_exec_of_ne index choice h sh f
  cases f with
  | arrive f =>
      cases f with
      | shardAdd s unit state =>
          cases unit with
          | localOne => rw [hother (by simp) (by simp) (by simp)]; rfl
          | kidsOne =>
              by_cases hc : h.shard s = state ∧ !choice
              · have hx : (exec index choice h (.arrive (.shardAdd s .kidsOne state))).1 =
                    h.setShard s (state.add .kidsOne) := by simp only [exec, execArrive, if_pos hc]
                rw [hx, kids_setShard]
                by_cases hsh : s = sh
                · subst hsh
                  simp [Frame.addsKid, Frame.takesKid, hc, ShardWord.add, Nat.add_comm]
                · simp [Frame.addsKid, Frame.takesKid, hsh]
              · have hx : (exec index choice h (.arrive (.shardAdd s .kidsOne state))).1 = h := by
                  simp only [exec, execArrive, if_neg hc]
                rw [hx]
                simp only [Frame.addsKid, Frame.takesKid, hc, and_false, if_false]
      | shardCas s unit state =>
          cases unit with
          | localOne => rw [hother (by simp) (by simp) (by simp)]; rfl
          | kidsOne =>
              have hzero := (hs.ledger.loaded (Multiset.mem_cons_self _ K)).2
              by_cases hc : h.shard s = state
              · have hx : (exec index choice h (.arrive (.shardCas s .kidsOne state))).1 =
                    h.setShard s (state.arrive .kidsOne) := by simp only [exec, execArrive, if_pos hc]
                rw [hx, kids_setShard]
                by_cases hsh : s = sh
                · subst hsh
                  simp [Frame.addsKid, Frame.takesKid, hc, ShardWord.arrive, hzero]
                · simp [Frame.addsKid, Frame.takesKid, hsh]
              · have hx : (exec index choice h (.arrive (.shardCas s .kidsOne state))).1 = h := by
                  simp only [exec, execArrive, if_neg hc]
                rw [hx]
                simp only [Frame.addsKid, Frame.takesKid, hc, and_false, if_false]
      | _ => rw [hother (by simp) (by simp) (by simp)]; rfl
  | depart f =>
      cases f with
      | shard s unit =>
          cases unit with
          | localOne => rw [hother (by simp) (by simp) (by simp)]; rfl
          | kidsOne =>
              have hpos : 0 < h.ahead (.kids s) := ahead_pos he hs.ledger (bit_of rfl)
              have hx : (exec index choice h (.depart (.shard s .kidsOne))).1 =
                  h.setShard s ((h.shard s).sub .kidsOne) := rfl
              rw [hx, kids_setShard]
              by_cases hsh : s = sh
              · subst hsh
                simp only [Heap.ahead] at hpos
                simp only [Frame.addsKid, Frame.takesKid, if_true, ShardWord.sub]
                omega
              · simp [Frame.addsKid, Frame.takesKid, hsh]
      | _ => rw [hother (by simp) (by simp) (by simp)]; rfl
  | _ => rw [hother (by simp) (by simp) (by simp)]; rfl

/-- Over any run, a shard was left by as many children as arrived, but for those it counts. -/
theorem kids_eq {x : ℕ × ℕ}
    (ht : machine.Tally (fun s a => (kidsAdded sh s a, kidsTaken sh s a)) s x) :
    x.1 = x.2 + (s.mem.shard sh).kids := by
  induction ht with
  | init => simp [machine, Heap.empty]
  | @step s s' a x ht hs ih =>
      have hr := ht.reachable
      rcases discipline.step_cases hr hs with
        ⟨i, b, index, f, k, K, rfl, hi, he, hfr, hmem, -⟩ | ⟨index, op, fs, rfl, hstart, -⟩
      · have htop : s.top (.run i b : Act) = some f := Interleave.Config.top_run hi
        have hsound := sound_reach hr
        rw [hfr] at hsound
        have hstep : f.addsKid b s.mem sh + (s.mem.shard sh).kids =
            f.takesKid sh + ((exec index b s.mem f).1.shard sh).kids := kids_exec hsound he
        have hmem : s'.mem = (exec index b s.mem f).1 := hmem
        simp only [kidsAdded, kidsTaken, htop, Option.map_some, Option.getD_some, Prod.fst_add,
          Prod.snd_add, hmem]
        omega
      · have hsame : s'.mem.shard = s.mem.shard := by
          obtain ⟨_, _, _, _, _, _, _, _, _, _, he⟩ := start_heap hstart
          rw [he]
        simpa [kidsAdded, kidsTaken, Interleave.Config.top, hsame] using ih

/-! ## The claim of `Inner::depart` -/

/-- **A live child is not emptied before it is stopped.**  A departure that takes the last
shard of a child that is not being collected returns a word with the stop bit; it has its
compare-and-swap still to make, and if no step counts a shard on the child or takes its
arrival back in the meantime, stops notwithstanding, that succeeds and sends one departure
to the recorded shard.  Over any run a child arrived at each shard as often as it departed
from it, and once more if it is arrived there; a shard was left by as many children as it
counted, but for those it counts now; and with no operation in flight these are the
children arrived there. -/
theorem child_departures {q : Parent} (hr : Reachable s) (hq : s.mem.parent c = some q) :
    (∀ a s₁, machine.step s a = some s₁ → s.top a = some (.depart (.node c)) → s.mem.Live c →
      (s.mem.state c).sub.shards = 0 →
        (s.mem.state c).sub.stopped = true ∧
        .depart (.nodeCas c q.node (s.mem.state c).sub) ∈ s₁.frames ∧
        ∀ s₂, machine.Leads (fun s a => ¬CountsOn c s a ∧ ¬Unarrives c s a) s₁ s₂ →
          execDepart s₂.mem (.nodeCas c q.node (s.mem.state c).sub) =
            (s₂.mem.setState c (s.mem.state c).sub.depart,
              [.depart (.shard ⟨q.node, (s.mem.state c).parentShard⟩ .kidsOne)])) ∧
    (∀ sh x, machine.Tally (fun s a => (arrivals c sh s a, departures c sh s a)) s x →
      x.1 = x.2 + s.mem.arrivedAt c sh) ∧
    (∀ sh x, machine.Tally (fun s a => (kidsAdded sh s a, kidsTaken sh s a)) s x →
      x.1 = x.2 + (s.mem.shard sh).kids) ∧
    (Quiescent s → ∀ sh, (s.mem.shard sh).kids = s.mem.kidsArrived sh) := by
  refine ⟨?_, fun sh x ht => arrivals_eq ht, fun sh x ht => kids_eq ht, fun hquiet sh => ?_⟩
  · intro a s₁ hs htop hlive h0
    have hst : (s.mem.state c).sub.stopped = true := stopped_of_last_depart hr hs htop hlive h0
    obtain ⟨i, b, index, K, -, -, hfr, hmem, hfr'⟩ := discipline.step_of_top hr hs htop
    have hword : s₁.mem.state c = (s.mem.state c).sub := by
      rw [hmem]
      simp [machine, exec, execDepart]
    have hparent : s₁.mem.parent c = some q := by
      rw [(extends_step hs).parent c ((sound_reach hr).valid.wf.parent hq).1, hq]
    refine ⟨hst, ?_, fun s₂ hl => ?_⟩
    · refine Multiset.mem_coe.mp ?_
      rw [hfr']
      refine Multiset.mem_add.mpr (.inl ?_)
      have h0' : (s.mem.state c).shards - 1 = 0 := h0
      simp [machine, exec, execDepart, h0', hq]
    · have hkept := nodeCas_of_leads (.step hr trivial hs) hparent (by rw [hword, h0])
        (by rw [hword, hst]) hl
      rw [hword] at hkept
      simp [execDepart, hkept]
  · have hahead := hquiet.ahead hr (.kids sh)
    simp only [Heap.ahead] at hahead
    omega

/-- The last guard of a stopped child is dropped, up to the child's departure. -/
def lastDeparture : List Act :=
  List.flatten [[.start 0 (.newRoot 2 false), .start 1 (.child 0)], List.replicate 7 (.run 1 false),
    [.start 1 (.guard 1 ⟨"src/tasks.rs", 120, 9⟩)], List.replicate 10 (.run 2 false),
    [.start 0 (.shutDown 1)], List.replicate 9 (.run 3 false),
    [.start 0 (.dropGuard ⟨0, ⟨1, 0⟩, true, ⟨"src/tasks.rs", 120, 9⟩, none⟩)],
    List.replicate 2 (.run 4 false)]

theorem child_departures_lastDeparture : ∃ s s₁ : State, Reachable s ∧
    machine.step s (.run 4 false) = some s₁ ∧
    .depart (.nodeCas 1 0 (s.mem.state 1).sub) ∈ s₁.frames ∧
    execDepart s₁.mem (.nodeCas 1 0 (s.mem.state 1).sub) =
      (s₁.mem.setState 1 (s.mem.state 1).sub.depart,
        [.depart (.shard ⟨0, (s.mem.state 1).parentShard⟩ .kidsOne)]) := by
  obtain ⟨s, hr, hs⟩ := Machine.exists_reachable (M := machine) lastDeparture
    (p := fun s => s.top (.run 4 false : Act) = some (.depart (.node 1)) ∧ s.mem.Live 1 ∧
      (s.mem.state 1).sub.shards = 0 ∧ s.mem.parent 1 = some ⟨0, 1⟩ ∧
      (machine.step s (.run 4 false)).isSome) (by decide)
  obtain ⟨htop, hlive, h0, hq, hsome⟩ := of_decide_eq_true hs
  obtain ⟨s₁, hs₁⟩ := Option.isSome_iff_exists.mp hsome
  obtain ⟨-, hmem, hcas⟩ := (child_departures hr hq).1 _ s₁ hs₁ htop hlive h0
  exact ⟨s, s₁, hr, hs₁, hmem, hcas s₁ .refl⟩

end Swansong
