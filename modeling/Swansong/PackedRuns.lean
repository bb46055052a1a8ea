import Swansong.Lockstep
import Swansong.Registration

/-!
# Runs on packed words

A run of the crate is run again on `u64`s, each step by the atomic instruction of its
frame.  While the counts fit their fields the words stay those of the records: nothing
carries or borrows from one field into another, a stop bit stays set, the comparisons of
the source find what they look for, and its assertions hold.

## Main definitions

* `PackedRun` — a run with its words.
* `Frame.Asserts` — the assertions that the source makes at a frame.
* `packed_words` — the result.
-/

namespace Swansong

open Interleave (Machine)
open Count (bit bit_of)

variable {index : ℕ} {choice : Bool} {h h' : Heap} {K : Multiset Frame} {s s' : State} {n : NodeId}
  {sh : ShardId} {x : ShardId → U64} {y : NodeId → U64}

/-- The move makes a weak compare-and-swap fail. -/
def spurious : Act → Bool
  | .run _ b => b
  | .start _ _ => false

/-- The words of the shards and of the nodes after the atomic instruction of a move. -/
def stepShards (s : State) (a : Act) (x : ShardId → U64) : ShardId → U64 :=
  Instr.write (spurious a) x ((s.top a).bind Frame.shardInstr)

def stepNodes (s : State) (a : Act) (y : NodeId → U64) : NodeId → U64 :=
  Instr.write (spurious a) y ((s.top a).bind (Frame.nodeInstr s.mem))

/-- A root gets as many shards as `root_shard_count` allows. -/
def smallRoot : Act → Bool
  | .start _ (.newRoot shards _) => shards ≤ maxShards
  | _ => true

/-- A run in which the counts fit their fields, with the words that the atomic
instructions leave. -/
inductive PackedRun : State → (ShardId → U64) → (NodeId → U64) → Prop
  | init : PackedRun initial (fun _ => 0) (fun _ => 0)
  | step {s s' : State} {a : Act} {x : ShardId → U64} {y : NodeId → U64} :
      PackedRun s x y → smallRoot a = true → machine.step s a = some s' → s'.mem.CountsFit →
      PackedRun s' (stepShards s a x) (stepNodes s a y)

/-! ## The words of the records -/

/-- A root is allocated by the operation that creates it. -/
theorem newRoot_of_fresh {a : Act} (hs : machine.step s a = some s')
    (hn : s.mem.size ≤ n) (hn' : n < s'.mem.size) (hroot : s'.mem.parent n = none) :
    ∃ index shards report, a = .start index (.newRoot shards report) ∧ s'.mem.shardCount n = shards := by
  rcases Machine.step_cases hs with
    ⟨i, b, index, f, k, p, q, -, -, -, rfl⟩ | ⟨index, op, h', fs, rfl, hstart, rfl⟩
  · -- the only step that allocates gives the new node a parent
    by_cases hf : ∃ f', f = .child f'
    · obtain ⟨f, rfl⟩ := hf
      cases f with
      | alloc parent shard =>
          have hn' : n < s.mem.size + 1 := hn'
          obtain rfl : n = s.mem.size := by lia
          simp [machine, exec, execChild] at hroot
      | new parent => exact absurd hn' (not_lt.mpr hn)
      | register c =>
          simp only [machine, exec, execChild] at hn'
          split at hn' <;> exact absurd hn' (not_lt.mpr hn)
      | storeKey c key => exact absurd hn' (not_lt.mpr hn)
      | check c =>
          simp only [machine, exec, execChild] at hn'
          split at hn' <;> exact absurd hn' (not_lt.mpr hn)
      | done c => exact absurd hn' (not_lt.mpr hn)
    · have hsize := (tree_exec index b s.mem (f := f) fun f' hf' => hf ⟨f', hf'⟩).1
      exact absurd (hsize ▸ hn') (not_lt.mpr hn)
  · obtain ⟨shards, report, rfl⟩ : ∃ shards report, op = .newRoot shards report := by
      simp only [machine] at hstart
      unfold start at hstart
      split at hstart <;>
        simp only [Option.ite_none_right_eq_some, Option.some.injEq, Prod.mk.injEq] at hstart <;>
        obtain ⟨-, rfl, -⟩ := hstart
      case h_1 => exact ⟨_, _, rfl⟩
      all_goals exact absurd hn' (not_lt.mpr hn)
    refine ⟨index, shards, report, rfl, ?_⟩
    simp only [machine, start, Option.ite_none_right_eq_some, Option.some.injEq, Prod.mk.injEq] at hstart
    obtain ⟨-, rfl, -⟩ := hstart
    have hn' : n < s.mem.size + 1 := hn'
    obtain rfl : n = s.mem.size := by lia
    simp [newRoot]

theorem fewShards_step {a : Act} (hr : Reachable s) (hs : machine.step s a = some s')
    (ha : smallRoot a = true) (hfew : s.mem.FewShards) : s'.mem.FewShards := by
  intro n hn
  have hw' := (sound_reach (hr.step trivial hs)).valid.wf
  rcases Nat.lt_or_ge n s.mem.size with hlt | hge
  · rw [(extends_step hs).shardCount n hlt]
    exact hfew n hlt
  · rcases hp : s'.mem.parent n with _ | p
    · obtain ⟨index, shards, report, rfl, hcount⟩ :=
        newRoot_of_fresh hs hge hn hp
      rw [hcount]
      exact of_decide_eq_true ha
    · rw [(hw'.parent hp).2.2.2]
      decide

/-- No operation starts with a loaded word. -/
theorem loadFits_of_starts {f : Frame} (hf : f.starts = true) : f.LoadFits := by
  cases f with
  | arrive f => cases hf
  | depart f => cases hf
  | guard f =>
      cases f with
      | forShardAdd sh location state => cases hf
      | _ => trivial
  | _ => trivial

/-- What holds of a packed run. -/
structure Packed (s : State) (x : ShardId → U64) (y : NodeId → U64) : Prop where
  reachable : Reachable s
  few : s.mem.FewShards
  counts : s.mem.CountsFit
  loads : ∀ f ∈ s.frames, f.LoadFits
  shards : x = s.mem.shardWords
  nodes : y = s.mem.nodeWords

theorem Packed.wordsFit (hp : Packed s x y) : WordsFit s.mem where
  shard := hp.counts.shard
  state := hp.counts.state (sound_reach hp.reachable).valid.wf hp.few

/-- A step keeps the words those of the records. -/
theorem packed_step {a : Act} (hp : Packed s x y) (ha : smallRoot a = true)
    (hs : machine.step s a = some s') (hcounts : s'.mem.CountsFit) :
    Packed s' (stepShards s a x) (stepNodes s a y) := by
  have hr' : Reachable s' := hp.reachable.step trivial hs
  have hfew := fewShards_step hp.reachable hs ha hp.few
  have hfit : WordsFit s'.mem := ⟨hcounts.shard, hcounts.state (sound_reach hr').valid.wf hfew⟩
  have hsound := sound_reach hp.reachable
  obtain ⟨-, -, -, hloads, rfl, rfl⟩ := id hp
  rcases discipline.step_cases hp.reachable hs with
    ⟨i, b, index, f, k, K, rfl, hi, he, hfr, hmem, hfr'⟩ | ⟨index, op, fs, rfl, hstart, hfr'⟩
  · rw [hfr] at hsound
    have htop : s.top (.run i b : Act) = some f := Interleave.Config.top_run hi
    have hload : ∀ g ∈ f ::ₘ K, g.LoadFits := by
      intro g hg
      rw [← hfr] at hg
      exact hloads g hg
    have hf := hload f (Multiset.mem_cons_self _ K)
    rw [hmem] at hfit
    refine ⟨hr', hfew, hcounts, ?_, ?_, ?_⟩
    · intro g hg
      rw [← Multiset.mem_coe, hfr'] at hg
      rcases Multiset.mem_add.mp hg with hg | hg
      · exact loadFits_exec hp.wordsFit hfit hg
      · exact hload g (Multiset.mem_cons_of_mem hg)
    · rw [stepShards, htop, hmem]
      exact (shardWords_exec hsound he hp.wordsFit hfit hf).symm
    · rw [stepNodes, htop, hmem]
      exact (nodeWords_exec hsound he hp.wordsFit hfit hf).symm
  · have hsame : s'.mem.shard = s.mem.shard ∧ s'.mem.state = s.mem.state := by
      obtain ⟨_, _, _, _, _, _, _, _, _, _, he⟩ := start_heap hstart
      rw [he]
      exact ⟨rfl, rfl⟩
    refine ⟨hr', hfew, hcounts, ?_, ?_, ?_⟩
    · intro g hg
      rw [← Multiset.mem_coe, hfr'] at hg
      rcases Multiset.mem_add.mp hg with hg | hg
      · exact loadFits_of_starts (starts_of_mem_start hstart hg)
      · exact hloads g hg
    · unfold Heap.shardWords
      rw [hsame.1]
      rfl
    · unfold Heap.nodeWords
      rw [hsame.2]
      rfl

theorem packed_of_packedRun (hp : PackedRun s x y) : Packed s x y := by
  induction hp with
  | init =>
      have hzero : ShardWord.zero.Fits ∧ NodeWord.zero.shards < 2 ^ 32 := by decide
      exact ⟨.init, fun n hn => absurd hn (Nat.not_lt_zero n), ⟨fun _ => hzero.1, fun _ => hzero.2⟩,
        by simp [initial, Interleave.Config.frames], funext fun _ => ShardWord.pack_zero.symm,
        funext fun _ => NodeWord.pack_zero.symm⟩
  | step _ ha hs hcounts ih => exact packed_step ih ha hs hcounts

/-! ## Assertions -/

/-- What the source asserts at the frame, of the words it finds. -/
def Frame.Asserts (h : Heap) (x : ShardId → U64) (y : NodeId → U64) : Frame → Prop
  /- `Shard::arrive`: "an unarrived shard is empty" -/
  | .arrive (.shard sh _) | .arrive (.shardAdd sh _ _) | .arrive (.shardCas sh _ _) =>
    x sh &&& arrivedBit = 0 → x sh &&& ~~~stoppedBit = 0
  /- `Inner::arrive`: "an unarrived child is empty" -/
  | .arrive (.node n) | .arrive (.nodeAdd n _ _) | .arrive (.nodeCas n _ _) =>
    h.isRoot n = false → y n &&& arrivedBit = 0 → y n &&& ~~~stoppedBit = 0
  /- `Shard::arrive_nonempty` -/
  | .guard (.cloneAdd g _) =>
    x g.shard &&& arrivedBit ≠ 0 ∧ x g.shard &&& ~~~(arrivedBit ||| stoppedBit) ≠ 0
  /- `Inner::depart`: "a counted child has arrived" -/
  | .depart (.node n) =>
    h.isRoot n = false → (y n - 1) &&& shardsMask = 0 → (y n - 1) &&& arrivedBit ≠ 0
  /- `Shard::deregister_child`: "deregistered an unregistered child" -/
  | .life (.deregister n) => ∀ p key, h.parent n = some p → h.key n = some key →
    ((h.children ⟨p.node, p.shard⟩).remove key).2.isSome = true
  | _ => True

theorem unarrived_shard (hp : Packed s x y) (ha : x sh &&& arrivedBit = 0) :
    x sh &&& ~~~stoppedBit = 0 := by
  obtain ⟨hr, -, hcounts, -, rfl, -⟩ := hp
  have ha := ShardWord.pack_arrived.mp ha
  obtain ⟨hl, hk⟩ := (sound_reach hr).ledger.unarrived ha
  exact (ShardWord.pack_unstopped (hcounts.shard sh)).mpr ⟨hl, hk, ha⟩

theorem unarrived_node (hp : Packed s x y) (hchild : s.mem.isRoot n = false)
    (ha : y n &&& arrivedBit = 0) : y n &&& ~~~stoppedBit = 0 := by
  have hfit := hp.wordsFit.state n
  obtain ⟨hr, -, -, -, -, rfl⟩ := hp
  have ha := NodeWord.pack_arrived.mp ha
  obtain ⟨p, hparent⟩ : ∃ p, s.mem.parent n = some p :=
    Option.isSome_iff_exists.mp (by simpa [Heap.isRoot] using hchild)
  obtain ⟨hs, hi⟩ := (sound_reach hr).valid.wf.unarrived hparent ha
  exact (NodeWord.pack_unstopped hfit).mpr ⟨hs, hi, ha⟩

/-- The assertions at a frame hold when it is executed. -/
theorem asserts_of_top {a : Act} (hp : Packed s x y) {s' : State} (hs : machine.step s a = some s')
    {f : Frame} (hf : s.top a = some f) : f.Asserts s.mem x y := by
  have hfit := hp.wordsFit
  have hr := hp.reachable
  obtain ⟨i, b, index, K, -, he, hfr, -, -⟩ := discipline.step_of_top hr hs hf
  have hsound := sound_reach hr
  rw [hfr] at hsound
  have hno := noBorrow_of_enabled hsound he
  cases f with
  | arrive f =>
      cases f with
      | shard sh unit => exact unarrived_shard hp
      | shardAdd sh unit state => exact unarrived_shard hp
      | shardCas sh unit state => exact unarrived_shard hp
      | node n => exact unarrived_node hp
      | nodeAdd n parent state => exact unarrived_node hp
      | nodeCas n up state => exact unarrived_node hp
  | depart f =>
      cases f with
      | node n =>
          intro hchild _
          obtain ⟨q, hparent⟩ : ∃ p, s.mem.parent n = some p :=
            Option.isSome_iff_exists.mp (by simpa [Heap.isRoot] using hchild)
          have ha : (s.mem.state n).arrived = true := by
            by_contra ha
            have := (hsound.valid.wf.unarrived hparent (by simpa using ha)).1
            simp only [Frame.NoBorrow] at hno
            omega
          rw [hp.nodes]
          show (s.mem.state n).pack - 1 &&& arrivedBit ≠ 0
          rw [← NodeWord.pack_sub (hfit.state n) hno, ne_eq, NodeWord.pack_arrived]
          simp [ha]
      | _ => trivial
  | guard f =>
      cases f with
      | cloneAdd g info =>
          obtain ⟨k, hk, hkK⟩ := he.below
          have hg : g ∈ s.mem.guards := hsound.borrowed.guard (Multiset.mem_cons_of_mem (hkK _ hk))
          have hhomed : 0 < s.mem.homed g.shard := List.countP_pos_iff.mpr ⟨g, hg, by simp⟩
          have hlocals : (s.mem.shard g.shard).locals ≠ 0 := by
            have := hsound.ahead_nonneg (.locals g.shard)
            simp only [Heap.ahead] at this
            omega
          rw [hp.shards]
          constructor
          · rw [Heap.shardWords, ne_eq, ShardWord.pack_arrived]
            simp [hsound.arrived_of_counted (.inl hlocals)]
          · rw [Heap.shardWords, ne_eq, ShardWord.pack_counts (hfit.shard g.shard)]
            exact fun hzero => hlocals hzero.1
      | _ => trivial
  | life f =>
      cases f with
      | deregister n =>
          intro q key hparent hkey
          have hplaced : Placed s.mem s.frames := placed_reach hr
          have hder : Deregistering s.mem s.frames := deregistering_reach hr
          have hent := entered_reach hr
          rw [hfr] at hplaced hder hent
          obtain ⟨k, hk, hget⟩ := get_of_deregister hsound hplaced hder hent hparent
          obtain rfl : k = key := by simpa [hkey] using hk.symm
          rw [Slab.remove_value, hget]
          rfl
      | _ => trivial
  | _ => trivial

/-! ## The words of a step -/

/-- A step writes the words as the records say. -/
theorem write_of_step {a : Act} (hs : machine.step s a = some s') :
    (∀ sh, s'.mem.shard sh = s.mem.shard sh ∨
      ∃ f, s.top a = some f ∧ ShardWrite s.mem sh f (s'.mem.shard sh)) ∧
    ∀ n, s'.mem.state n = s.mem.state n ∨
      ∃ f, s.top a = some f ∧ NodeWrite s.mem n f (s'.mem.state n) := by
  rcases Machine.step_cases hs with
    ⟨i, b, index, f, k, p, q, rfl, hi, -, rfl⟩ | ⟨index, op, h', fs, rfl, hstart, rfl⟩
  · have htop : s.top (.run i b : Act) = some f := Interleave.Config.top_run hi
    exact ⟨fun sh => (shardWrite_of_exec index b s.mem sh f).imp_right fun hw => ⟨f, htop, hw⟩,
      fun n => (nodeWrite_of_exec index b s.mem n f).imp_right fun hw => ⟨f, htop, hw⟩⟩
  · obtain ⟨_, _, _, _, _, _, _, _, _, _, rfl⟩ := start_heap hstart
    exact ⟨fun _ => .inl rfl, fun _ => .inl rfl⟩

/-- What a step does to the words, when the counts fit. -/
structure StepsInLockstep (s s' : State) (a : Act) (x : ShardId → U64) (y : NodeId → U64) : Prop where
  /-- The instruction leaves the word of the record that the step leaves. -/
  shard : ∀ sh, ShardWord.unpack (stepShards s a x sh) = s'.mem.shard sh
  node : ∀ n, NodeWord.unpack (stepNodes s a y n) = s'.mem.state n
  /-- Which is the record before, with one of its fields changed. -/
  shardWrite : ∀ sh, s'.mem.shard sh = s.mem.shard sh ∨
    ∃ f, s.top a = some f ∧ ShardWrite s.mem sh f (s'.mem.shard sh)
  nodeWrite : ∀ n, s'.mem.state n = s.mem.state n ∨
    ∃ f, s.top a = some f ∧ NodeWrite s.mem n f (s'.mem.state n)
  /-- No stop bit is cleared. -/
  shardStopped : ∀ sh, x sh &&& stoppedBit ≠ 0 → stepShards s a x sh &&& stoppedBit ≠ 0
  nodeStopped : ∀ n, y n &&& stoppedBit ≠ 0 → stepNodes s a y n &&& stoppedBit ≠ 0

theorem stepsInLockstep {a : Act} (hp : Packed s x y) (ha : smallRoot a = true)
    (hs : machine.step s a = some s') (hcounts : s'.mem.CountsFit) : StepsInLockstep s s' a x y := by
  have hp' := packed_step hp ha hs hcounts
  have he := extends_step hs
  obtain ⟨hshard, hnode⟩ := write_of_step hs
  have hfit' := hp'.wordsFit
  refine ⟨fun sh => ?_, fun n => ?_, hshard, hnode, fun sh hst => ?_, fun n hst => ?_⟩
  · rw [hp'.shards]
    exact ShardWord.unpack_pack (hfit'.shard sh)
  · rw [hp'.nodes]
    exact NodeWord.unpack_pack (hfit'.state n)
  · rw [hp.shards] at hst
    rw [hp'.shards]
    exact ShardWord.pack_stopped.mpr (he.latched sh (ShardWord.pack_stopped.mp hst))
  · rw [hp.nodes] at hst
    rw [hp'.nodes]
    exact NodeWord.pack_stopped.mpr (he.stopped n (NodeWord.pack_stopped.mp hst))

/-- **Packed words.**  In every run in which the counts fit their fields, the words that the
atomic instructions leave are those of the records; a word that did not arrive is zero but
for its stop bit; and the comparisons find empty records.  Every step keeps it so, takes
from positive counts only, and meets the assertions of the source. -/
theorem packed_words (hp : PackedRun s x y) :
    ((∀ sh, ShardWord.unpack (x sh) = s.mem.shard sh) ∧
      ∀ n, NodeWord.unpack (y n) = s.mem.state n) ∧
    ((∀ sh, x sh &&& arrivedBit = 0 → x sh &&& ~~~stoppedBit = 0) ∧
      ∀ n, s.mem.isRoot n = false → y n &&& arrivedBit = 0 → y n &&& ~~~stoppedBit = 0) ∧
    ((∀ sh, (x sh = arrivedBit ||| stoppedBit ↔ s.mem.shard sh = ⟨0, 0, true, true⟩) ∧
        (x sh &&& ~~~stoppedBit = arrivedBit ↔ (s.mem.shard sh).locals = 0 ∧
          (s.mem.shard sh).kids = 0 ∧ (s.mem.shard sh).arrived = true)) ∧
      ∀ n, y n &&& shardsMask = 0 ↔ (s.mem.state n).shards = 0) ∧
    ∀ a s', machine.step s a = some s' →
      (∀ f, s.top a = some f → f.NoBorrow s.mem ∧ f.Asserts s.mem x y) ∧
      (smallRoot a = true → s'.mem.CountsFit → StepsInLockstep s s' a x y) := by
  have hp := packed_of_packedRun hp
  have hfit := hp.wordsFit
  refine ⟨⟨fun sh => ?_, fun n => ?_⟩, ⟨fun sh => unarrived_shard hp, fun n => unarrived_node hp⟩,
    ⟨fun sh => ⟨?_, ?_⟩, fun n => ?_⟩, fun a s' hs => ⟨fun f hf => ⟨?_, asserts_of_top hp hs hf⟩,
    fun ha hcounts => stepsInLockstep hp ha hs hcounts⟩⟩
  · rw [hp.shards]
    exact ShardWord.unpack_pack (hfit.shard sh)
  · rw [hp.nodes]
    exact NodeWord.unpack_pack (hfit.state n)
  · rw [hp.shards]
    exact ShardWord.pack_eq_emptied (hfit.shard sh)
  · rw [hp.shards]
    refine (ShardWord.pack_idle (hfit.shard sh)).trans ?_
    simp [ShardWord.idle, and_assoc]
  · rw [hp.nodes]
    exact NodeWord.pack_shards (hfit.state n)
  · obtain ⟨i, b, index, K, -, he, hfr, -, -⟩ := discipline.step_of_top hp.reachable hs hf
    have hsound := sound_reach hp.reachable
    rw [hfr] at hsound
    exact noBorrow_of_enabled hsound he

/-- Whether the counts of the allocated words fit. -/
def Heap.countsFit (h : Heap) : Bool :=
  (List.range h.size).all fun n => decide ((h.state n).shards < 2 ^ 32) &&
    (h.shards n).all fun sh => decide (h.shard sh).Fits

theorem Heap.Wf.countsFit (hw : h.Wf) (hc : h.countsFit = true) : h.CountsFit := by
  rw [Heap.countsFit, List.all_eq_true] at hc
  constructor
  · intro sh
    by_cases hsh : h.HasShard sh
    · have hn := hc sh.node (List.mem_range.mpr hsh.1)
      rw [Bool.and_eq_true, List.all_eq_true] at hn
      exact of_decide_eq_true (hn.2 sh (mem_shards_of_hasShard hsh))
    · rw [hw.freshShard hsh]
      decide
  · intro n
    rcases Nat.lt_or_ge n h.size with hlt | hge
    · have hn := hc n (List.mem_range.mpr hlt)
      rw [Bool.and_eq_true] at hn
      exact of_decide_eq_true hn.1
    · rw [(hw.freshNode hge).1]
      decide

/-- Whether a move keeps the counts within their fields. -/
def keepsFit (s : State) (a : Act) : Bool :=
  smallRoot a && (machine.step s a).all fun s' => s'.mem.countsFit

theorem packedRun_of_reach (hr : machine.Reach (fun s a => keepsFit s a = true) s) :
    ∃ x y, PackedRun s x y := by
  induction hr with
  | init => exact ⟨_, _, .init⟩
  | @step s s' a hr hkeeps hs ih =>
      obtain ⟨x, y, hp⟩ := ih
      rw [keepsFit, Bool.and_eq_true, hs, Option.all_some] at hkeeps
      have hw := (sound_reach (hr.reachable.step trivial hs)).valid.wf
      exact ⟨_, _, hp.step hkeeps.1 hs (hw.countsFit hkeeps.2)⟩

/-- A guard is created on a root that is then shut down. -/
def guardedRoot : List Act :=
  List.flatten [[.start 0 (.newRoot 2 false), .start 1 (.guard 0 ⟨"src/server.rs", 40, 17⟩)],
    List.replicate 5 (.run 1 false), [.start 0 (.shutDown 0)], List.replicate 5 (.run 2 false)]

theorem packed_words_guardedRoot : ∃ s x y, PackedRun s x y ∧
    (s.mem.shard ⟨0, 1⟩).stopped = true ∧ ShardWord.unpack (x ⟨0, 1⟩) = s.mem.shard ⟨0, 1⟩ ∧
    x ⟨0, 1⟩ &&& ~~~stoppedBit ≠ arrivedBit := by
  obtain ⟨s, hr, hs⟩ := Machine.exists_reach (M := machine)
    (P := fun s a => keepsFit s a = true) (fun s a (h : keepsFit s a = true) => h) guardedRoot
    (p := fun s => (s.mem.shard ⟨0, 1⟩).stopped = true ∧ (s.mem.shard ⟨0, 1⟩).locals = 1) (by decide)
  obtain ⟨hst, hl⟩ := of_decide_eq_true hs
  obtain ⟨x, y, hp⟩ := packedRun_of_reach hr
  obtain ⟨⟨hshard, -⟩, -, ⟨hcompare, -⟩, -⟩ := packed_words hp
  refine ⟨s, x, y, hp, hst, hshard ⟨0, 1⟩, fun hidle => ?_⟩
  have hzero := ((hcompare ⟨0, 1⟩).2.mp hidle).1
  omega

end Swansong
