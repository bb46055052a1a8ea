import Swansong.Packed
import Swansong.Writes
import Swansong.Latch

/-!
# The words in lockstep

The crate runs on `u64`s: a step executes an atomic instruction in the arithmetic of 64
bits.  If the counts before and after a step fit their fields, what the instruction does
to the words is what the step does to the records.

## Main definitions

* `Instr`, `Instr.apply` — the atomic instructions.
* `Frame.shardInstr`, `Frame.nodeInstr` — which one a frame executes, on which word.
* `Heap.CountsFit`, `WordsFit`, `Frame.LoadFits` — the counts fit their fields.
* `Heap.shardWords`, `Heap.nodeWords` — the `u64`s of the records.
-/

namespace Swansong

open Interleave (Machine)
open Count (bit bit_of)

variable {index : ℕ} {choice : Bool} {h h' : Heap} {K : Multiset Frame} {s s' : State} {n : NodeId}
  {sh : ShardId}

/-! ## Instructions -/

/-- An atomic read-modify-write of a word. -/
inductive Instr where
  | fetchAdd (v : U64)
  | fetchSub (v : U64)
  | fetchOr (v : U64)
  | compareExchange (current new : U64)
  | compareExchangeWeak (current new : U64)

/-- What an instruction leaves of a word.  A weak compare-and-swap may fail spuriously. -/
def Instr.apply (spurious : Bool) (x : U64) : Instr → U64
  | .fetchAdd v => x + v
  | .fetchSub v => x - v
  | .fetchOr v => x ||| v
  | .compareExchange current new => if x = current then new else x
  | .compareExchangeWeak current new => if x = current ∧ !spurious then new else x

/-- All words after an instruction on one of them, if there is one. -/
def Instr.write {κ : Type} [DecidableEq κ] (spurious : Bool) (words : κ → U64) :
    Option (κ × Instr) → κ → U64
  | none => words
  | some (k, i) => Function.update words k (i.apply spurious (words k))

/-- The instruction on a shard's word that the frame executes. -/
def Frame.shardInstr : Frame → Option (ShardId × Instr)
  | .arrive (.shardAdd sh unit state) =>
    some (sh, .compareExchangeWeak state.pack (state.pack + unit.bits))
  | .arrive (.shardCas sh unit state) =>
    some (sh, .compareExchange state.pack (state.pack ||| arrivedBit ||| unit.bits))
  | .depart (.shard sh unit) => some (sh, .fetchSub unit.bits)
  | .depart (.flush sh) => some (sh, .compareExchange (arrivedBit ||| stoppedBit) stoppedBit)
  | .stop (.shard sh) => some (sh, .fetchOr stoppedBit)
  | .guard (.forShardAdd sh _ state) =>
    some (sh, .compareExchangeWeak state.pack (state.pack + localOne))
  | .guard (.cloneAdd g _) => some (g.shard, .fetchAdd localOne)
  | .guard (.drop g) => some (g.shard, .fetchSub localOne)
  | _ => none

/-- The instruction on a node's word that the frame executes. -/
def Frame.nodeInstr (h : Heap) : Frame → Option (NodeId × Instr)
  | .arrive (.node n) => if h.isRoot n then some (n, .fetchAdd 1) else none
  | .arrive (.nodeAdd n _ state) => some (n, .compareExchangeWeak state.pack (state.pack + 1))
  | .arrive (.nodeCas n up state) =>
    some (n, .compareExchange state.pack
      (state.pack ||| arrivedBit ||| BitVec.ofNat 64 up.index <<< parentShardShift ||| 1))
  | .depart (.node n) => some (n, .fetchSub 1)
  | .depart (.nodeCas n _ state) => some (n, .compareExchange state.pack (state.pack &&& stoppedBit))
  | .stop (.node n) => some (n, .fetchOr stoppedBit)
  | _ => none

/-! ## Counts that fit -/

/-- The counts of all words fit their fields. -/
structure Heap.CountsFit (h : Heap) : Prop where
  shard : ∀ sh, (h.shard sh).Fits
  node : ∀ n, (h.state n).shards < 2 ^ 32

/-- `MAX_SHARDS`. -/
def maxShards : ℕ := 256

/-- No node has more shards than `root_shard_count` allows. -/
def Heap.FewShards (h : Heap) : Prop := ∀ n < h.size, h.shardCount n ≤ maxShards

theorem Heap.CountsFit.state (hc : h.CountsFit) (hw : h.Wf) (hf : h.FewShards) (n : NodeId) :
    (h.state n).Fits := by
  refine ⟨hc.node n, ?_⟩
  rcases Nat.lt_or_ge n h.size with hn | hn
  · rcases hp : h.parent n with _ | p
    · rw [(hw.root hp).2]
      decide
    · have hsh := hw.parentShard hp
      have hfew : h.shardCount p.node ≤ 256 := hf _ hsh.1
      have hlt : (h.state n).parentShard < h.shardCount p.node := hsh.2
      omega
  · rw [(hw.freshNode hn).1]
    decide

/-- The loaded word that a frame carries fits. -/
def Frame.LoadFits : Frame → Prop
  | .arrive (.shardAdd _ _ state) | .arrive (.shardCas _ _ state) => state.Fits
  | .guard (.forShardAdd _ _ state) => state.Fits
  | .arrive (.nodeAdd _ _ state) | .arrive (.nodeCas _ _ state) => state.Fits
  | .depart (.nodeCas _ _ state) => state.Fits
  | _ => True

/-- Every word and every loaded word fits. -/
structure WordsFit (h : Heap) : Prop where
  shard : ∀ sh, (h.shard sh).Fits
  state : ∀ n, (h.state n).Fits

/-- A frame carries a word that it loaded just now, or that the step left. -/
theorem loadFits_exec {f g : Frame} (hh : WordsFit h) (hh' : WordsFit (exec index choice h f).1)
    (hg : g ∈ (exec index choice h f).2) : g.LoadFits := by
  have hshard := hh.shard
  have hstate := hh.state
  have hstate' := hh'.state
  cases f with
  | arrive f =>
      cases f <;> simp only [exec, execArrive, arriveNext, nodeArriveNext] at hg <;>
        (repeat' split at hg) <;> simp at hg <;> grind [Frame.LoadFits]
  | depart f =>
      cases f with
      | node m =>
          have hsub : (h.state m).sub.Fits := by simpa [exec, execDepart] using hstate' m
          simp only [exec, execDepart] at hg
          (repeat' split at hg) <;> simp at hg <;> grind [Frame.LoadFits]
      | _ =>
          simp only [exec, execDepart] at hg
          (repeat' split at hg) <;> simp at hg
          all_goals grind [Frame.LoadFits]
  | guard f =>
      cases f <;> simp only [exec, execGuard, forShardNext] at hg <;>
        (repeat' split at hg) <;> simp at hg <;> grind [Frame.LoadFits]
  | stop f => rcases mem_execStop hg with ⟨_, rfl⟩ | ⟨_, _, rfl⟩ | ⟨_, rfl⟩ | ⟨_, rfl⟩ <;> trivial
  | notify event n => simp [exec, execNotify] at hg
  | life f =>
      rcases mem_execLife hg with ⟨_, rfl⟩ | ⟨_, -, rfl⟩ | ⟨_, rfl⟩ | ⟨_, -, rfl⟩ | ⟨_, -, rfl⟩ <;> trivial
  | child f => rcases mem_execChild hg with ⟨_, rfl⟩ | ⟨_, rfl⟩ <;> trivial
  | wait f => rcases mem_execWait hg with ⟨_, rfl⟩ | ⟨_, rfl⟩ <;> trivial
  | poll f => obtain ⟨_, rfl⟩ := mem_execPoll hg; trivial
  | walk report todo t out =>
      rcases mem_execWalk hg with ⟨_, _, _, rfl⟩ | ⟨_, rfl⟩ | ⟨_, -, rfl⟩ <;> trivial

/-! ## Lockstep -/

/-- The words of the shards and of the nodes. -/
def Heap.shardWords (h : Heap) : ShardId → U64 := fun sh => (h.shard sh).pack
def Heap.nodeWords (h : Heap) : NodeId → U64 := fun n => (h.state n).pack

theorem shardWords_setShard {w : ShardWord} :
    (h.setShard sh w).shardWords = Function.update h.shardWords sh w.pack :=
  Function.comp_update ShardWord.pack h.shard sh w

theorem nodeWords_setState {w : NodeWord} :
    (h.setState n w).nodeWords = Function.update h.nodeWords n w.pack :=
  Function.comp_update NodeWord.pack h.state n w

variable (choice) in
/-- A compare-and-swap of records is one of their words. -/
theorem shardWords_cas (w : ShardWord) {state : ShardWord} (new : U64) (fs gs : List Frame)
    (hfit : (h.shard sh).Fits) (hstate : state.Fits) (hnew : h.shard sh = state → w.pack = new) :
    (if h.shard sh = state then (h.setShard sh w, fs) else (h, gs)).1.shardWords =
      Instr.write choice h.shardWords (some (sh, .compareExchange state.pack new)) := by
  have hinj : h.shardWords sh = state.pack ↔ h.shard sh = state := ShardWord.pack_inj hfit hstate
  by_cases hcas : h.shard sh = state
  · rw [if_pos hcas, shardWords_setShard, hnew hcas, Instr.write, Instr.apply, if_pos (hinj.mpr hcas)]
  · rw [if_neg hcas, Instr.write, Instr.apply, if_neg (mt hinj.mp hcas), Function.update_eq_self]

theorem shardWords_casWeak {w state : ShardWord} {new : U64} {fs gs : List Frame}
    (hfit : (h.shard sh).Fits) (hstate : state.Fits)
    (hnew : h.shard sh = state ∧ (!choice) = true → w.pack = new) :
    (if h.shard sh = state ∧ !choice then (h.setShard sh w, fs) else (h, gs)).1.shardWords =
      Instr.write choice h.shardWords (some (sh, .compareExchangeWeak state.pack new)) := by
  have hinj : h.shardWords sh = state.pack ↔ h.shard sh = state := ShardWord.pack_inj hfit hstate
  by_cases hcas : h.shard sh = state ∧ (!choice) = true
  · rw [if_pos hcas, shardWords_setShard, hnew hcas, Instr.write, Instr.apply,
      if_pos (hcas.imp_left hinj.mpr)]
  · rw [if_neg hcas, Instr.write, Instr.apply, if_neg (mt (And.imp_left hinj.mp) hcas),
      Function.update_eq_self]

theorem nodeWords_cas {w state : NodeWord} {new : U64} {fs gs : List Frame}
    (hfit : (h.state n).Fits) (hstate : state.Fits) (hnew : h.state n = state → w.pack = new) :
    (if h.state n = state then (h.setState n w, fs) else (h, gs)).1.nodeWords =
      Instr.write choice h.nodeWords (some (n, .compareExchange state.pack new)) := by
  have hinj : h.nodeWords n = state.pack ↔ h.state n = state := NodeWord.pack_inj hfit hstate
  by_cases hcas : h.state n = state
  · rw [if_pos hcas, nodeWords_setState, hnew hcas, Instr.write, Instr.apply, if_pos (hinj.mpr hcas)]
  · rw [if_neg hcas, Instr.write, Instr.apply, if_neg (mt hinj.mp hcas), Function.update_eq_self]

theorem nodeWords_casWeak {w state : NodeWord} {new : U64} {fs gs : List Frame}
    (hfit : (h.state n).Fits) (hstate : state.Fits)
    (hnew : h.state n = state ∧ (!choice) = true → w.pack = new) :
    (if h.state n = state ∧ !choice then (h.setState n w, fs) else (h, gs)).1.nodeWords =
      Instr.write choice h.nodeWords (some (n, .compareExchangeWeak state.pack new)) := by
  have hinj : h.nodeWords n = state.pack ↔ h.state n = state := NodeWord.pack_inj hfit hstate
  by_cases hcas : h.state n = state ∧ (!choice) = true
  · rw [if_pos hcas, nodeWords_setState, hnew hcas, Instr.write, Instr.apply,
      if_pos (hcas.imp_left hinj.mpr)]
  · rw [if_neg hcas, Instr.write, Instr.apply, if_neg (mt (And.imp_left hinj.mp) hcas),
      Function.update_eq_self]

/-- Only a frame with an instruction on a word writes it. -/
theorem ShardWrite.shardInstr {f : Frame} {w : ShardWord} (hw : ShardWrite h sh f w) :
    ∃ i, f.shardInstr = some (sh, i) := by
  cases hw with
  | cloneAdd shard => exact shard ▸ ⟨_, rfl⟩
  | drop shard => exact shard ▸ ⟨_, rfl⟩
  | _ => exact ⟨_, rfl⟩

theorem NodeWrite.nodeInstr {f : Frame} {w : NodeWord} (hw : NodeWrite h n f w) :
    ∃ i, f.nodeInstr h = some (n, i) := by
  cases hw with
  | count root => exact ⟨.fetchAdd 1, by simp [Frame.nodeInstr, Heap.isRoot, root]⟩
  | _ => exact ⟨_, rfl⟩

/-- The count that a frame takes from is positive. -/
def Frame.NoBorrow (h : Heap) : Frame → Prop
  | .depart (.shard sh unit) => 0 < (h.shard sh).count unit
  | .depart (.node n) => 0 < (h.state n).shards
  | .guard (.drop g) => 0 < (h.shard g.shard).locals
  | _ => True

theorem noBorrow_of_enabled {f : Frame} (hs : Sound h (f ::ₘ K)) (he : discipline.Enabled f K) :
    f.NoBorrow h := by
  cases f with
  | depart f =>
      cases f with
      | shard t unit =>
          have hpos := ahead_pos he hs.ledger (a := unit.account t) (bit_of rfl)
          cases unit <;> simp only [CountUnit.account, Heap.ahead] at hpos <;>
            simp only [Frame.NoBorrow, ShardWord.count] <;> omega
      | node m =>
          have hpos := ahead_pos he hs.ledger (a := .shards m) (bit_of rfl)
          simp only [Heap.ahead] at hpos
          simp only [Frame.NoBorrow]
          omega
      | _ => trivial
  | guard f =>
      cases f with
      | drop g =>
          have hpos := ahead_pos he hs.ledger (a := .locals g.shard) (bit_of rfl)
          simp only [Heap.ahead] at hpos
          simp only [Frame.NoBorrow]
          omega
      | _ => trivial
  | _ => trivial

theorem shardWords_exec {f : Frame} (hs : Sound h (f ::ₘ K)) (he : discipline.Enabled f K)
    (hh : WordsFit h) (hh' : WordsFit (exec index choice h f).1) (hload : f.LoadFits) :
    (exec index choice h f).1.shardWords = Instr.write choice h.shardWords f.shardInstr := by
  have hno := noBorrow_of_enabled hs he
  by_cases hf : f.shardInstr = none
  · have hsame : (exec index choice h f).1.shard = h.shard := by
      funext t
      rcases shardWrite_of_exec index choice h t f with hsame | hwrite
      · exact hsame
      · obtain ⟨i, hi⟩ := hwrite.shardInstr
        rw [hf] at hi
        cases hi
    simp only [hf, Instr.write]
    unfold Heap.shardWords
    rw [hsame]
  cases f with
  | arrive f =>
      cases f with
      | shardAdd t unit state =>
          refine shardWords_casWeak (hh.shard t) hload fun hcas => ?_
          have hfit := hh'.shard t
          simp only [exec, execArrive, if_pos hcas, Heap.setShard, Function.update_self] at hfit
          exact ShardWord.pack_add hfit
      | shardCas t unit state =>
          refine shardWords_cas _ _ _ _ _ (hh.shard t) hload fun _ => ?_
          obtain ⟨hl, hk⟩ := hs.ledger.loaded (Multiset.mem_cons_self _ K)
          exact ShardWord.pack_arrive hl hk
      | _ => exact absurd rfl hf
  | depart f =>
      cases f with
      | shard t unit =>
          rw [exec, execDepart, shardWords_setShard, ShardWord.pack_sub (hh.shard t) hno]
          rfl
      | flush t =>
          have hflush := shardWords_cas choice .flushed stoppedBit
            [.depart (.node t.node)] [] (hh.shard t)
            (show ShardWord.emptied.Fits by decide) fun _ => ShardWord.pack_flushed
          rw [ShardWord.pack_emptied] at hflush
          exact hflush
      | _ => exact absurd rfl hf
  | stop f =>
      cases f with
      | shard t =>
          rw [exec, execStop, shardWords_setShard, ShardWord.pack_stop]
          rfl
      | _ => exact absurd rfl hf
  | guard f =>
      cases f with
      | forShardAdd t location state =>
          refine shardWords_casWeak (hh.shard t) hload fun hcas => ?_
          have hfit := hh'.shard t
          simp only [exec, execGuard, if_pos hcas, Heap.setShard, Function.update_self] at hfit
          exact ShardWord.pack_add hfit
      | cloneAdd g info =>
          have hfit := hh'.shard g.shard
          simp only [exec, execGuard, Heap.setShard, Function.update_self] at hfit
          rw [exec, execGuard, shardWords_setShard, ShardWord.pack_add hfit]
          rfl
      | drop g =>
          rw [exec, execGuard, shardWords_setShard,
            ShardWord.pack_sub (u := .localOne) (hh.shard g.shard) hno]
          rfl
      | _ => exact absurd rfl hf
  | _ => exact absurd rfl hf

theorem nodeWords_exec {f : Frame} (hs : Sound h (f ::ₘ K)) (he : discipline.Enabled f K)
    (hh : WordsFit h) (hh' : WordsFit (exec index choice h f).1) (hload : f.LoadFits) :
    (exec index choice h f).1.nodeWords = Instr.write choice h.nodeWords (f.nodeInstr h) := by
  have hno := noBorrow_of_enabled hs he
  have hvalid := hs.valid.frames f (Multiset.mem_cons_self _ K)
  by_cases hf : f.nodeInstr h = none
  · have hsame : (exec index choice h f).1.state = h.state := by
      funext m
      rcases nodeWrite_of_exec index choice h m f with hsame | hwrite
      · exact hsame
      · obtain ⟨i, hi⟩ := hwrite.nodeInstr
        rw [hf] at hi
        cases hi
    simp only [hf, Instr.write]
    unfold Heap.nodeWords
    rw [hsame]
  cases f with
  | arrive f =>
      cases f with
      | node m =>
          rcases hp : h.parent m with _ | p
          · have hfit := hh'.state m
            simp only [exec, execArrive, hp, Heap.setState, Function.update_self] at hfit
            simp only [exec, execArrive, hp, Frame.nodeInstr, Heap.isRoot, Option.isNone_none, if_true]
            rw [nodeWords_setState, NodeWord.pack_add hfit]
            rfl
          · exact absurd (by simp [Frame.nodeInstr, Heap.isRoot, hp]) hf
      | nodeAdd m parent state =>
          refine nodeWords_casWeak (hh.state m) hload fun hcas => ?_
          have hfit := hh'.state m
          simp only [exec, execArrive, if_pos hcas, Heap.setState, Function.update_self] at hfit
          exact NodeWord.pack_add hfit
      | nodeCas m up state =>
          refine nodeWords_cas (hh.state m) hload fun hcas => ?_
          obtain ⟨⟨hm, j, hp⟩, hup, ha⟩ := hvalid
          obtain ⟨hshards, hparent⟩ := hs.valid.wf.unarrived hp (by rw [hcas]; exact ha)
          rw [hcas] at hshards hparent
          have hfit := hh'.state m
          simp only [exec, execArrive, if_pos hcas, Heap.setState, Function.update_self] at hfit
          have hindex : up.index < 2 ^ 16 := by simpa [NodeWord.arriveAt, hparent] using hfit.2
          exact NodeWord.pack_arriveAt hshards hparent hindex
      | _ => exact absurd rfl hf
  | depart f =>
      cases f with
      | node m =>
          rw [exec, execDepart, nodeWords_setState, NodeWord.pack_sub (hh.state m) hno]
          rfl
      | nodeCas m parent state =>
          exact nodeWords_cas (hh.state m) hload fun _ => NodeWord.pack_depart
      | _ => exact absurd rfl hf
  | stop f =>
      cases f with
      | node m =>
          rw [exec, execStop, nodeWords_setState, NodeWord.pack_stop]
          rfl
      | _ => exact absurd rfl hf
  | _ => exact absurd rfl hf

end Swansong
