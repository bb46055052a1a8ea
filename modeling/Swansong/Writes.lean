import Swansong.Touch

/-!
# What a step writes into a word

The word of a node or of a shard changes in a handful of ways, each made by one
program point: a count goes up or down, an arrival or a departure is recorded, a
stop bit is set.  A compare-and-swap writes only the word it was given, which is
then the word that is there.

## Main definitions

* `NodeWrite`, `nodeWrite_of_exec` — the writes of a node's word.
* `ShardWrite`, `shardWrite_of_exec` — the writes of a shard's word.
-/

namespace Swansong

variable {index : ℕ} {choice : Bool} {h : Heap} {n : NodeId} {sh : ShardId}

/-- The frame writes the node's word, to the word given. -/
inductive NodeWrite (h : Heap) (n : NodeId) : Frame → NodeWord → Prop
  | count (root : h.parent n = none) : NodeWrite h n (.arrive (.node n)) (h.state n).add
  | add {parent : NodeId} :
      NodeWrite h n (.arrive (.nodeAdd n parent (h.state n))) (h.state n).add
  | arrive {up : ShardId} :
      NodeWrite h n (.arrive (.nodeCas n up (h.state n))) ((h.state n).arriveAt up.index)
  | sub : NodeWrite h n (.depart (.node n)) (h.state n).sub
  | depart {parent : NodeId} :
      NodeWrite h n (.depart (.nodeCas n parent (h.state n))) (h.state n).depart
  | stop : NodeWrite h n (.stop (.node n)) (h.state n).stop

/-- The frame writes the shard's word, to the word given. -/
inductive ShardWrite (h : Heap) (sh : ShardId) : Frame → ShardWord → Prop
  | add {unit : CountUnit} :
      ShardWrite h sh (.arrive (.shardAdd sh unit (h.shard sh))) ((h.shard sh).add unit)
  | arrive {unit : CountUnit} :
      ShardWrite h sh (.arrive (.shardCas sh unit (h.shard sh))) ((h.shard sh).arrive unit)
  | sub {unit : CountUnit} : ShardWrite h sh (.depart (.shard sh unit)) ((h.shard sh).sub unit)
  | flush (empty : h.shard sh = .emptied) : ShardWrite h sh (.depart (.flush sh)) .flushed
  | stop : ShardWrite h sh (.stop (.shard sh)) (h.shard sh).stop
  | forShardAdd {location : Location} : ShardWrite h sh
      (.guard (.forShardAdd sh location (h.shard sh))) ((h.shard sh).add .localOne)
  | cloneAdd {g : Guard} {info : Option InfoId} (shard : g.shard = sh) :
      ShardWrite h sh (.guard (.cloneAdd g info)) ((h.shard sh).add .localOne)
  | drop {g : Guard} (shard : g.shard = sh) :
      ShardWrite h sh (.guard (.drop g)) ((h.shard sh).sub .localOne)

/-- Writing the word of some node writes this one's if it is this node. -/
theorem nodeWrite_setState {f : Frame} {m : NodeId} {w : NodeWord}
    (hw : m = n → NodeWrite h n f w) :
    (h.setState m w).state n = h.state n ∨ NodeWrite h n f ((h.setState m w).state n) := by
  by_cases hm : m = n
  · right
    subst hm
    simpa using hw rfl
  · left
    simp [Ne.symm hm]

/-- Writing the word of some shard writes this one's if it is this shard. -/
theorem shardWrite_setShard {f : Frame} {s : ShardId} {w : ShardWord}
    (hw : s = sh → ShardWrite h sh f w) :
    (h.setShard s w).shard sh = h.shard sh ∨ ShardWrite h sh f ((h.setShard s w).shard sh) := by
  by_cases hs : s = sh
  · right
    subst hs
    simpa using hw rfl
  · left
    simp [Ne.symm hs]

theorem nodeWrite_execArrive {f : ArriveFrame} :
    (execArrive index choice h f).1.state n = h.state n ∨
      NodeWrite h n (.arrive f) ((execArrive index choice h f).1.state n) := by
  cases f with
  | node m =>
      simp only [execArrive]
      split
      · rename_i hroot
        apply nodeWrite_setState
        rintro rfl
        exact .count hroot
      · exact .inl rfl
  | nodeAdd m parent state =>
      simp only [execArrive]
      split
      · rename_i hcas
        obtain ⟨rfl, -⟩ := hcas
        apply nodeWrite_setState
        rintro rfl
        exact .add
      · exact .inl rfl
  | nodeCas m up state =>
      simp only [execArrive]
      split
      · rename_i hcas
        subst hcas
        apply nodeWrite_setState
        rintro rfl
        exact .arrive
      · exact .inl rfl
  | _ =>
      left
      first
        | rfl
        | simp only [execArrive]; (repeat' split) <;> rfl

theorem nodeWrite_execDepart {f : DepartFrame} :
    (execDepart h f).1.state n = h.state n ∨
      NodeWrite h n (.depart f) ((execDepart h f).1.state n) := by
  cases f with
  | node m =>
      simp only [execDepart]
      apply nodeWrite_setState
      rintro rfl
      exact .sub
  | nodeCas m parent state =>
      simp only [execDepart]
      split
      · rename_i hcas
        subst hcas
        apply nodeWrite_setState
        rintro rfl
        exact .depart
      · exact .inl rfl
  | _ =>
      left
      first
        | rfl
        | simp only [execDepart]; (repeat' split) <;> rfl

theorem nodeWrite_execStop {f : StopFrame} :
    (execStop h f).1.state n = h.state n ∨
      NodeWrite h n (.stop f) ((execStop h f).1.state n) := by
  cases f with
  | node m =>
      simp only [execStop]
      apply nodeWrite_setState
      rintro rfl
      exact .stop
  | _ =>
      left
      first
        | rfl
        | simp only [execStop]; (repeat' split) <;> rfl

variable (index choice h n) in
/-- A step leaves a node's word alone or writes it. -/
theorem nodeWrite_of_exec (f : Frame) :
    (exec index choice h f).1.state n = h.state n ∨
      NodeWrite h n f ((exec index choice h f).1.state n) := by
  cases f with
  | arrive f => exact nodeWrite_execArrive
  | depart f => exact nodeWrite_execDepart
  | stop f => exact nodeWrite_execStop
  | _ => exact .inl (congrFun (state_exec rfl) n)

theorem shardWrite_execArrive {f : ArriveFrame} :
    (execArrive index choice h f).1.shard sh = h.shard sh ∨
      ShardWrite h sh (.arrive f) ((execArrive index choice h f).1.shard sh) := by
  cases f with
  | shardAdd s unit state =>
      simp only [execArrive]
      split
      · rename_i hcas
        obtain ⟨rfl, -⟩ := hcas
        apply shardWrite_setShard
        rintro rfl
        exact .add
      · exact .inl rfl
  | shardCas s unit state =>
      simp only [execArrive]
      split
      · rename_i hcas
        subst hcas
        apply shardWrite_setShard
        rintro rfl
        exact .arrive
      · exact .inl rfl
  | _ =>
      left
      first
        | rfl
        | simp only [execArrive]; (repeat' split) <;> rfl

theorem shardWrite_execDepart {f : DepartFrame} :
    (execDepart h f).1.shard sh = h.shard sh ∨
      ShardWrite h sh (.depart f) ((execDepart h f).1.shard sh) := by
  cases f with
  | shard s unit =>
      simp only [execDepart]
      apply shardWrite_setShard
      rintro rfl
      exact .sub
  | flush s =>
      simp only [execDepart]
      split
      · rename_i hempty
        apply shardWrite_setShard
        rintro rfl
        exact .flush hempty
      · exact .inl rfl
  | _ =>
      left
      first
        | rfl
        | simp only [execDepart]; (repeat' split) <;> rfl

theorem shardWrite_execStop {f : StopFrame} :
    (execStop h f).1.shard sh = h.shard sh ∨
      ShardWrite h sh (.stop f) ((execStop h f).1.shard sh) := by
  cases f with
  | shard s =>
      simp only [execStop]
      apply shardWrite_setShard
      rintro rfl
      exact .stop
  | _ =>
      left
      first
        | rfl
        | simp only [execStop]; (repeat' split) <;> rfl

theorem shardWrite_execGuard {f : GuardFrame} :
    (execGuard index choice h f).1.shard sh = h.shard sh ∨
      ShardWrite h sh (.guard f) ((execGuard index choice h f).1.shard sh) := by
  cases f with
  | forShardAdd s location state =>
      simp only [execGuard]
      split
      · rename_i hcas
        obtain ⟨rfl, -⟩ := hcas
        apply shardWrite_setShard
        rintro rfl
        exact .forShardAdd
      · exact .inl rfl
  | cloneAdd g info =>
      simp only [execGuard]
      apply shardWrite_setShard
      rintro rfl
      exact .cloneAdd rfl
  | drop g =>
      simp only [execGuard]
      apply shardWrite_setShard
      rintro rfl
      exact .drop rfl
  | _ =>
      left
      first
        | rfl
        | simp only [execGuard, provenance, returnGuard]; (repeat' split) <;> rfl

variable (index choice h sh) in
/-- A step leaves a shard's word alone or writes it. -/
theorem shardWrite_of_exec (f : Frame) :
    (exec index choice h f).1.shard sh = h.shard sh ∨
      ShardWrite h sh f ((exec index choice h f).1.shard sh) := by
  cases f with
  | arrive f => exact shardWrite_execArrive
  | depart f => exact shardWrite_execDepart
  | stop f => exact shardWrite_execStop
  | guard f => exact shardWrite_execGuard
  | _ => exact .inl (congrFun (shard_exec rfl) sh)

end Swansong
