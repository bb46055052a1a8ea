import Swansong.Lib.Ranking
import Swansong.Walks

/-!
# Ranks

Each frame has a rank, and each step pays with a level of it.  A compare-and-swap that
fails was overtaken by a write, which paid for the retry; arrivals, departures and
collections go up the tree, to lower levels, and stops and walks go down it, where the
nodes that may still be allocated are bounded beforehand.

## Main definitions

* `Frame.rank` — the rank of a frame.
* `Heap.Disturbs` — a step changes the ranks of other frames below a level only.
* `Frame.Moves` — the steps that may be made: no weak compare-and-swap fails without cause,
  and no thread that blocks goes on unnotified.
* `pays_exec` — each such step pays.
* `terminates` — no run of such steps goes on for ever.
-/

namespace Swansong

open Interleave (UpTo)

variable {index a B : ℕ} {choice : Bool} {h h' : Heap} {n m c : NodeId} {sh : ShardId}

/-! ## Levels -/

namespace Level

/-- A notification, a wake, or a return. -/
def last : ℕ := 1

/-- To read a node's word again, to write it, and the same for the words of its shards. -/
def nodeRead (n : NodeId) : ℕ := 4 * n + 2
def nodeWrite (n : NodeId) : ℕ := 4 * n + 3
def shardRead (n : NodeId) : ℕ := 4 * n + 4
def shardWrite (n : NodeId) : ℕ := 4 * n + 5

/-- To drop a reference to a node, which may collect it and go on to its parent. -/
def dropArc (B : ℕ) (n : NodeId) : ℕ := 4 * B + 6 + n

/-- To look for a node's children at one of its shards, and to visit the node. -/
def children (B : ℕ) (n : NodeId) : ℕ := 5 * B + 6 + 2 * (B - n)
def visit (B : ℕ) (n : NodeId) : ℕ := children B n + 1

/-- A point of a function that calls others, `k` points before its end. -/
def call (B k : ℕ) : ℕ := 7 * B + 8 + k

end Level

/-! ## Ranks -/

def ArriveFrame.rank (h : Heap) : ArriveFrame → Multiset ℕ
  | .shard sh _ => {Level.shardWrite sh.node, Level.shardRead sh.node}
  | .shardAdd sh _ w | .shardCas sh _ w =>
      {Level.shardWrite sh.node} + if h.shard sh = w then 0 else {Level.shardRead sh.node}
  | .node n => {Level.nodeWrite n, Level.nodeRead n}
  | .nodeAdd n _ w | .nodeCas n _ w =>
      {Level.nodeWrite n} + if h.state n = w then 0 else {Level.nodeRead n}

def DepartFrame.rank : DepartFrame → Multiset ℕ
  | .shard sh _ => {Level.shardWrite sh.node, Level.shardWrite sh.node}
  | .flush sh => {Level.shardWrite sh.node}
  | .node n => {Level.nodeWrite n, Level.nodeWrite n}
  | .nodeCas n _ _ => {Level.nodeWrite n}

def StopFrame.rank (B : ℕ) (h : Heap) : StopFrame → Multiset ℕ
  | .node n => {Level.visit B n}
  | .shard sh => .replicate 3 (Level.shardWrite sh.node)
  | .drain sh _ => .replicate 2 (Level.shardWrite sh.node)
  | .wake _ _ => {Level.last}
  | .liveChildren n i _ => .replicate (h.shardCount n - i + 1) (Level.children B n)

def LifeFrame.rank (B : ℕ) : LifeFrame → Multiset ℕ
  | .dropArc n => {Level.dropArc B n}
  | .cloneHandle _ | .dropHandle _ => {Level.call B 1}
  | .deregister _ | .cloneArc _ | .release _ | .shutDownReturn _ => {Level.last}

def ChildFrame.rank (B : ℕ) : ChildFrame → Multiset ℕ
  | .new _ => {Level.call B 5}
  | .alloc _ _ => {Level.call B 4}
  | .register _ => {Level.call B 3}
  | .storeKey _ _ => {Level.call B 2}
  | .check _ => {Level.call B 1}
  | .done _ => {Level.last}

def GuardFrame.rank (B : ℕ) (h : Heap) : GuardFrame → Multiset ℕ
  | .forShard _ _ => {Level.call B 4}
  | .forShardAdd sh _ w =>
      {Level.call B 3, Level.shardWrite sh.node} +
        if h.shard sh = w then 0 else {Level.shardRead sh.node}
  | .upgrade _ _ | .clone _ => {Level.call B 3}
  | .new _ _ | .cloneAdd _ _ | .drop _ => {Level.call B 2}
  | .forShardFinish _ _ | .finish _ _ _ _ | .flushUpgrade _ => {Level.call B 1}
  | .release _ | .dropInfo _ | .dropValue _ _ => {Level.last}

/-- How many checks a wait on the listener may still make. -/
def Heap.parkCost (h : Heap) (l : ListenerId) : ℕ := if (h.listeners l).notified then 8 else 1

/-- How many steps a wait may still make. -/
def WaitFrame.cost (h : Heap) : WaitFrame → ℕ
  | .create _ _ _ => 0
  | .stopped o _ => (o.listener.map h.parkCost).getD 5 + 2
  | .zero o _ => (o.listener.map h.parkCost).getD 5 + 1
  | .listen _ _ => 5
  | .stoppedAgain _ l _ => h.parkCost l + 2
  | .zeroAgain _ l _ => h.parkCost l + 1
  | .park _ l _ => h.parkCost l

/-- What is left to do when a wait returns. -/
def WaitFrame.returns (B : ℕ) : WaitFrame → Multiset ℕ
  | .create _ _ _ => {Level.call B 1}
  | .stopped o b | .zero o b | .listen o b | .stoppedAgain o _ b | .zeroAgain o _ b | .park o _ b =>
      if b then {Level.dropArc B o.node} else 0

def WaitFrame.rank (B : ℕ) (h : Heap) (w : WaitFrame) : Multiset ℕ :=
  w.returns B + .replicate (w.cost h) 0

def PollFrame.rank (B : ℕ) : PollFrame → Multiset ℕ
  | .poll _ _ => {Level.call B 3}
  | .wrapped _ _ => {Level.call B 2}
  | .registered _ _ | .register _ _ | .drop _ => {Level.call B 1}

def WalkItem.rank (B : ℕ) (h : Heap) : WalkItem → Multiset ℕ
  | .node n => {Level.visit B n}
  | .shard _ => {Level.last}
  | .children n i _ => .replicate (h.shardCount n - i + 1) (Level.children B n)
  | .release c => {Level.last, Level.dropArc B c}

/-- The rank of a frame, if no more than `B` nodes will be allocated. -/
def Frame.rank (B : ℕ) (h : Heap) : Frame → Multiset ℕ
  | .arrive f => f.rank h
  | .depart f => f.rank
  | .stop f => f.rank B h
  | .notify _ _ => {Level.last}
  | .life f => f.rank B
  | .child f => f.rank B
  | .guard f => f.rank B h
  | .wait f => f.rank B h
  | .poll f => f.rank B
  | .walk _ todo _ _ => {Level.call B 1} + (todo : Multiset WalkItem).bind (WalkItem.rank B h)

/-! ## What a step does to the ranks of other frames -/

/-- A step changes the words and the listeners that others rely on below a level only. -/
structure Heap.Disturbs (a : ℕ) (h h' : Heap) : Prop where
  shard : ∀ sh, h'.shard sh = h.shard sh ∨ Level.shardRead sh.node < a
  state : ∀ n, h'.state n = h.state n ∨ Level.nodeRead n < a
  listeners : ∀ l < h.nextListener, h'.listeners l = h.listeners l ∨ 0 < a
  shardCount : ∀ n < h.size, h'.shardCount n = h.shardCount n

namespace Heap.Disturbs

theorem of_eq (hshard : h'.shard = h.shard) (hstate : h'.state = h.state)
    (hlisteners : h'.listeners = h.listeners) (hcount : h'.shardCount = h.shardCount) :
    h.Disturbs a h' :=
  ⟨fun _ => .inl (by rw [hshard]), fun _ => .inl (by rw [hstate]),
    fun _ _ => .inl (by rw [hlisteners]), fun _ _ => by rw [hcount]⟩

theorem refl (h : Heap) : h.Disturbs a h := .of_eq rfl rfl rfl rfl

theorem setShard {w : ShardWord} (ha : Level.shardRead sh.node < a) : h.Disturbs a (h.setShard sh w) := by
  refine ⟨fun s => ?_, fun _ => .inl rfl, fun _ _ => .inl rfl, fun _ _ => rfl⟩
  by_cases hs : s = sh
  · exact .inr (hs ▸ ha)
  · exact .inl (Function.update_of_ne hs _ _)

theorem setState {w : NodeWord} (ha : Level.nodeRead n < a) : h.Disturbs a (h.setState n w) := by
  refine ⟨fun _ => .inl rfl, fun m => ?_, fun _ _ => .inl rfl, fun _ _ => rfl⟩
  by_cases hm : m = n
  · exact .inr (hm ▸ ha)
  · exact .inl (Function.update_of_ne hm _ _)

end Heap.Disturbs

theorem upTo_stale {ω : Type} [DecidableEq ω] {x y w : ω} {k : ℕ} (hx : y = x ∨ k < a) :
    UpTo a (if x = w then 0 else {k}) (if y = w then (0 : Multiset ℕ) else {k}) := by
  rcases hx with rfl | hk
  · exact .refl _
  · refine .of_lt fun z hz => ?_
    split at hz
    · cases hz
    · rwa [Multiset.mem_singleton.mp hz]

/-- The cost of a wait depends on the listener it has. -/
theorem cost_of_disturbs (hd : h.Disturbs a h') {w : WaitFrame} (hv : (Frame.wait w).Valid h) :
    w.cost h' = w.cost h ∨ 0 < a := by
  by_cases ha : 0 < a
  · exact .inr ha
  · left
    have hpark : ∀ l < h.nextListener, h'.parkCost l = h.parkCost l := by
      intro l hl
      rw [Heap.parkCost, Heap.parkCost, (hd.listeners l hl).resolve_right ha]
    have hstored : ∀ o : Observer, h.ObserverOk o →
        (o.listener.map h'.parkCost).getD 5 = (o.listener.map h.parkCost).getD 5 := by
      intro o ho
      cases hl : o.listener with
      | none => rfl
      | some l => simp [hpark l (ho.2 l hl).1]
    cases w with
    | create event n b => rfl
    | stopped o b => simp only [WaitFrame.cost, hstored o hv]
    | zero o b => simp only [WaitFrame.cost, hstored o hv.1]
    | listen o b => rfl
    | stoppedAgain o l b => simp only [WaitFrame.cost, hpark l hv.2.1]
    | zeroAgain o l b => simp only [WaitFrame.cost, hpark l hv.2.1.1]
    | park o l b => exact hpark l hv.2.1

theorem upTo_rank (hd : h.Disturbs a h') {g : Frame} (hv : g.Valid h) :
    UpTo a (g.rank B h) (g.rank B h') := by
  cases g with
  | arrive f =>
      cases f with
      | shardAdd sh u w => exact (UpTo.refl _).add (upTo_stale (hd.shard sh))
      | shardCas sh u w => exact (UpTo.refl _).add (upTo_stale (hd.shard sh))
      | nodeAdd n p w => exact (UpTo.refl _).add (upTo_stale (hd.state n))
      | nodeCas n p w => exact (UpTo.refl _).add (upTo_stale (hd.state n))
      | _ => exact .refl _
  | stop f =>
      cases f with
      | liveChildren n i acc =>
          refine .of_le (le_of_eq ?_)
          simp only [Frame.rank, StopFrame.rank, hd.shardCount n hv.1]
      | _ => exact .refl _
  | guard f =>
      cases f with
      | forShardAdd sh location w => exact (UpTo.refl _).add (upTo_stale (hd.shard sh))
      | _ => exact .refl _
  | wait f =>
      refine (UpTo.refl _).add ?_
      rcases cost_of_disturbs hd hv with he | ha
      · rw [he]
        exact .refl _
      · refine .of_lt fun y hy => ?_
        rwa [Multiset.eq_of_mem_replicate hy]
  | walk report todo total out =>
      refine (UpTo.refl _).add (.of_le (le_of_eq ?_))
      refine Multiset.bind_congr fun item hi => ?_
      have hitem := hv item hi
      cases item with
      | children n i acc => simp only [WalkItem.rank, hd.shardCount n hitem.1]
      | _ => rfl
  | _ => exact .refl _

/-! ## What a step pays -/

theorem Heap.Wf.lt_of_isChild (hw : h.Wf) (hc : h.IsChild c m) : m < c := by
  obtain ⟨-, j, hp⟩ := hc
  exact (hw.parent hp).2.1

/-- The steps that may be made: a weak compare-and-swap fails only if the word has changed,
and a thread that blocks goes on only when it was notified. -/
def Frame.Moves (h : Heap) (choice : Bool) : Frame → Prop
  | .arrive (.shardAdd sh _ w) | .guard (.forShardAdd sh _ w) => h.shard sh = w → choice = false
  | .arrive (.nodeAdd n _ w) => h.state n = w → choice = false
  | .wait (.park _ l true) => (h.listeners l).notified = true
  | _ => True

/-- The ranks of the frames that a step pushes. -/
def ranks (B : ℕ) (h : Heap) (fs : List Frame) : Multiset ℕ := (fs : Multiset Frame).bind (Frame.rank B h)

@[simp] theorem ranks_nil : ranks B h [] = 0 := Multiset.zero_bind _

@[simp] theorem ranks_cons {f : Frame} {fs : List Frame} :
    ranks B h (f :: fs) = f.rank B h + ranks B h fs := by
  rw [ranks, ← Multiset.cons_coe, Multiset.cons_bind, ranks]

@[simp] theorem ranks_append {fs gs : List Frame} :
    ranks B h (fs ++ gs) = ranks B h fs + ranks B h gs := by
  rw [ranks, ← Multiset.coe_add, Multiset.add_bind, ranks, ranks]

theorem mem_ranks {fs : List Frame} : a ∈ ranks B h fs ↔ ∃ g ∈ fs, a ∈ g.rank B h := by
  simp [ranks]

/-- A step pays with a level of its frame. -/
def Frame.Pays (B : ℕ) (h : Heap) (f : Frame) (r : Heap × List Frame) : Prop :=
  ∃ a ∈ f.rank B h, UpTo a ((f.rank B h).erase a) (ranks B r.1 r.2) ∧ h.Disturbs a r.1

/-- Everything that the step pushes is below the level. -/
theorem Frame.Pays.of_lt {f : Frame} {r : Heap × List Frame} (ha : a ∈ f.rank B h)
    (hpush : ∀ g ∈ r.2, ∀ y ∈ g.rank B r.1, y < a) (hd : h.Disturbs a r.1) : f.Pays B h r := by
  refine ⟨a, ha, .of_lt fun y hy => ?_, hd⟩
  obtain ⟨g, hg, hy⟩ := mem_ranks.mp hy
  exact hpush g hg y hy

section
attribute [local simp] Level.last Level.nodeRead Level.nodeWrite Level.shardRead Level.shardWrite
  Level.dropArc Level.children Level.visit Level.call Frame.rank ArriveFrame.rank DepartFrame.rank

theorem upTo_arriveNext {unit : CountUnit} : UpTo (Level.shardRead sh.node) {Level.shardWrite sh.node}
    (ranks B h (arriveNext sh unit (h.shard sh))) := by
  unfold arriveNext
  split
  · simpa using UpTo.refl _
  · simp only [ranks_cons, ranks_nil, Frame.rank, ArriveFrame.rank, add_zero, if_true]
    rw [add_comm]
    refine (UpTo.refl _).add_lt fun y hy => ?_
    simp at hy ⊢
    omega

theorem upTo_nodeArriveNext (hlt : m < n) : UpTo (Level.nodeRead n) {Level.nodeWrite n}
    (ranks B h (nodeArriveNext index h' n m (h.state n))) := by
  unfold nodeArriveNext
  split
  · simpa using UpTo.refl _
  · simp only [ranks_cons, ranks_nil, Frame.rank, ArriveFrame.rank, add_zero, if_true]
    rw [add_comm]
    refine (UpTo.refl _).add_lt fun y hy => ?_
    simp at hy ⊢
    lia

theorem pays_arrive {f : ArriveFrame} (hw : h.Wf) (hv : (Frame.arrive f).Valid h)
    (hm : (Frame.arrive f).Moves h choice) :
    (Frame.arrive f).Pays B h (execArrive index choice h f) := by
  cases f with
  | shard sh unit =>
      refine ⟨Level.shardRead sh.node, by simp, ?_, .refl h⟩
      simpa [execArrive] using upTo_arriveNext
  | shardAdd sh unit w =>
      by_cases he : h.shard sh = w
      · have hr : execArrive index choice h (.shardAdd sh unit w) = (h.setShard sh (w.add unit), []) :=
          if_pos ⟨he, by simp [hm he]⟩
        rw [hr]
        exact .of_lt (a := Level.shardWrite sh.node) (by simp) (by simp) (.setShard (by simp))
      · have hr : execArrive index choice h (.shardAdd sh unit w) = (h, arriveNext sh unit (h.shard sh)) :=
          if_neg fun hc => he hc.1
        rw [hr]
        refine ⟨Level.shardRead sh.node, by simp [he], ?_, .refl h⟩
        simpa [he] using upTo_arriveNext
  | shardCas sh unit w =>
      by_cases he : h.shard sh = w
      · have hr : execArrive index choice h (.shardCas sh unit w) = (h.setShard sh (w.arrive unit), []) :=
          if_pos he
        rw [hr]
        exact .of_lt (a := Level.shardWrite sh.node) (by simp) (by simp) (.setShard (by simp))
      · have hr : execArrive index choice h (.shardCas sh unit w) =
            (h, .depart (.node sh.node) :: arriveNext sh unit (h.shard sh)) := if_neg he
        rw [hr]
        refine ⟨Level.shardRead sh.node, by simp [he], ?_, .refl h⟩
        have hlow : ∀ y ∈ Frame.rank B h (.depart (.node sh.node)), y < Level.shardRead sh.node := by
          simp
        rw [ranks_cons, add_comm]
        simpa [he] using upTo_arriveNext.add_lt hlow
  | node n =>
      cases hp : h.parent n with
      | none =>
          have hr : execArrive index choice h (.node n) = (h.setState n (h.state n).add, []) := by
            simp only [execArrive, hp]
          rw [hr]
          exact .of_lt (a := Level.nodeWrite n) (by simp) (by simp) (.setState (by simp))
      | some q =>
          have hr : execArrive index choice h (.node n) =
              (h, nodeArriveNext index h n q.node (h.state n)) := by simp only [execArrive, hp]
          rw [hr]
          refine ⟨Level.nodeRead n, by simp, ?_, .refl h⟩
          simpa using upTo_nodeArriveNext (hw.parent hp).2.1
  | nodeAdd n p w =>
      by_cases he : h.state n = w
      · have hr : execArrive index choice h (.nodeAdd n p w) = (h.setState n w.add, []) :=
          if_pos ⟨he, by simp [hm he]⟩
        rw [hr]
        exact .of_lt (a := Level.nodeWrite n) (by simp) (by simp) (.setState (by simp))
      · have hr : execArrive index choice h (.nodeAdd n p w) =
            (h, nodeArriveNext index h n p (h.state n)) := if_neg fun hc => he hc.1
        rw [hr]
        refine ⟨Level.nodeRead n, by simp [he], ?_, .refl h⟩
        simpa [he] using upTo_nodeArriveNext (hw.lt_of_isChild hv.1)
  | nodeCas n up w =>
      by_cases he : h.state n = w
      · have hr : execArrive index choice h (.nodeCas n up w) =
            (h.setState n (w.arriveAt up.index), []) := if_pos he
        rw [hr]
        exact .of_lt (a := Level.nodeWrite n) (by simp) (by simp) (.setState (by simp))
      · have hr : execArrive index choice h (.nodeCas n up w) =
            (h, .depart (.shard up .kidsOne) :: nodeArriveNext index h n up.node (h.state n)) :=
          if_neg he
        rw [hr]
        refine ⟨Level.nodeRead n, by simp [he], ?_, .refl h⟩
        have hlow : ∀ y ∈ Frame.rank B h (.depart (.shard up .kidsOne)), y < Level.nodeRead n := by
          have hlt := hw.lt_of_isChild hv.1
          simp
          lia
        rw [ranks_cons, add_comm]
        simpa [he] using (upTo_nodeArriveNext (hw.lt_of_isChild hv.1)).add_lt hlow

theorem pays_depart {f : DepartFrame} (hw : h.Wf) (hv : (Frame.depart f).Valid h) :
    (Frame.depart f).Pays B h (execDepart h f) := by
  cases f with
  | shard sh unit =>
      refine ⟨Level.shardWrite sh.node, by simp, ?_, .setShard (by simp)⟩
      refine .of_le ?_
      simp only [execDepart]
      split <;> simp
  | flush sh =>
      simp only [execDepart]
      split
      · exact .of_lt (a := Level.shardWrite sh.node) (by simp) (by simp) (.setShard (by simp))
      · exact .of_lt (a := Level.shardWrite sh.node) (by simp) (by simp) (.of_eq rfl rfl rfl rfl)
  | node n =>
      refine ⟨Level.nodeWrite n, by simp, ?_, .setState (by simp)⟩
      simp only [execDepart]
      split
      · exact .zero
      · rw [ranks_append, add_comm]
        refine UpTo.add_lt ?_ ?_
        · refine .of_le ?_
          cases h.parent n <;> simp
        · split <;> simp
  | nodeCas n p w =>
      have hlt : p < n := hw.lt_of_isChild hv.1
      simp only [execDepart]
      split
      · refine .of_lt (a := Level.nodeWrite n) (by simp) ?_ (.setState (by simp))
        simp
        lia
      · exact .of_lt (a := Level.nodeWrite n) (by simp) (by simp) (.of_eq rfl rfl rfl rfl)

theorem pays_notify {e : Event} : (Frame.notify e n).Pays B h (execNotify h e n) :=
  .of_lt (a := Level.last) (by simp) (by simp [execNotify])
    ⟨fun _ => .inl rfl, fun _ => .inl rfl, fun _ _ => .inr (by simp), fun _ _ => rfl⟩

theorem pays_stop {f : StopFrame} (hw : h.Wf) (hB : h.size ≤ B) (hv : (Frame.stop f).Valid h) :
    (Frame.stop f).Pays B h (execStop h f) := by
  cases f with
  | node n =>
      have hn : n < h.size := hv
      refine .of_lt (a := Level.visit B n) (by simp [StopFrame.rank]) ?_ (.setState (by simp; lia))
      intro g hg y hy
      simp only [execStop] at hg
      split at hg
      · cases hg
      · simp only [List.mem_append, stopShards, List.mem_map, Heap.shards, List.mem_cons,
          List.not_mem_nil, or_false] at hg
        rcases hg with (⟨sh, ⟨j, -, rfl⟩, rfl⟩ | rfl | rfl) | hg
        · simp [StopFrame.rank] at hy ⊢
          lia
        · simp at hy ⊢
          lia
        · have he : y = Level.children B n := Multiset.eq_of_mem_replicate hy
          simp [he]
        · split at hg
          · obtain rfl := List.mem_singleton.mp hg
            simp at hy ⊢
            lia
          · cases hg
  | shard sh =>
      refine ⟨Level.shardWrite sh.node, by simp [StopFrame.rank], .of_le ?_, .setShard (by simp)⟩
      simp [execStop, StopFrame.rank]
  | drain sh empty =>
      refine ⟨Level.shardWrite sh.node, by simp [StopFrame.rank], ?_, .of_eq rfl rfl rfl rfl⟩
      simp only [execStop, ranks_append]
      rw [add_comm]
      refine UpTo.add_lt (.of_le ?_) fun y hy => ?_
      · split <;> simp [StopFrame.rank]
      · obtain ⟨g, hg, hy⟩ := mem_ranks.mp hy
        obtain ⟨w, -, rfl⟩ := List.mem_map.mp hg
        simp [StopFrame.rank] at hy ⊢
        lia
  | wake sh w =>
      exact .of_lt (a := Level.last) (by simp [StopFrame.rank]) (by simp [execStop]) (.of_eq rfl rfl rfl rfl)
  | liveChildren n i acc =>
      obtain ⟨hn, -, hacc⟩ := hv
      have ha : Level.children B n ∈ (Frame.stop (.liveChildren n i acc)).rank B h := by
        simp [StopFrame.rank]
      simp only [execStop]
      split
      · rename_i hi
        refine ⟨_, ha, .of_le ?_, .of_eq rfl rfl rfl rfl⟩
        simp only [ranks_cons, ranks_nil, Frame.rank, StopFrame.rank, add_zero, upgradeAll,
          Multiset.replicate_succ, Multiset.erase_cons_head]
        rw [show h.shardCount n - i = h.shardCount n - (i + 1) + 1 by omega, Multiset.replicate_succ]
      · refine .of_lt ha ?_ (.of_eq rfl rfl rfl rfl)
        intro g hg y hy
        obtain ⟨c, hc, hg⟩ := List.mem_flatMap.mp hg
        have hlt : n < c := hw.lt_of_isChild (hacc c hc)
        have hcs : c < h.size := (hacc c hc).1
        simp only [List.mem_cons, List.not_mem_nil, or_false] at hg
        rcases hg with rfl | rfl
        · simp [StopFrame.rank] at hy ⊢
          lia
        · simp [LifeFrame.rank] at hy ⊢
          lia

theorem pays_life {f : LifeFrame} (hw : h.Wf) (hB : h.size ≤ B) (hv : (Frame.life f).Valid h) :
    (Frame.life f).Pays B h (execLife h f) := by
  cases f with
  | dropArc n =>
      refine .of_lt (a := Level.dropArc B n) (by simp [LifeFrame.rank]) ?_ (.of_eq rfl rfl rfl rfl)
      intro g hg y hy
      have hn : n < h.size := hv
      simp only [execLife] at hg
      split at hg
      · rcases List.mem_append.mp hg with hg | hg
        · simp only [stopShards, List.mem_map, Heap.shards] at hg
          obtain ⟨sh, ⟨j, -, rfl⟩, rfl⟩ := hg
          simp [StopFrame.rank] at hy ⊢
          lia
        · rcases hp : h.parent n with _ | p
          · simp [hp] at hg
          · have hlt : p.node < n := (hw.parent hp).2.1
            simp only [hp, List.mem_cons, List.not_mem_nil, or_false] at hg
            rcases hg with rfl | rfl
            · simp [LifeFrame.rank] at hy ⊢
              lia
            · simp [LifeFrame.rank] at hy ⊢
              lia
      · cases hg
  | deregister n =>
      simp only [execLife]
      split <;> exact .of_lt (a := Level.last) (by simp [LifeFrame.rank]) (by simp) (.of_eq rfl rfl rfl rfl)
  | dropHandle n =>
      refine .of_lt (a := Level.call B 1) (by simp [LifeFrame.rank]) ?_ (.of_eq rfl rfl rfl rfl)
      intro g hg y hy
      have hn : n < h.size := hv
      rcases List.mem_append.mp hg with hg | hg
      · split at hg
        · obtain rfl := List.mem_singleton.mp hg
          simp [StopFrame.rank] at hy ⊢
          lia
        · cases hg
      · obtain rfl := List.mem_singleton.mp hg
        simp [LifeFrame.rank] at hy ⊢
        lia
  | cloneHandle n =>
      exact .of_lt (a := Level.call B 1) (by simp [LifeFrame.rank]) (by simp [execLife, LifeFrame.rank])
        (.of_eq rfl rfl rfl rfl)
  | cloneArc n | release n | shutDownReturn n =>
      exact .of_lt (a := Level.last) (by simp [LifeFrame.rank]) (by simp [execLife]) (.of_eq rfl rfl rfl rfl)

theorem pays_child {f : ChildFrame} : (Frame.child f).Pays B h (execChild index h f) := by
  cases f with
  | new p =>
      exact .of_lt (a := Level.call B 5) (by simp [ChildFrame.rank]) (by simp [execChild, ChildFrame.rank])
        (.of_eq rfl rfl rfl rfl)
  | alloc p shard =>
      refine .of_lt (a := Level.call B 4) (by simp [ChildFrame.rank]) (by simp [execChild, ChildFrame.rank]) ?_
      exact ⟨fun _ => .inl rfl, fun _ => .inl rfl, fun _ _ => .inl rfl,
        fun n hn => Function.update_of_ne hn.ne _ _⟩
  | register c =>
      simp only [execChild]
      split <;>
        exact .of_lt (a := Level.call B 3) (by simp [ChildFrame.rank]) (by simp [ChildFrame.rank])
          (.of_eq rfl rfl rfl rfl)
  | storeKey c key =>
      exact .of_lt (a := Level.call B 2) (by simp [ChildFrame.rank]) (by simp [execChild, ChildFrame.rank])
        (.of_eq rfl rfl rfl rfl)
  | check c =>
      simp only [execChild]
      split
      · exact .of_lt (a := Level.call B 1) (by simp [ChildFrame.rank]) (by simp) (.of_eq rfl rfl rfl rfl)
      · refine .of_lt (a := Level.call B 1) (by simp [ChildFrame.rank]) ?_ (.of_eq rfl rfl rfl rfl)
        intro g hg y hy
        rcases List.mem_append.mp hg with hg | hg
        · split at hg
          · obtain rfl := List.mem_singleton.mp hg
            simp [StopFrame.rank] at hy ⊢
            lia
          · cases hg
        · obtain rfl := List.mem_singleton.mp hg
          simp [ChildFrame.rank] at hy ⊢
          lia
  | done c =>
      exact .of_lt (a := Level.last) (by simp [ChildFrame.rank]) (by simp [execChild]) (.of_eq rfl rfl rfl rfl)

theorem pays_poll {f : PollFrame} : (Frame.poll f).Pays B h (execPoll choice h f) := by
  cases f with
  | poll i w =>
      simp only [execPoll]
      split <;>
        exact .of_lt (a := Level.call B 3) (by simp [PollFrame.rank])
          (by simp [pollReturn, PollFrame.rank]) (.of_eq rfl rfl rfl rfl)
  | wrapped i w =>
      simp only [execPoll]
      split
      · exact .of_lt (a := Level.call B 2) (by simp [PollFrame.rank]) (by simp [pollReturn])
          (.of_eq rfl rfl rfl rfl)
      · refine .of_lt (a := Level.call B 2) (by simp [PollFrame.rank]) ?_ (.of_eq rfl rfl rfl rfl)
        split <;> simp [PollFrame.rank]
  | registered i w =>
      exact .of_lt (a := Level.call B 1) (by simp [PollFrame.rank]) (by simp [execPoll, pollReturn])
        (.of_eq rfl rfl rfl rfl)
  | register i w =>
      simp only [execPoll]
      split <;>
        exact .of_lt (a := Level.call B 1) (by simp [PollFrame.rank]) (by simp [pollReturn])
          (.of_eq rfl rfl rfl rfl)
  | drop i =>
      exact .of_lt (a := Level.call B 1) (by simp [PollFrame.rank]) (by simp [execPoll])
        (.of_eq rfl rfl rfl rfl)

theorem upTo_forShardNext {location : Location} : UpTo (Level.shardRead sh.node)
    {Level.call B 3, Level.shardWrite sh.node} (ranks B h (forShardNext sh location (h.shard sh))) := by
  unfold forShardNext
  split
  · simpa [GuardFrame.rank] using UpTo.refl _
  · exact .of_le (by simp [GuardFrame.rank])

theorem disturbs_provenance {location : Location} : h.Disturbs a (provenance h sh location).1 := by
  unfold provenance
  split <;> exact .of_eq rfl rfl rfl rfl

theorem pays_guard {f : GuardFrame} (hB : h.size ≤ B) (hv : (Frame.guard f).Valid h)
    (hm : (Frame.guard f).Moves h choice) :
    (Frame.guard f).Pays B h (execGuard index choice h f) := by
  cases f with
  | new n location =>
      have hn : n < h.size := hv
      refine .of_lt (a := Level.call B 2) (by simp [GuardFrame.rank]) ?_ disturbs_provenance
      simp [execGuard, GuardFrame.rank]
      lia
  | finish sh pin location info =>
      refine .of_lt (a := Level.call B 1) (by simp [GuardFrame.rank]) (by simp [execGuard]) ?_
      cases pin <;> exact .of_eq rfl rfl rfl rfl
  | forShard sh location =>
      have hn : sh.node < h.size := hv.1
      refine .of_lt (a := Level.call B 4) (by simp [GuardFrame.rank]) ?_ (.of_eq rfl rfl rfl rfl)
      intro g hg y hy
      simp only [execGuard, forShardNext] at hg
      split at hg
      · split at hg
        · obtain rfl := List.mem_singleton.mp hg
          simp [GuardFrame.rank, execGuard] at hy ⊢
          lia
        · obtain rfl := List.mem_singleton.mp hg
          simp [GuardFrame.rank] at hy ⊢
          lia
      · obtain rfl := List.mem_singleton.mp hg
        simp [GuardFrame.rank] at hy ⊢
        lia
  | forShardAdd sh location w =>
      have hn : sh.node < h.size := hv.1.1
      by_cases he : h.shard sh = w
      · have hr : execGuard index choice h (.forShardAdd sh location w) =
            (h.setShard sh (w.add .localOne), [.guard (.forShardFinish sh location)]) := by
          simp [execGuard, he, hm he]
        rw [hr]
        exact .of_lt (a := Level.call B 3) (by simp [GuardFrame.rank]) (by simp [GuardFrame.rank])
          (.setShard (by simp; lia))
      · have hr : execGuard index choice h (.forShardAdd sh location w) =
            (h, forShardNext sh location (h.shard sh)) := if_neg fun hc => he hc.1
        rw [hr]
        refine ⟨Level.shardRead sh.node, by simp [GuardFrame.rank, he], ?_, .of_eq rfl rfl rfl rfl⟩
        have hrank : (Frame.guard (.forShardAdd sh location w)).rank B h =
            Level.shardRead sh.node ::ₘ {Level.call B 3, Level.shardWrite sh.node} := by
          simp only [Frame.rank, GuardFrame.rank, if_neg he, Multiset.insert_eq_cons]
          exact add_comm _ _
        rw [hrank, Multiset.erase_cons_head]
        exact upTo_forShardNext
  | forShardFinish sh location =>
      refine .of_lt (a := Level.call B 1) (by simp [GuardFrame.rank]) (by simp [execGuard]) ?_
      simp only [execGuard, provenance]
      split <;> exact .of_eq rfl rfl rfl rfl
  | upgrade sh location =>
      have hn : sh.node < h.size := hv.1
      simp only [execGuard]
      split
      · refine .of_lt (a := Level.call B 3) (by simp [GuardFrame.rank]) ?_ (.of_eq rfl rfl rfl rfl)
        simp [GuardFrame.rank, LifeFrame.rank]
        lia
      · exact .of_lt (a := Level.call B 3) (by simp [GuardFrame.rank]) (by simp) (.of_eq rfl rfl rfl rfl)
  | clone g =>
      exact .of_lt (a := Level.call B 3) (by simp [GuardFrame.rank]) (by simp [execGuard, GuardFrame.rank])
        disturbs_provenance
  | cloneAdd g info =>
      have hn : g.shard.node < h.size := hv.1.1
      refine .of_lt (a := Level.call B 2) (by simp [GuardFrame.rank]) (by simp [execGuard, GuardFrame.rank]) ?_
      exact .setShard (by simp; lia)
  | drop g =>
      have hn : g.shard.node < h.size := hv.1.1
      refine .of_lt (a := Level.call B 2) (by simp [GuardFrame.rank]) ?_ (.setShard (by simp; lia))
      intro f hf y hy
      simp only [execGuard, List.mem_append] at hf
      rcases hf with (hf | hf) | hf
      · split at hf
        · split at hf
          · obtain rfl := List.mem_singleton.mp hf
            simp at hy ⊢
            lia
          · obtain rfl := List.mem_singleton.mp hf
            simp [GuardFrame.rank] at hy ⊢
            lia
        · cases hf
      · split at hf
        · obtain rfl := List.mem_singleton.mp hf
          simp [LifeFrame.rank] at hy ⊢
          lia
        · cases hf
      · split at hf
        · cases hf
        · obtain rfl := List.mem_singleton.mp hf
          simp [GuardFrame.rank] at hy ⊢
          lia
  | flushUpgrade sh =>
      have hn : sh.node < h.size := hv.1.1
      simp only [execGuard]
      split
      · refine .of_lt (a := Level.call B 1) (by simp [GuardFrame.rank]) ?_ (.of_eq rfl rfl rfl rfl)
        simp [LifeFrame.rank]
        lia
      · exact .of_lt (a := Level.call B 1) (by simp [GuardFrame.rank]) (by simp) (.of_eq rfl rfl rfl rfl)
  | release g | dropInfo id | dropValue w g =>
      exact .of_lt (a := Level.last) (by simp [GuardFrame.rank]) (by simp [execGuard])
        (.of_eq rfl rfl rfl rfl)

/-- A step of a wait that goes on costs less from there on. -/
theorem pays_wait_of {f : WaitFrame} {r : Heap × List Frame} {k : ℕ} (hcost : f.cost h = k + 1)
    (hpush : ranks B r.1 r.2 ≤ f.returns B + .replicate k 0) (hd : h.Disturbs 0 r.1) :
    (Frame.wait f).Pays B h r := by
  have hrank : (Frame.wait f).rank B h = 0 ::ₘ (f.returns B + .replicate k 0) := by
    rw [Frame.rank, WaitFrame.rank, hcost, Multiset.replicate_succ, Multiset.add_cons]
  refine ⟨0, hrank ▸ Multiset.mem_cons_self 0 _, .of_le ?_, hd⟩
  rw [hrank, Multiset.erase_cons_head]
  exact hpush

/-- A wait that is over has only its reference to drop. -/
theorem pays_waitReady {f : WaitFrame} {o : Observer} {b : Bool} {k : ℕ} (hcost : f.cost h = k + 1)
    (hreturns : f.returns B = if b then {Level.dropArc B o.node} else 0) :
    (Frame.wait f).Pays B h (waitReady h o b) := by
  refine pays_wait_of hcost ?_ ?_
  · rw [hreturns]
    cases b <;> simp [waitReady, LifeFrame.rank]
  · cases b <;> exact .of_eq rfl rfl rfl rfl

theorem ranks_wait {w : WaitFrame} : ranks B h [.wait w] = w.returns B + .replicate (w.cost h) 0 := by
  simp [WaitFrame.rank]

theorem replicate_le {j k : ℕ} (hjk : j ≤ k) {M : Multiset ℕ} : M + .replicate j 0 ≤ M + .replicate k 0 :=
  add_le_add le_rfl (Multiset.replicate_le_replicate 0 |>.mpr hjk)

theorem ranks_waitNext {o : Observer} {b : Bool} : ranks B h (waitNext o b) =
    (if b then {Level.dropArc B o.node} else 0) +
      .replicate ((o.listener.map h.parkCost).getD 5) 0 := by
  unfold waitNext
  split
  · rename_i hl
    rw [ranks_wait, hl]
    rfl
  · rename_i l hl
    rw [ranks_wait, hl]
    rfl

theorem parkCost_pos {l : ListenerId} : 0 < h.parkCost l := by
  unfold Heap.parkCost
  split <;> simp

theorem pays_wait {f : WaitFrame} (hB : h.size ≤ B) (hv : (Frame.wait f).Valid h)
    (hm : (Frame.wait f).Moves h choice) : (Frame.wait f).Pays B h (execWait h f) := by
  cases f with
  | create event n b =>
      have hn : n < h.size := hv
      have ha : Level.call B 1 ∈ (Frame.wait (.create event n b)).rank B h := by
        simp [WaitFrame.rank, WaitFrame.returns]
      cases b with
      | true =>
          refine .of_lt ha ?_ (.of_eq rfl rfl rfl rfl)
          intro g hg y hy
          obtain rfl := List.mem_singleton.mp hg
          rcases Multiset.mem_add.mp hy with hy | hy
          · obtain rfl := Multiset.mem_singleton.mp hy
            simp
            lia
          · obtain rfl := Multiset.eq_of_mem_replicate hy
            simp
      | false => exact .of_lt ha (by simp [execWait]) (.of_eq rfl rfl rfl rfl)
  | stopped o b =>
      simp only [execWait]
      split
      · cases o.event with
        | zero => exact pays_wait_of rfl (by rw [ranks_wait]; exact replicate_le (by simp [WaitFrame.cost])) (.refl h)
        | stop => exact pays_waitReady rfl rfl
      · refine pays_wait_of rfl ?_ (.refl h)
        rw [ranks_waitNext]
        exact replicate_le (Nat.le_succ _)
  | zero o b =>
      simp only [execWait]
      split
      · exact pays_waitReady rfl rfl
      · refine pays_wait_of rfl ?_ (.refl h)
        rw [ranks_waitNext]
        exact le_rfl
  | listen o b =>
      refine pays_wait_of rfl ?_ ⟨fun _ => .inl rfl, fun _ => .inl rfl, fun l hl => ?_, fun _ _ => rfl⟩
      · simp only [execWait, ranks_wait]
        exact replicate_le (by simp [WaitFrame.cost, Heap.parkCost])
      · exact .inl (Function.update_of_ne hl.ne _ _)
  | stoppedAgain o l b =>
      simp only [execWait]
      split
      · cases o.event with
        | zero => exact pays_wait_of rfl (by rw [ranks_wait]; exact replicate_le (by simp [WaitFrame.cost])) (.refl h)
        | stop => exact pays_waitReady rfl rfl
      · refine pays_wait_of rfl ?_ (.refl h)
        rw [ranks_wait]
        exact replicate_le (Nat.le_succ _)
  | zeroAgain o l b =>
      simp only [execWait]
      split
      · exact pays_waitReady rfl rfl
      · refine pays_wait_of rfl ?_ (.refl h)
        rw [ranks_wait]
        exact le_rfl
  | park o l b =>
      obtain ⟨k, hk⟩ : ∃ k, h.parkCost l = k + 1 := Nat.exists_eq_add_one.mpr parkCost_pos
      by_cases hn : (h.listeners l).notified = true
      · have hr : execWait h (.park o l b) = (h, [.wait (.stopped { o with listener := none } b)]) :=
          if_pos hn
        rw [hr]
        refine pays_wait_of hk ?_ (.refl h)
        rw [ranks_wait]
        refine replicate_le ?_
        have hcost : h.parkCost l = 8 := if_pos hn
        simp [WaitFrame.cost]
        omega
      · cases b with
        | true => exact absurd hm hn
        | false =>
            simp only [execWait, if_neg hn]
            exact pays_wait_of hk (by simp) (.of_eq rfl rfl rfl rfl)

/-! ## Walks -/

theorem rank_walk_cons {report : Bool} {item : WalkItem} {todo : List WalkItem} {total : ℕ}
    {out : List InfoId} : (Frame.walk report (item :: todo) total out).rank B h =
      item.rank B h + (Frame.walk report todo total out).rank B h := by
  simp only [Frame.rank, ← Multiset.cons_coe, Multiset.cons_bind]
  rw [add_left_comm]

theorem rank_walk_append {report : Bool} {items todo : List WalkItem} {total : ℕ} {out : List InfoId} :
    (Frame.walk report (items ++ todo) total out).rank B h =
      (items : Multiset WalkItem).bind (WalkItem.rank B h) +
        (Frame.walk report todo total out).rank B h := by
  simp only [Frame.rank, ← Multiset.coe_add, Multiset.add_bind]
  rw [add_left_comm]

/-- A step of a walk pays with a level of its first item. -/
theorem pays_walk_of {report : Bool} {item : WalkItem} {todo : List WalkItem} {total : ℕ}
    {out : List InfoId} {fs : List Frame} {M : Multiset ℕ} (ha : a ∈ item.rank B h)
    (hpush : ranks B h' fs = M + (Frame.walk report todo total out).rank B h)
    (hM : UpTo a ((item.rank B h).erase a) M) (hd : h.Disturbs a h') :
    (Frame.walk report (item :: todo) total out).Pays B h (h', fs) := by
  refine ⟨a, rank_walk_cons ▸ Multiset.mem_add.mpr (.inl ha), ?_, hd⟩
  rw [rank_walk_cons, Multiset.erase_add_left_pos _ ha, hpush]
  exact hM.add (.refl _)

theorem mem_bind_visitAll {report : Bool} {cs : List NodeId} {y : ℕ}
    (hy : y ∈ (visitAll report cs : Multiset WalkItem).bind (WalkItem.rank B h)) :
    ∃ c ∈ cs, y = Level.visit B c ∨ y = Level.last ∨ y = Level.dropArc B c := by
  obtain ⟨item, hitem, hy⟩ := Multiset.mem_bind.mp hy
  rcases mem_visitAll (Multiset.mem_coe.mp hitem) with ⟨c, hc, rfl | rfl⟩
  · exact ⟨c, hc, .inl (by simpa [WalkItem.rank] using hy)⟩
  · exact ⟨c, hc, .inr (by simpa [WalkItem.rank] using hy)⟩

theorem pays_walk {report : Bool} {todo : List WalkItem} {total : ℕ} {out : List InfoId} (hw : h.Wf)
    (hB : h.size ≤ B) (hv : (Frame.walk report todo total out).Valid h) :
    (Frame.walk report todo total out).Pays B h (execWalk h report total out todo) := by
  cases todo with
  | nil =>
      refine .of_lt (a := Level.call B 1) (by simp) ?_ (.of_eq rfl rfl rfl rfl)
      intro g hg y hy
      simp only [execWalk] at hg
      split at hg
      · obtain ⟨id, -, rfl⟩ := List.mem_map.mp hg
        simp [GuardFrame.rank] at hy ⊢
        lia
      · cases hg
  | cons item todo =>
      have hitem : item.Valid h := hv item List.mem_cons_self
      cases item with
      | node n =>
          have hn : n < h.size := hitem
          refine pays_walk_of (a := Level.visit B n)
            (M := (((h.shards n).map WalkItem.shard : List WalkItem) : Multiset WalkItem).bind (WalkItem.rank B h) +
              (WalkItem.children n 0 []).rank B h) (by simp [WalkItem.rank]) ?_
            (.of_lt fun y hy => ?_) (.of_eq rfl rfl rfl rfl)
          · simp only [ranks_cons, ranks_nil, rank_walk_append, rank_walk_cons, add_zero]
            rw [add_assoc]
          · rcases Multiset.mem_add.mp hy with hy | hy
            · obtain ⟨item, hitem, hy⟩ := Multiset.mem_bind.mp hy
              obtain ⟨sh, -, rfl⟩ := List.mem_map.mp (Multiset.mem_coe.mp hitem)
              simp [WalkItem.rank] at hy ⊢
              lia
            · have he : y = Level.children B n := Multiset.eq_of_mem_replicate hy
              simp [he]
      | shard sh =>
          simp only [execWalk]
          split
          · exact pays_walk_of (a := Level.last) (M := 0) (by simp [WalkItem.rank]) (by simp [Frame.rank]; rfl) .zero
              (.of_eq rfl rfl rfl rfl)
          · exact pays_walk_of (a := Level.last) (M := 0) (by simp [WalkItem.rank]) (by simp [Frame.rank]) .zero
              (.of_eq rfl rfl rfl rfl)
      | children n i acc =>
          obtain ⟨hn, hacc⟩ := hitem
          have ha : Level.children B n ∈ (WalkItem.children n i acc).rank B h := by simp [WalkItem.rank]
          simp only [execWalk]
          split
          · rename_i hi
            refine pays_walk_of ha (by rw [ranks_cons, rank_walk_cons, ranks_nil, add_zero]; rfl) (.of_le ?_)
              (.of_eq rfl rfl rfl rfl)
            simp only [WalkItem.rank, upgradeAll, Multiset.replicate_succ, Multiset.erase_cons_head]
            rw [show h.shardCount n - i = h.shardCount n - (i + 1) + 1 by omega, Multiset.replicate_succ]
          · refine pays_walk_of ha (by rw [ranks_cons, rank_walk_append, ranks_nil, add_zero])
              (.of_lt fun y hy => ?_) (.of_eq rfl rfl rfl rfl)
            obtain ⟨c, hc, hy⟩ := mem_bind_visitAll hy
            have hlt : n < c := hw.lt_of_isChild (hacc c hc)
            have hcs : c < h.size := (hacc c hc).1
            simp at hy ⊢
            lia
      | release c =>
          refine pays_walk_of (a := Level.last) (M := {Level.dropArc B c}) (by simp [WalkItem.rank]) ?_ (.of_le ?_)
            (.of_eq rfl rfl rfl rfl)
          · simp [LifeFrame.rank]
          · simp [WalkItem.rank]

end

/-! ## Every step pays -/

theorem pays_exec {f : Frame} (hw : h.Wf) (hB : h.size ≤ B) (hv : f.Valid h) (hm : f.Moves h choice) :
    f.Pays B h (exec index choice h f) := by
  cases f with
  | arrive f => exact pays_arrive hw hv hm
  | depart f => exact pays_depart hw hv
  | stop f => exact pays_stop hw hB hv
  | notify event n => exact pays_notify
  | life f => exact pays_life hw hB hv
  | child f => exact pays_child
  | guard f => exact pays_guard hB hv hm
  | wait f => exact pays_wait hB hv hm
  | poll f => exact pays_poll
  | walk report todo total out => exact pays_walk hw hB hv

/-- How many nodes the frame may still allocate. -/
def Frame.allocates : Frame → ℕ
  | .child (.new _) | .child (.alloc _ _) => 1
  | _ => 0

/-- How many nodes there will be once the calls in flight have returned. -/
def nodesAhead (h : Heap) (fr : Multiset Frame) : ℕ := h.size + (fr.map Frame.allocates).sum

theorem size_exec_of_not_child {f : Frame} (hf : ∀ g, f ≠ .child g) :
    (exec index choice h f).1.size = h.size := by
  cases f with
  | arrive f => obtain ⟨_, _, he⟩ := execArrive_heap index choice h f; rw [exec, he]
  | depart f => obtain ⟨_, _, he⟩ := execDepart_heap h f; rw [exec, he]
  | stop f => obtain ⟨_, _, _, _, _, _, he⟩ := execStop_heap h f; rw [exec, he]
  | notify event n => rfl
  | life f => obtain ⟨_, _, _, _, _, _, he⟩ := execLife_heap h f; rw [exec, he]
  | child g => exact absurd rfl (hf g)
  | guard f => obtain ⟨_, _, _, _, _, _, _, _, he⟩ := execGuard_heap index choice h f; rw [exec, he]
  | wait f => obtain ⟨_, _, _, _, he⟩ := execWait_heap h f; rw [exec, he]
  | poll f => obtain ⟨_, _, he⟩ := execPoll_heap choice h f; rw [exec, he]
  | walk report todo total out =>
      obtain ⟨_, _, _, he⟩ := execWalk_heap h report total out todo
      rw [exec, he]

/-- What a call will allocate is counted from its start. -/
theorem nodesAhead_exec {f : Frame} {K : Multiset Frame} :
    nodesAhead (exec index choice h f).1 (↑(exec index choice h f).2 + K) = nodesAhead h (f ::ₘ K) := by
  have hstep : (exec index choice h f).1.size + ((exec index choice h f).2.map Frame.allocates).sum =
      h.size + f.allocates := by
    by_cases hf : ∃ g, f = .child g
    · obtain ⟨g, rfl⟩ := hf
      cases g <;> simp only [exec, execChild] <;> (repeat' split) <;> simp [Frame.allocates]
    · push Not at hf
      have hsum : ((exec index choice h f).2.map Frame.allocates).sum = 0 := by
        refine List.sum_eq_zero fun x hx => ?_
        obtain ⟨g, hg, rfl⟩ := List.mem_map.mp hx
        cases g with
        | child g =>
            obtain ⟨g', he⟩ := child_of_mem_exec hg
            exact absurd he (hf g')
        | _ => rfl
      have hnone : f.allocates = 0 := by
        cases f with
        | child g => exact absurd rfl (hf g)
        | _ => rfl
      rw [size_exec_of_not_child hf, hsum, hnone]
  simp only [nodesAhead, Multiset.map_add, Multiset.sum_add, Multiset.map_cons, Multiset.sum_cons,
    Multiset.map_coe, Multiset.sum_coe]
  omega

/-- **Every run of the calls in flight ends.**  Without new calls, and if no weak
compare-and-swap fails without cause, no schedule goes on for ever. -/
theorem terminates {s : State} (hr : Reachable s) :
    machine.Terminates (Interleave.Machine.Moves Frame.Moves) s := by
  refine Interleave.Machine.terminates_of_pays (Frame.rank (nodesAhead s.mem s.frames)) discipline
    (I := fun s' => nodesAhead s'.mem s'.frames = nodesAhead s.mem s.frames) ?_ ?_ hr rfl
  · rintro s₁ s₂ a hr₁ hI ⟨i, b, f, rfl, htop, -⟩ hs
    obtain ⟨j, b', index, K, he, -, hfr, hmem, hfr'⟩ := discipline.step_of_top hr₁ hs htop
    rw [← hI, hfr, hmem, hfr']
    exact nodesAhead_exec
  · intro s₁ index b f K hr₁ hI hfr hmay
    have hv := valid_reach hr₁
    have hB : s₁.mem.size ≤ nodesAhead s.mem s.frames := hI ▸ Nat.le_add_right _ _
    have hf : f.Valid s₁.mem := hv.frames f (by simp [hfr])
    have hpays : f.Pays _ s₁.mem (exec index b s₁.mem f) := pays_exec hv.wf hB hf hmay
    obtain ⟨a, ha, hpush, hd⟩ := hpays
    refine ⟨a, ha, hpush, fun g hg => upTo_rank hd (hv.frames g ?_)⟩
    rw [hfr]
    exact Multiset.mem_cons_of_mem hg

end Swansong
