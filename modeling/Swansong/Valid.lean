import Swansong.Growth
import Swansong.Stacks

/-!
# Allocated nodes

Every pointer in the memory and in a frame is to an allocated node or to one of its
shards, parents have smaller ids than their children, and a location that was never
allocated holds what its constructor would put there.

## Main definitions

* `Heap.Wf` — what holds of the memory by itself.
* `Frame.Valid` — what holds of a frame in flight, and stays so as the memory grows.
* `Valid`, `valid_reach` — the invariant.
-/

namespace Swansong

variable {index : ℕ} {choice : Bool} {h h' : Heap} {n m c p : NodeId} {sh : ShardId}

/-- `c` is an allocated child of `p`. -/
def Heap.IsChild (h : Heap) (c p : NodeId) : Prop := c < h.size ∧ ∃ i, h.parent c = some ⟨p, i⟩

/-- The guard is on an allocated shard, and pins its node exactly if that is a child. -/
def Heap.GuardOk (h : Heap) (g : Guard) : Prop :=
  h.HasShard g.shard ∧ g.pin = !h.isRoot g.shard.node

/-- The listener was created for the observer. -/
def Heap.ListenerOk (h : Heap) (o : Observer) (l : ListenerId) : Prop :=
  l < h.nextListener ∧ (h.listeners l).event = o.event ∧ (h.listeners l).node = o.node

def Heap.ObserverOk (h : Heap) (o : Observer) : Prop :=
  o.node < h.size ∧ ∀ l, o.listener = some l → h.ListenerOk o l

/-- What holds of a point of a walk. -/
def WalkItem.Valid (h : Heap) : WalkItem → Prop
  | .node n => n < h.size
  | .shard sh => h.HasShard sh
  | .children n _ acc => n < h.size ∧ ∀ c ∈ acc, h.IsChild c n
  | .release c => c < h.size

/-- What holds of a frame in flight. -/
def Frame.Valid (h : Heap) : Frame → Prop
  | .arrive (.shard sh _) => h.HasShard sh
  | .arrive (.shardAdd sh _ state) => h.HasShard sh ∧ state.arrived = true
  | .arrive (.shardCas sh _ state) => h.HasShard sh ∧ state.arrived = false ∧
      (state.stopped = true → (h.shard sh).stopped = true)
  | .arrive (.node n) => n < h.size
  | .arrive (.nodeAdd n parent state) => h.IsChild n parent ∧ state.arrived = true
  | .arrive (.nodeCas n up state) =>
      h.IsChild n up.node ∧ h.HasShard up ∧ state.arrived = false
  | .depart (.shard sh _) => h.HasShard sh
  | .depart (.flush sh) => h.HasShard sh
  | .depart (.node n) => n < h.size
  | .depart (.nodeCas n parent state) =>
      h.IsChild n parent ∧ state.shards = 0 ∧ h.HasShard ⟨parent, state.parentShard⟩
  | .stop (.node n) => n < h.size
  | .stop (.shard sh) => h.HasShard sh
  | .stop (.drain sh _) => h.HasShard sh ∧ (h.shard sh).stopped = true
  | .stop (.wake sh _) => h.HasShard sh ∧ (h.shard sh).stopped = true
  | .stop (.liveChildren n _ acc) =>
      n < h.size ∧ (h.state n).stopped = true ∧ ∀ c ∈ acc, h.IsChild c n
  | .notify _ n => n < h.size
  | .life (.dropArc n) | .life (.cloneHandle n) | .life (.cloneArc n) | .life (.dropHandle n)
  | .life (.release n) | .life (.shutDownReturn n) => n < h.size
  | .life (.deregister n) => ∃ p, h.IsChild n p
  | .child (.new p) => p < h.size
  | .child (.alloc p shard) => h.HasShard ⟨p, shard⟩
  | .child (.register c) | .child (.storeKey c _) | .child (.check c) | .child (.done c) =>
      ∃ p, h.IsChild c p
  | .guard (.new n _) => n < h.size
  | .guard (.finish sh pin _ _) => h.HasShard sh ∧ pin = !h.isRoot sh.node
  | .guard (.forShard sh _) | .guard (.upgrade sh _) => h.HasShard sh
  | .guard (.forShardAdd sh _ state) =>
      h.HasShard sh ∧ h.isRoot sh.node = true ∧ state.arrived = true
  | .guard (.forShardFinish sh _) | .guard (.flushUpgrade sh) =>
      h.HasShard sh ∧ h.isRoot sh.node = true
  | .guard (.clone g) | .guard (.cloneAdd g _) | .guard (.release g) | .guard (.drop g)
  | .guard (.dropValue _ g) => h.GuardOk g
  | .guard (.dropInfo _) => True
  | .wait (.create _ n _) => n < h.size
  | .wait (.stopped o _) | .wait (.listen o _) => h.ObserverOk o
  | .wait (.zero o _) =>
      h.ObserverOk o ∧ o.event = .zero ∧ (h.state o.node).stopped = true
  | .wait (.stoppedAgain o l _) | .wait (.park o l _) => h.ObserverOk o ∧ h.ListenerOk o l
  | .wait (.zeroAgain o l _) =>
      h.ObserverOk o ∧ h.ListenerOk o l ∧ o.event = .zero ∧ (h.state o.node).stopped = true
  | .poll (.poll i _) | .poll (.wrapped i _) | .poll (.registered i _) | .poll (.register i _)
  | .poll (.drop i) => h.HasShard i.shard
  | .walk _ todo _ _ => ∀ item ∈ todo, item.Valid h

/-! ## Validity is kept as the memory grows -/

namespace Heap.Extends
variable (he : h.Extends h')
include he

theorem hasShard (hs : h.HasShard sh) : h'.HasShard sh := by
  refine ⟨hs.1.trans_le he.size, ?_⟩
  rw [he.shardCount _ hs.1]
  exact hs.2

theorem isChild (hc : h.IsChild c p) : h'.IsChild c p := by
  refine ⟨hc.1.trans_le he.size, ?_⟩
  rw [he.parent _ hc.1]
  exact hc.2

theorem isRoot (hn : n < h.size) : h'.isRoot n = h.isRoot n := by
  rw [Heap.isRoot, Heap.isRoot, he.parent _ hn]

theorem guardOk {g : Guard} (hg : h.GuardOk g) : h'.GuardOk g :=
  ⟨he.hasShard hg.1, by rw [he.isRoot hg.1.1]; exact hg.2⟩

theorem listenerOk {o : Observer} {l : ListenerId} (hl : h.ListenerOk o l) : h'.ListenerOk o l :=
  ⟨hl.1.trans_le he.nextListener, (he.listeners l hl.1).1.trans hl.2.1,
    (he.listeners l hl.1).2.1.trans hl.2.2⟩

theorem observerOk {o : Observer} (ho : h.ObserverOk o) : h'.ObserverOk o :=
  ⟨ho.1.trans_le he.size, fun l hl => he.listenerOk (ho.2 l hl)⟩

theorem walkItem {item : WalkItem} (hi : item.Valid h) : item.Valid h' := by
  cases item with
  | node n => exact hi.trans_le he.size
  | shard sh => exact he.hasShard hi
  | children n i acc => exact ⟨hi.1.trans_le he.size, fun c hc => he.isChild (hi.2 c hc)⟩
  | release c => exact hi.trans_le he.size

theorem valid {f : Frame} (hf : f.Valid h) : f.Valid h' := by
  have hlt : ∀ {n}, n < h.size → n < h'.size := fun hn => hn.trans_le he.size
  have hchild : ∀ {c}, (∃ p, h.IsChild c p) → ∃ p, h'.IsChild c p :=
    fun ⟨p, hp⟩ => ⟨p, he.isChild hp⟩
  cases f with
  | arrive f =>
      cases f with
      | shard sh unit => exact he.hasShard hf
      | shardAdd sh unit state => exact ⟨he.hasShard hf.1, hf.2⟩
      | shardCas sh unit state =>
          exact ⟨he.hasShard hf.1, hf.2.1, fun hst => he.latched _ (hf.2.2 hst)⟩
      | node n => exact hlt hf
      | nodeAdd n parent state => exact ⟨he.isChild hf.1, hf.2⟩
      | nodeCas n up state => exact ⟨he.isChild hf.1, he.hasShard hf.2.1, hf.2.2⟩
  | depart f =>
      cases f with
      | shard sh unit => exact he.hasShard hf
      | flush sh => exact he.hasShard hf
      | node n => exact hlt hf
      | nodeCas n parent state => exact ⟨he.isChild hf.1, hf.2.1, he.hasShard hf.2.2⟩
  | stop f =>
      cases f with
      | node n => exact hlt hf
      | shard sh => exact he.hasShard hf
      | drain sh empty => exact ⟨he.hasShard hf.1, he.latched _ hf.2⟩
      | wake sh w => exact ⟨he.hasShard hf.1, he.latched _ hf.2⟩
      | liveChildren n i acc =>
          exact ⟨hlt hf.1, he.stopped _ hf.2.1, fun c hc => he.isChild (hf.2.2 c hc)⟩
  | notify event n => exact hlt hf
  | life f =>
      cases f with
      | deregister n => exact hchild hf
      | _ => exact hlt hf
  | child f =>
      cases f with
      | new p => exact hlt hf
      | alloc p shard => exact he.hasShard hf
      | _ => exact hchild hf
  | guard f =>
      cases f with
      | new n location => exact hlt hf
      | finish sh pin location info =>
          exact ⟨he.hasShard hf.1, by rw [he.isRoot hf.1.1]; exact hf.2⟩
      | forShard sh location => exact he.hasShard hf
      | upgrade sh location => exact he.hasShard hf
      | forShardAdd sh location state =>
          exact ⟨he.hasShard hf.1, by rw [he.isRoot hf.1.1]; exact hf.2.1, hf.2.2⟩
      | forShardFinish sh location =>
          exact ⟨he.hasShard hf.1, by rw [he.isRoot hf.1.1]; exact hf.2⟩
      | flushUpgrade sh => exact ⟨he.hasShard hf.1, by rw [he.isRoot hf.1.1]; exact hf.2⟩
      | dropInfo id => trivial
      | _ => exact he.guardOk hf
  | wait f =>
      cases f with
      | create event n blocking => exact hlt hf
      | stopped o blocking => exact he.observerOk hf
      | listen o blocking => exact he.observerOk hf
      | zero o blocking => exact ⟨he.observerOk hf.1, hf.2.1, he.stopped _ hf.2.2⟩
      | stoppedAgain o l blocking => exact ⟨he.observerOk hf.1, he.listenerOk hf.2⟩
      | park o l blocking => exact ⟨he.observerOk hf.1, he.listenerOk hf.2⟩
      | zeroAgain o l blocking =>
          exact ⟨he.observerOk hf.1, he.listenerOk hf.2.1, hf.2.2.1, he.stopped _ hf.2.2.2⟩
  | poll f => cases f <;> exact he.hasShard hf
  | walk report todo total out => exact fun item hi => he.walkItem (hf item hi)

end Heap.Extends

/-! ## The memory by itself -/

/-- What holds of the memory by itself. -/
structure Heap.Wf (h : Heap) : Prop where
  parent : ∀ {n p}, h.parent n = some p →
    n < h.size ∧ p.node < n ∧ h.HasShard ⟨p.node, p.shard⟩ ∧ h.shardCount n = 1
  shardCount : ∀ n < h.size, 0 < h.shardCount n
  freshNode : ∀ {n}, h.size ≤ n → h.state n = .zero ∧ h.strong n = 0 ∧ h.key n = none ∧
    h.swansongCount n = 0 ∧ h.handles n = 0 ∧ h.shutDown n = false ∧ h.abandoned n = false
  freshShard : ∀ {sh}, ¬h.HasShard sh → h.shard sh = .zero
  root : ∀ {n}, h.parent n = none → (h.state n).arrived = false ∧ (h.state n).parentShard = 0
  unarrived : ∀ {n p}, h.parent n = some p → (h.state n).arrived = false →
    (h.state n).shards = 0 ∧ (h.state n).parentShard = 0
  parentShard : ∀ {n p}, h.parent n = some p → h.HasShard ⟨p.node, (h.state n).parentShard⟩
  children : ∀ {sh c}, c ∈ (h.children sh).values → h.parent c = some ⟨sh.node, sh.index⟩
  guards : ∀ g ∈ h.guards, h.GuardOk g
  observers : ∀ o ∈ h.observers, h.ObserverOk o
  interrupts : ∀ i ∈ h.interrupts, h.HasShard i.shard

namespace Heap.Wf
variable (hw : h.Wf)
include hw

theorem isChild (hp : h.parent n = some ⟨p, m⟩) : h.IsChild n p := ⟨(hw.parent hp).1, m, hp⟩

theorem hasShard_shardIndex (index : ℕ) (hn : n < h.size) : h.HasShard ⟨n, h.shardIndex index n⟩ := by
  refine ⟨hn, ?_⟩
  have hpos := hw.shardCount n hn
  have hle : h.shardIndex index n ≤ h.shardCount n - 1 := Nat.and_le_right
  show h.shardIndex index n < h.shardCount n
  omega

theorem isChild_of_mem_shardChildren (hc : c ∈ shardChildren h sh) : h.IsChild c sh.node :=
  hw.isChild (hw.children (List.mem_of_mem_filter hc))

/-- A live node is allocated. -/
theorem lt_of_live (hn : 0 < h.strong n) : n < h.size := by
  by_contra hge
  have := (hw.freshNode (not_lt.mp hge)).2.1
  omega

/-- Writing the word of an allocated shard. -/
theorem setShard (hsh : h.HasShard sh) {w : ShardWord} : (h.setShard sh w).Wf :=
  { hw with
    freshShard := fun {s} hs => by
      have hne : s ≠ sh := fun he => hs (he ▸ hsh)
      simpa [hne] using hw.freshShard hs }

/-- Writing the word of an allocated node. -/
theorem setState (hn : n < h.size) {w : NodeWord}
    (hroot : h.parent n = none → w.arrived = false ∧ w.parentShard = 0)
    (hunarrived : ∀ p, h.parent n = some p → w.arrived = false → w.shards = 0 ∧ w.parentShard = 0)
    (hparent : ∀ p, h.parent n = some p → h.HasShard ⟨p.node, w.parentShard⟩) :
    (h.setState n w).Wf :=
  { hw with
    freshNode := fun {m} hm => by
      have hne : m ≠ n := by simp only [Heap.setState] at hm; lia
      simpa [hne] using hw.freshNode hm
    root := fun {m} hm => by
      rcases eq_or_ne m n with rfl | hne
      · simpa using hroot hm
      · simpa [hne] using hw.root hm
    unarrived := fun {m p} hp => by
      rcases eq_or_ne m n with rfl | hne
      · simpa using hunarrived p hp
      · simpa [hne] using hw.unarrived hp
    parentShard := fun {m p} hp => by
      rcases eq_or_ne m n with rfl | hne
      · simpa [Heap.HasShard] using hparent p hp
      · simpa [Heap.HasShard, hne] using hw.parentShard hp }

/-- Writing the word of a node that keeps its parent shard and its arrival. -/
theorem setState_of_same (hn : n < h.size) {w : NodeWord}
    (harrived : w.arrived = (h.state n).arrived)
    (hparent : w.parentShard = (h.state n).parentShard)
    (hzero : ∀ p, h.parent n = some p → w.arrived = false → (h.state n).shards = 0 → w.shards = 0) :
    (h.setState n w).Wf := by
  refine hw.setState hn (fun hp => ?_) (fun p hp ha => ?_) (fun p hp => ?_)
  · rw [harrived, hparent]; exact hw.root hp
  · obtain ⟨hs, hps⟩ := hw.unarrived hp (harrived ▸ ha)
    exact ⟨hzero p hp ha hs, hparent.trans hps⟩
  · rw [hparent]; exact hw.parentShard hp

/-- Writing the strong counts of allocated nodes. -/
theorem setStrong {strong : NodeId → ℕ} (hs : ∀ n, h.size ≤ n → strong n = 0) :
    Heap.Wf { h with strong := strong } :=
  { hw with
    freshNode := fun {m} hm => by
      obtain ⟨h₁, -, h₃⟩ := hw.freshNode hm
      exact ⟨h₁, hs m hm, h₃⟩ }

theorem cloneArc (hn : n < h.size) : (h.cloneArc n).Wf :=
  hw.setStrong fun m hm => by
    rw [Function.update_of_ne (by lia)]
    exact (hw.freshNode hm).2.1

theorem upgradeAll {cs : List NodeId} (hcs : ∀ c ∈ cs, c < h.size) :
    (upgradeAll h cs).Wf :=
  hw.setStrong fun m hm => by
    have hm' : m ∉ cs := fun hmem => by have := hcs m hmem; lia
    rw [(hw.freshNode hm).2.1, List.count_eq_zero_of_not_mem hm']

end Heap.Wf

/-! ## Steps keep the memory well formed -/

theorem wf_execArrive {f : ArriveFrame} (hw : h.Wf) (hf : (Frame.arrive f).Valid h) :
    (execArrive index choice h f).1.Wf := by
  cases f with
  | shard sh unit => exact hw
  | shardAdd sh unit state =>
      simp only [execArrive]
      split
      · exact hw.setShard hf.1
      · exact hw
  | shardCas sh unit state =>
      simp only [execArrive]
      split
      · exact hw.setShard hf.1
      · exact hw
  | node n =>
      simp only [execArrive]
      split
      · rename_i hp
        exact hw.setState_of_same hf rfl rfl fun p hp' => by rw [hp] at hp'; cases hp'
      · exact hw
  | nodeAdd n parent state =>
      obtain ⟨⟨hn, i, hp⟩, ha⟩ := hf
      simp only [execArrive]
      split
      · rename_i hst
        rw [← hst.1] at ha ⊢
        exact hw.setState_of_same hn rfl rfl fun p _ ha' => by simp [ha] at ha'
      · exact hw
  | nodeCas n up state =>
      obtain ⟨⟨hn, i, hp⟩, hup, ha⟩ := hf
      simp only [execArrive]
      split
      · rename_i hst
        subst hst
        refine hw.setState hn (fun hroot => ?_) (fun p _ ha' => by simp at ha') fun p hp' => ?_
        · rw [hp] at hroot; cases hroot
        · obtain rfl : ⟨up.node, i⟩ = p := by simpa [hp] using hp'
          simpa [NodeWord.arriveAt, (hw.unarrived hp ha).2] using hup
      · exact hw

theorem wf_execDepart {f : DepartFrame} (hw : h.Wf) (hf : (Frame.depart f).Valid h) :
    (execDepart h f).1.Wf := by
  cases f with
  | shard sh unit => exact hw.setShard hf
  | flush sh =>
      simp only [execDepart]
      split
      · exact hw.setShard hf
      · exact hw
  | node n => exact hw.setState_of_same hf rfl rfl fun p _ _ hs => by simp [hs]
  | nodeCas n parent state =>
      obtain ⟨⟨hn, i, hp⟩, hs, hps⟩ := hf
      simp only [execDepart]
      split
      · refine hw.setState hn (fun _ => ⟨rfl, rfl⟩) (fun p _ _ => ⟨rfl, rfl⟩) fun p hp' => ?_
        have hlt := (hw.parentShard hp').1
        exact ⟨hlt, hw.shardCount _ hlt⟩
      · exact hw

theorem wf_execStop {f : StopFrame} (hw : h.Wf) (hf : (Frame.stop f).Valid h) :
    (execStop h f).1.Wf := by
  cases f with
  | node n => exact hw.setState_of_same hf rfl rfl fun _ _ _ => id
  | shard sh => exact hw.setShard hf
  | drain sh empty => exact { hw with }
  | wake sh w => exact { hw with }
  | liveChildren n i acc =>
      simp only [execStop]
      split
      · exact hw.upgradeAll fun c hc => (hw.isChild_of_mem_shardChildren hc).1
      · exact hw

theorem wf_execLife {f : LifeFrame} (hw : h.Wf) (hf : (Frame.life f).Valid h) :
    (execLife h f).1.Wf := by
  have hne : ∀ {n m}, n < h.size → h.size ≤ m → m ≠ n := fun hn hm => by lia
  cases f with
  | dropArc n =>
      exact hw.setStrong fun m hm => by
        rw [Function.update_of_ne (hne hf hm)]
        exact (hw.freshNode hm).2.1
  | deregister n =>
      simp only [execLife]
      split
      · rename_i p key hp hkey
        refine { hw with children := fun {s c} hc => ?_ }
        rcases eq_or_ne s ⟨p.node, p.shard⟩ with rfl | hs
        · refine hw.children ?_
          simp only [Function.update_self] at hc
          rw [Slab.mem_values] at hc ⊢
          obtain ⟨k, hk⟩ := hc
          rw [Slab.get_remove] at hk
          split at hk
          · cases hk
          · exact ⟨k, hk⟩
        · simp only [Function.update_of_ne hs] at hc
          exact hw.children hc
      · exact hw
  | cloneHandle n =>
      refine { hw with freshNode := fun {m} hm => ?_ }
      simpa [execLife, hne hf hm] using hw.freshNode hm
  | cloneArc n =>
      refine { hw with freshNode := fun {m} hm => ?_ }
      simpa [execLife, hne hf hm] using hw.freshNode hm
  | dropHandle n =>
      refine { hw with freshNode := fun {m} hm => ?_ }
      have := hw.freshNode hm
      simp only [execLife]
      split <;> simpa [hne hf hm] using this
  | release n => exact hw
  | shutDownReturn n => exact { hw with }

theorem wf_alloc {shard : ℕ} (hw : h.Wf) (hp : h.HasShard ⟨p, shard⟩) :
    (execChild index h (.alloc p shard)).1.Wf := by
  have he : h.Extends (execChild index h (.alloc p shard)).1 := extends_execChild
  have hnone : h.parent h.size = none := by
    rcases hpar : h.parent h.size with _ | q
    · rfl
    · exact absurd (hw.parent hpar).1 (lt_irrefl _)
  have hzero : h.state h.size = .zero := (hw.freshNode le_rfl).1
  have hparent : ∀ {n q}, (execChild index h (.alloc p shard)).1.parent n = some q →
      n = h.size ∧ q = ⟨p, shard⟩ ∨ h.parent n = some q := by
    intro n q hq
    simp only [execChild] at hq
    rcases eq_or_ne n h.size with rfl | hne
    · exact .inl ⟨rfl, by simpa [eq_comm] using hq⟩
    · exact .inr (by simpa [hne] using hq)
  constructor
  case parent =>
    intro n q hq
    rcases hparent hq with ⟨rfl, rfl⟩ | hq
    · exact ⟨Nat.lt_succ_self _, hp.1, he.hasShard hp, by simp [execChild]⟩
    · obtain ⟨h₁, h₂, h₃, h₄⟩ := hw.parent hq
      exact ⟨h₁.trans_le he.size, h₂, he.hasShard h₃, by rw [he.shardCount _ h₁, h₄]⟩
  case shardCount =>
    intro n hn
    rcases Nat.lt_succ_iff_lt_or_eq.mp hn with hn | rfl
    · rw [he.shardCount _ hn]; exact hw.shardCount n hn
    · simp [execChild]
  case freshNode =>
    intro n hn
    have hlt : h.size < n := hn
    have := hw.freshNode hlt.le
    simpa [execChild, hlt.ne'] using this
  case freshShard => exact fun hs => hw.freshShard fun hsh => hs (he.hasShard hsh)
  case root =>
    intro n hn
    rcases eq_or_ne n h.size with rfl | hne
    · simp [execChild] at hn
    · exact hw.root (by simpa [execChild, hne] using hn)
  case unarrived =>
    intro n q hq ha
    rcases hparent hq with ⟨rfl, rfl⟩ | hq
    · simp [execChild, hzero]
    · exact hw.unarrived hq ha
  case parentShard =>
    intro n q hq
    rcases hparent hq with ⟨rfl, rfl⟩ | hq
    · have h₀ : h.HasShard ⟨p, 0⟩ := ⟨hp.1, hw.shardCount p hp.1⟩
      simpa [execChild, hzero] using he.hasShard h₀
    · exact he.hasShard (hw.parentShard hq)
  case children =>
    intro s c hc
    have := hw.children hc
    rwa [he.parent _ (hw.parent this).1]
  case guards => exact fun g hg => he.guardOk (hw.guards g hg)
  case observers => exact fun o ho => he.observerOk (hw.observers o ho)
  case interrupts => exact fun i hi => he.hasShard (hw.interrupts i hi)

theorem wf_execChild {f : ChildFrame} (hw : h.Wf) (hf : (Frame.child f).Valid h) :
    (execChild index h f).1.Wf := by
  have hne : ∀ {n m}, n < h.size → h.size ≤ m → m ≠ n := fun hn hm => by lia
  cases f with
  | new p => exact hw.cloneArc hf
  | alloc p shard => exact wf_alloc hw hf
  | register c =>
      simp only [execChild]
      split
      · exact hw
      · rename_i p hp
        refine { hw with children := fun {s c'} hc => ?_ }
        rcases eq_or_ne s ⟨p.node, p.shard⟩ with rfl | hs
        · simp only [Function.update_self] at hc
          rw [(Slab.values_insert _ _).mem_iff, List.mem_cons] at hc
          rcases hc with rfl | hc
          · exact hp
          · exact hw.children hc
        · simp only [Function.update_of_ne hs] at hc
          exact hw.children hc
  | storeKey c key =>
      obtain ⟨p, hc⟩ := hf
      refine { hw with freshNode := fun {m} hm => ?_ }
      simpa [execChild, hne hc.1 hm] using hw.freshNode hm
  | check c => simp only [execChild]; split <;> exact hw
  | done c =>
      obtain ⟨p, hc⟩ := hf
      refine { hw with freshNode := fun {m} hm => ?_ }
      simpa [execChild, hne hc.1 hm] using hw.freshNode hm

theorem wf_provenance {location : Location} (hw : h.Wf) : (provenance h sh location).1.Wf := by
  unfold provenance
  split
  · exact { hw with }
  · exact hw

theorem wf_returnGuard {pin : Bool} {location : Location} {info : Option InfoId} (hw : h.Wf)
    (hsh : h.HasShard sh) (hpin : pin = !h.isRoot sh.node) :
    (returnGuard h sh pin location info).Wf :=
  { hw with
    guards := fun g hg => by
      rcases List.mem_cons.mp hg with rfl | hg
      · exact ⟨hsh, hpin⟩
      · exact hw.guards g hg }

theorem wf_execGuard {f : GuardFrame} (hw : h.Wf) (hf : (Frame.guard f).Valid h) :
    (execGuard index choice h f).1.Wf := by
  cases f with
  | new n location => exact wf_provenance hw
  | finish sh pin location info =>
      simp only [execGuard]
      split
      · exact wf_returnGuard (hw.cloneArc hf.1.1) hf.1 hf.2
      · exact wf_returnGuard hw hf.1 hf.2
  | forShard sh location => exact hw
  | forShardAdd sh location state =>
      simp only [execGuard]
      split
      · exact hw.setShard hf.1
      · exact hw
  | forShardFinish sh location =>
      have he : h.Extends (provenance h sh location).1 := extends_provenance
      refine wf_returnGuard (wf_provenance hw) (he.hasShard hf.1) ?_
      rw [he.isRoot hf.1.1, hf.2, Bool.not_true]
  | upgrade sh location =>
      simp only [execGuard]
      split
      · exact hw.cloneArc hf.1
      · exact hw
  | clone g => exact wf_provenance hw
  | cloneAdd g info => exact hw.setShard hf.1
  | release g => exact hw
  | drop g => exact hw.setShard hf.1
  | flushUpgrade sh =>
      simp only [execGuard]
      split
      · exact hw.cloneArc hf.1.1
      · exact hw
  | dropInfo id => exact { hw with }
  | dropValue w g => exact hw

theorem wf_addObserver {o : Observer} (hw : h.Wf) (ho : h.ObserverOk o) :
    Heap.Wf { h with observers := o :: h.observers } :=
  { hw with
    observers := fun o' ho' => by
      rcases List.mem_cons.mp ho' with rfl | ho'
      · exact ho
      · exact hw.observers o' ho' }

theorem wf_waitReady {o : Observer} {blocking : Bool} (hw : h.Wf) (ho : h.ObserverOk o) :
    (waitReady h o blocking).1.Wf := by
  unfold waitReady
  split
  · exact hw
  · exact wf_addObserver hw ho

theorem Heap.ObserverOk.withListener {o : Observer} {l : ListenerId} (ho : h.ObserverOk o)
    (hl : h.ListenerOk o l) : h.ObserverOk { o with listener := some l } := by
  refine ⟨ho.1, fun l' hl' => ?_⟩
  obtain rfl : l = l' := by simpa using hl'
  exact hl

theorem wf_execWait {f : WaitFrame} (hw : h.Wf) (hf : (Frame.wait f).Valid h) :
    (execWait h f).1.Wf := by
  cases f with
  | create event n blocking =>
      simp only [execWait]
      split
      · exact hw.cloneArc hf
      · exact wf_addObserver (hw.cloneArc hf) ⟨hf, by simp⟩
  | stopped o blocking =>
      simp only [execWait]
      split
      · split
        · exact hw
        · exact wf_waitReady hw hf
      · exact hw
  | zero o blocking =>
      simp only [execWait]
      split
      · exact wf_waitReady hw hf.1
      · exact hw
  | listen o blocking =>
      refine { hw with observers := fun o' ho' => ?_ }
      have he : h.Extends (execWait h (.listen o blocking)).1 := extends_execWait
      exact he.observerOk (hw.observers o' ho')
  | stoppedAgain o l blocking =>
      simp only [execWait]
      split
      · split
        · exact hw
        · exact wf_waitReady hw (hf.1.withListener hf.2)
      · exact hw
  | zeroAgain o l blocking =>
      simp only [execWait]
      split
      · exact wf_waitReady hw (hf.1.withListener hf.2.1)
      · exact hw
  | park o l blocking =>
      simp only [execWait]
      split
      · exact hw
      · split
        · exact hw
        · exact wf_addObserver hw (hf.1.withListener hf.2)

theorem wf_pollReturn {i : Interrupt} {pending : Option Waker} (hw : h.Wf)
    (hi : h.HasShard i.shard) : (pollReturn h i pending).1.Wf :=
  { hw with
    interrupts := fun j hj => by
      rcases List.mem_cons.mp hj with rfl | hj
      · exact hi
      · exact hw.interrupts j hj }

theorem wf_execPoll {f : PollFrame} (hw : h.Wf) (hf : (Frame.poll f).Valid h) :
    (execPoll choice h f).1.Wf := by
  cases f with
  | poll i w =>
      simp only [execPoll]
      split
      · exact wf_pollReturn hw hf
      · exact hw
  | wrapped i w =>
      simp only [execPoll]
      split
      · exact wf_pollReturn hw hf
      · exact hw
  | registered i w => exact wf_pollReturn hw hf
  | register i w =>
      simp only [execPoll]
      split
      · exact wf_pollReturn hw hf
      · exact wf_pollReturn { hw with } hf
  | drop i => exact { hw with }

theorem wf_execWalk {report : Bool} {total : ℕ} {out : List InfoId} {todo : List WalkItem}
    (hw : h.Wf) : (execWalk h report total out todo).1.Wf := by
  cases todo with
  | nil => exact hw
  | cons item todo =>
      cases item with
      | node n => exact hw
      | shard sh =>
          simp only [execWalk]
          split
          · exact { hw with }
          · exact hw
      | children n i acc =>
          simp only [execWalk]
          split
          · exact hw.upgradeAll fun c hc => (hw.isChild_of_mem_shardChildren hc).1
          · exact hw
      | release c => exact hw

theorem wf_exec {f : Frame} (hw : h.Wf) (hf : f.Valid h) : (exec index choice h f).1.Wf := by
  cases f with
  | arrive f => exact wf_execArrive hw hf
  | depart f => exact wf_execDepart hw hf
  | stop f => exact wf_execStop hw hf
  | notify event n =>
      refine { hw with observers := fun o ho => ?_ }
      exact extends_execNotify.observerOk (hw.observers o ho)
  | life f => exact wf_execLife hw hf
  | child f => exact wf_execChild hw hf
  | guard f => exact wf_execGuard hw hf
  | wait f => exact wf_execWait hw hf
  | poll f => exact wf_execPoll hw hf
  | walk report todo total out => exact wf_execWalk hw

/-! ## The frames a step pushes are valid -/

attribute [local simp] Frame.Valid

theorem Heap.mem_shards : sh ∈ h.shards n ↔ sh.node = n ∧ sh.index < h.shardCount n := by
  simp only [Heap.shards, List.mem_map, List.mem_range]
  constructor
  · rintro ⟨i, hi, rfl⟩
    exact ⟨rfl, hi⟩
  · rintro ⟨rfl, hi⟩
    exact ⟨sh.index, hi, rfl⟩

theorem Heap.hasShard_of_mem_shards (hn : n < h.size) (hs : sh ∈ h.shards n) : h.HasShard sh := by
  obtain ⟨rfl, hi⟩ := Heap.mem_shards.mp hs
  exact ⟨hn, hi⟩

theorem valid_arriveNext {unit : CountUnit} (hs : h.HasShard sh) :
    ∀ g ∈ arriveNext sh unit (h.shard sh), g.Valid h := by
  unfold arriveNext
  split
  · rename_i ha
    simpa [Frame.Valid, ha] using hs
  · rename_i ha
    simpa [Frame.Valid, ha] using ⟨hs.1, hs⟩

theorem valid_nodeArriveNext (hw : h.Wf) (hc : h.IsChild n p) :
    ∀ g ∈ nodeArriveNext index h n p (h.state n), g.Valid h := by
  obtain ⟨hn, i, hp⟩ := hc
  have hup := hw.hasShard_shardIndex index (hw.parent hp).2.2.1.1
  unfold nodeArriveNext
  split
  · rename_i ha
    simpa [Frame.Valid, ha] using hw.isChild hp
  · rename_i ha
    simpa [Frame.Valid, ha] using ⟨hup, hw.isChild hp, hup⟩

theorem valid_arrive {f : ArriveFrame} (hw : h.Wf) (hf : (Frame.arrive f).Valid h) :
    ∀ g ∈ (execArrive index choice h f).2, g.Valid h := by
  cases f with
  | shard sh unit => exact valid_arriveNext hf
  | shardAdd sh unit state =>
      simp only [execArrive]
      split
      · simp
      · exact valid_arriveNext hf.1
  | shardCas sh unit state =>
      simp only [execArrive]
      split
      · simp
      · exact List.forall_mem_cons.mpr ⟨hf.1.1, valid_arriveNext hf.1⟩
  | node n =>
      simp only [execArrive]
      split
      · simp
      · rename_i p hp
        exact valid_nodeArriveNext hw (hw.isChild hp)
  | nodeAdd n parent state =>
      simp only [execArrive]
      split
      · simp
      · exact valid_nodeArriveNext hw hf.1
  | nodeCas n up state =>
      simp only [execArrive]
      split
      · simp
      · exact List.forall_mem_cons.mpr ⟨hf.2.1, valid_nodeArriveNext hw hf.1⟩

theorem valid_depart {f : DepartFrame} (hw : h.Wf) (hf : (Frame.depart f).Valid h) :
    ∀ g ∈ (execDepart h f).2, g.Valid h := by
  cases f with
  | shard sh unit =>
      simp only [execDepart]
      split
      · simpa [Frame.Valid] using hf
      · simp
  | flush sh =>
      simp only [execDepart]
      split
      · simpa [Frame.Valid] using hf.1
      · simp
  | node n =>
      simp only [execDepart]
      split
      · simp
      · rename_i hs
        have hs : (h.state n).sub.shards = 0 := not_not.mp hs
        intro g hg
        rcases List.mem_append.mp hg with hg | hg
        · split at hg
          · obtain rfl := List.mem_singleton.mp hg
            exact hf
          · cases hg
        · split at hg
          · cases hg
          · rename_i p hp
            obtain rfl := List.mem_singleton.mp hg
            exact ⟨hw.isChild hp, hs, hw.parentShard hp⟩
  | nodeCas n parent state =>
      simp only [execDepart]
      split
      · simpa [Frame.Valid] using hf.2.2
      · simp

theorem valid_stop {f : StopFrame} (hw : h.Wf) (hf : (Frame.stop f).Valid h) :
    ∀ g ∈ (execStop h f).2, g.Valid (execStop h f).1 := by
  have he : h.Extends (execStop h f).1 := extends_execStop
  cases f with
  | node n =>
      have hn : n < (execStop h (.node n)).1.size := hf
      intro g hg
      simp only [execStop] at hg
      split at hg
      · cases hg
      · rcases List.mem_append.mp hg with hg | hg
        · rcases List.mem_append.mp hg with hg | hg
          · obtain ⟨s, hs, rfl⟩ := mem_stopShards.mp hg
            exact he.hasShard (Heap.hasShard_of_mem_shards hf hs)
          · simp only [List.mem_cons, List.not_mem_nil, or_false] at hg
            rcases hg with rfl | rfl
            · exact hn
            · exact ⟨hn, by simp [execStop], by simp⟩
        · split at hg
          · obtain rfl := List.mem_singleton.mp hg
            exact hn
          · cases hg
  | shard sh =>
      simpa [Frame.Valid, execStop] using he.hasShard hf
  | drain sh empty =>
      intro g hg
      rcases List.mem_append.mp hg with hg | hg
      · obtain ⟨w, -, rfl⟩ := List.mem_map.mp hg
        exact ⟨he.hasShard hf.1, hf.2⟩
      · split at hg
        · obtain rfl := List.mem_singleton.mp hg
          exact he.hasShard hf.1
        · cases hg
  | wake sh w => simp [execStop]
  | liveChildren n i acc =>
      simp only [execStop]
      split
      · intro g hg
        obtain rfl := List.mem_singleton.mp hg
        refine ⟨hf.1, hf.2.1, fun c hc => ?_⟩
        rcases List.mem_append.mp hc with hc | hc
        · exact hf.2.2 c hc
        · exact hw.isChild_of_mem_shardChildren hc
      · intro g hg
        obtain ⟨c, hc, hg⟩ := List.mem_flatMap.mp hg
        have hlt := (hf.2.2 c hc).1
        simp only [List.mem_cons, List.not_mem_nil, or_false] at hg
        rcases hg with rfl | rfl
        · exact hlt
        · exact hlt

theorem valid_life {f : LifeFrame} (hw : h.Wf) (hf : (Frame.life f).Valid h) :
    ∀ g ∈ (execLife h f).2, g.Valid h := by
  cases f with
  | dropArc n =>
      simp only [execLife]
      split
      · intro g hg
        rcases List.mem_append.mp hg with hg | hg
        · obtain ⟨s, hs, rfl⟩ := mem_stopShards.mp hg
          exact Heap.hasShard_of_mem_shards hf hs
        · split at hg
          · cases hg
          · rename_i p hp
            simp only [List.mem_cons, List.not_mem_nil, or_false] at hg
            rcases hg with rfl | rfl
            · exact ⟨_, hw.isChild hp⟩
            · exact (hw.parent hp).2.2.1.1
      · simp
  | deregister n => simp only [execLife]; split <;> simp
  | cloneHandle n => simpa [execLife, Frame.Valid] using hf
  | cloneArc n => simp [execLife]
  | dropHandle n =>
      simp only [execLife]
      split <;> simpa [Frame.Valid] using hf
  | release n => simp [execLife]
  | shutDownReturn n => simp [execLife]

theorem valid_child {f : ChildFrame} (hw : h.Wf) (hf : (Frame.child f).Valid h) :
    ∀ g ∈ (execChild index h f).2, g.Valid (execChild index h f).1 := by
  have he : h.Extends (execChild index h f).1 := extends_execChild
  cases f with
  | new p =>
      have := he.hasShard (hw.hasShard_shardIndex index hf)
      simpa [execChild, Frame.Valid] using this
  | alloc p shard =>
      simp [execChild, Frame.Valid, Heap.IsChild]
  | register c =>
      simp only [execChild]
      split
      · simp
      · intro g hg
        obtain rfl := List.mem_singleton.mp hg
        exact hf
  | storeKey c key =>
      intro g hg
      obtain rfl := List.mem_singleton.mp hg
      exact hf
  | check c =>
      simp only [execChild]
      split
      · simp
      · have hlt := hf
        obtain ⟨p, hc⟩ := hlt
        split
        · simpa [Frame.Valid] using ⟨hc.1, hf⟩
        · simpa [Frame.Valid] using hf
  | done c => simp [execChild]

theorem valid_guard {f : GuardFrame} (hw : h.Wf) (hf : (Frame.guard f).Valid h) :
    ∀ g ∈ (execGuard index choice h f).2, g.Valid h := by
  have hnext : ∀ {sh location}, h.HasShard sh → h.isRoot sh.node = true →
      ∀ g ∈ forShardNext sh location (h.shard sh), g.Valid h := by
    intro sh location hsh hr
    unfold forShardNext
    split
    · rename_i ha
      simpa [Frame.Valid, ha] using ⟨hsh, hr⟩
    · simpa [Frame.Valid] using hsh
  cases f with
  | new n location =>
      have := hw.hasShard_shardIndex index hf
      simpa [execGuard, Frame.Valid] using this
  | finish sh pin location info => simp [execGuard]
  | forShard sh location =>
      simp only [execGuard]
      split
      · rename_i hr
        exact hnext hf hr
      · simpa [Frame.Valid] using hf
  | forShardAdd sh location state =>
      simp only [execGuard]
      split
      · simpa [Frame.Valid] using ⟨hf.1, hf.2.1⟩
      · exact hnext hf.1 hf.2.1
  | forShardFinish sh location => simp [execGuard]
  | upgrade sh location =>
      simp only [execGuard]
      split
      · simpa [Frame.Valid] using hf.1
      · simp
  | clone g => simpa [execGuard, Frame.Valid] using hf
  | cloneAdd g info =>
      intro f hg
      obtain rfl := List.mem_singleton.mp hg
      exact hf
  | release g => simp [execGuard]
  | drop g =>
      have hsh : h.HasShard g.shard := hf.1
      intro f hg
      simp only [execGuard, List.mem_append] at hg
      rcases hg with (hg | hg) | hg
      · split at hg
        · split at hg
          · obtain rfl := List.mem_singleton.mp hg
            exact hsh
          · rename_i hp
            obtain rfl := List.mem_singleton.mp hg
            exact ⟨hsh, by simpa [hf.2] using hp⟩
        · cases hg
      · split at hg
        · obtain rfl := List.mem_singleton.mp hg
          exact hsh.1
        · cases hg
      · split at hg
        · cases hg
        · obtain rfl := List.mem_singleton.mp hg
          trivial
  | flushUpgrade sh =>
      simp only [execGuard]
      split
      · simpa [Frame.Valid] using ⟨hf.1, hf.1.1⟩
      · simp
  | dropInfo id => simp [execGuard]
  | dropValue w g => simp [execGuard]

theorem valid_waitReady {o : Observer} {blocking : Bool} (ho : h.ObserverOk o) :
    ∀ g ∈ (waitReady h o blocking).2, g.Valid h := by
  unfold waitReady
  split
  · simpa [Frame.Valid] using ho.1
  · simp

theorem valid_waitNext {o : Observer} {blocking : Bool} (ho : h.ObserverOk o) :
    ∀ g ∈ waitNext o blocking, g.Valid h := by
  unfold waitNext
  split
  · simpa [Frame.Valid] using ho
  · rename_i l hl
    simpa [Frame.Valid] using ⟨ho, ho.2 l hl⟩

theorem valid_wait {f : WaitFrame} (hf : (Frame.wait f).Valid h) :
    ∀ g ∈ (execWait h f).2, g.Valid (execWait h f).1 := by
  have he : h.Extends (execWait h f).1 := extends_execWait
  cases f with
  | create event n blocking =>
      simp only [execWait]
      split
      · simpa [Frame.Valid, Heap.ObserverOk] using hf
      · simp
  | stopped o blocking =>
      simp only [execWait]
      split
      · rename_i hstop
        split
        · rename_i hev
          simpa [Frame.Valid] using ⟨hf, hev, hstop⟩
        · exact fun g hg => extends_waitReady.valid (valid_waitReady hf g hg)
      · exact valid_waitNext hf
  | zero o blocking =>
      simp only [execWait]
      split
      · exact fun g hg => extends_waitReady.valid (valid_waitReady hf.1 g hg)
      · exact valid_waitNext hf.1
  | listen o blocking =>
      have ho := he.observerOk hf
      simp [execWait, Frame.Valid] at ho ⊢
      exact ⟨ho, by simp [Heap.ListenerOk]⟩
  | stoppedAgain o l blocking =>
      simp only [execWait]
      split
      · rename_i hstop
        split
        · rename_i hev
          simpa [Frame.Valid] using ⟨hf.1, hf.2, hev, hstop⟩
        · exact fun g hg => extends_waitReady.valid (valid_waitReady (hf.1.withListener hf.2) g hg)
      · simpa [Frame.Valid] using hf
  | zeroAgain o l blocking =>
      simp only [execWait]
      split
      · exact fun g hg => extends_waitReady.valid (valid_waitReady (hf.1.withListener hf.2.1) g hg)
      · simpa [Frame.Valid] using ⟨hf.1, hf.2.1⟩
  | park o l blocking =>
      simp only [execWait]
      split
      · simpa [Frame.Valid, Heap.ObserverOk] using hf.1.1
      · split
        · simpa [Frame.Valid] using hf
        · simp

theorem valid_poll {f : PollFrame} (hf : (Frame.poll f).Valid h) :
    ∀ g ∈ (execPoll choice h f).2, g.Valid h := by
  cases f with
  | poll i w =>
      simp only [execPoll]
      split
      · simp [pollReturn]
      · simpa [Frame.Valid] using hf
  | wrapped i w =>
      simp only [execPoll]
      split
      · simp [pollReturn]
      · split <;> simpa [Frame.Valid] using hf
  | registered i w => simp [execPoll, pollReturn]
  | register i w => simp only [execPoll]; split <;> simp [pollReturn]
  | drop i => simp [execPoll]

theorem valid_walk {report : Bool} {total : ℕ} {out : List InfoId} {todo : List WalkItem}
    (hw : h.Wf) (hf : (Frame.walk report todo total out).Valid h) :
    ∀ g ∈ (execWalk h report total out todo).2, g.Valid h := by
  cases todo with
  | nil =>
      simp only [execWalk]
      split <;> simp [Frame.Valid]
  | cons item todo =>
      have htodo : ∀ item ∈ todo, item.Valid h := fun item hi => hf item (by simp [hi])
      have hitem := hf item (by simp)
      cases item with
      | node n =>
          intro g hg
          obtain rfl := List.mem_singleton.mp hg
          intro item hi
          rcases List.mem_append.mp hi with hi | hi
          · obtain ⟨s, hs, rfl⟩ := List.mem_map.mp hi
            exact Heap.hasShard_of_mem_shards hitem hs
          · rcases List.mem_cons.mp hi with rfl | hi
            · exact ⟨hitem, by simp⟩
            · exact htodo item hi
      | shard sh =>
          simp only [execWalk]
          split
          · intro g hg
            obtain rfl := List.mem_singleton.mp hg
            exact htodo
          · intro g hg
            obtain rfl := List.mem_singleton.mp hg
            exact htodo
      | children n i acc =>
          simp only [execWalk]
          split
          · intro g hg
            obtain rfl := List.mem_singleton.mp hg
            refine List.forall_mem_cons.mpr ⟨⟨hitem.1, fun c hc => ?_⟩, htodo⟩
            rcases List.mem_append.mp hc with hc | hc
            · exact hitem.2 c hc
            · exact hw.isChild_of_mem_shardChildren hc
          · intro g hg
            obtain rfl := List.mem_singleton.mp hg
            intro item hi
            rcases List.mem_append.mp hi with hi | hi
            · simp only [visitAll] at hi
              split at hi
              · obtain ⟨c, hc, hi⟩ := List.mem_flatMap.mp hi
                have hlt := (hitem.2 c hc).1
                simp only [List.mem_cons, List.not_mem_nil, or_false] at hi
                rcases hi with rfl | rfl <;> exact hlt
              · simp only [List.mem_append, List.mem_map] at hi
                rcases hi with ⟨c, hc, rfl⟩ | ⟨c, hc, rfl⟩ <;> exact (hitem.2 c hc).1
            · exact htodo item hi
      | release c =>
          simpa [execWalk, Frame.Valid] using ⟨hitem, htodo⟩

theorem valid_exec {f : Frame} (hw : h.Wf) (hf : f.Valid h) :
    ∀ g ∈ (exec index choice h f).2, g.Valid (exec index choice h f).1 := by
  have he : h.Extends (exec index choice h f).1 := extends_exec
  cases f with
  | arrive f => exact fun g hg => he.valid (valid_arrive hw hf g hg)
  | depart f => exact fun g hg => he.valid (valid_depart hw hf g hg)
  | stop f => exact valid_stop hw hf
  | notify event n => simp [exec, execNotify]
  | life f => exact fun g hg => he.valid (valid_life hw hf g hg)
  | child f => exact valid_child hw hf
  | guard f => exact fun g hg => he.valid (valid_guard hw hf g hg)
  | wait f => exact valid_wait hf
  | poll f => exact fun g hg => he.valid (valid_poll hf g hg)
  | walk report todo total out => exact fun g hg => he.valid (valid_walk hw hf g hg)

/-! ## Starting an operation -/

theorem Heap.Wf.lt_of_handle (hw : h.Wf) (hn : 0 < h.handles n) : n < h.size := by
  by_contra hge
  have := (hw.freshNode (not_lt.mp hge)).2.2.2.2.1
  omega

theorem wf_newRoot {shards : ℕ} {report : Bool} (hw : h.Wf) (hpos : 0 < shards) :
    (newRoot h shards report).Wf := by
  have he : h.Extends (newRoot h shards report) := {
    Heap.Extends.refl h with
    size := Nat.le_succ _
    parent := fun _ _ => rfl
    shardCount := fun _ => update_of_lt
    guardReport := fun _ => update_of_lt }
  constructor
  case parent =>
    intro n p hp
    obtain ⟨h₁, h₂, h₃, h₄⟩ := hw.parent hp
    exact ⟨h₁.trans_le he.size, h₂, he.hasShard h₃, by rw [he.shardCount _ h₁, h₄]⟩
  case shardCount =>
    intro n hn
    rcases Nat.lt_succ_iff_lt_or_eq.mp hn with hn | rfl
    · rw [he.shardCount _ hn]; exact hw.shardCount n hn
    · simpa [newRoot] using hpos
  case freshNode =>
    intro n hn
    have hlt : h.size < n := hn
    have := hw.freshNode hlt.le
    simpa [newRoot, hlt.ne'] using this
  case freshShard => exact fun hs => hw.freshShard fun hsh => hs (he.hasShard hsh)
  case root => exact hw.root
  case unarrived => exact hw.unarrived
  case parentShard => exact fun hp => he.hasShard (hw.parentShard hp)
  case children => exact hw.children
  case guards => exact fun g hg => he.guardOk (hw.guards g hg)
  case observers => exact fun o ho => he.observerOk (hw.observers o ho)
  case interrupts => exact fun i hi => he.hasShard (hw.interrupts i hi)

theorem wf_takeHandle (hw : h.Wf) : (takeHandle h n).Wf :=
  { hw with
    freshNode := fun {m} hm => by
      obtain ⟨h₁, h₂, h₃, h₄, h₅, h₆⟩ := hw.freshNode hm
      refine ⟨h₁, h₂, h₃, h₄, ?_, h₆⟩
      rcases eq_or_ne m n with rfl | hne
      · simp [takeHandle, h₅]
      · simp [takeHandle, hne, h₅] }

theorem wf_takeGuard {g : Guard} (hw : h.Wf) : (takeGuard h g).Wf :=
  { hw with guards := fun g' hg' => hw.guards g' (List.mem_of_mem_erase hg') }

theorem wf_takeObserver {o : Observer} (hw : h.Wf) :
    Heap.Wf { h with observers := h.observers.erase o } :=
  { hw with observers := fun o' ho' => hw.observers o' (List.mem_of_mem_erase ho') }

theorem wf_takeInterrupt {i : Interrupt} (hw : h.Wf) :
    Heap.Wf { h with interrupts := h.interrupts.erase i } :=
  { hw with interrupts := fun j hj => hw.interrupts j (List.mem_of_mem_erase hj) }

theorem valid_start {fr fs : List Frame} {op : Op} (hw : h.Wf)
    (hs : start index h fr op = some (h', fs)) : h'.Wf ∧ ∀ g ∈ fs, g.Valid h' := by
  cases op <;> simp only [start] at hs
  case newRoot shards report =>
    obtain ⟨hpos, hs⟩ := Option.ite_none_right_eq_some.mp hs
    obtain ⟨rfl, rfl⟩ := Prod.mk.inj (Option.some.inj hs)
    exact ⟨wf_newRoot hw hpos, by simp⟩
  case clone n | child n | shuttingDown n | guard n location | guardCount n | guardReport n =>
    obtain ⟨hn, hs⟩ := Option.ite_none_right_eq_some.mp hs
    obtain ⟨rfl, rfl⟩ := Prod.mk.inj (Option.some.inj hs)
    have hlt := hw.lt_of_handle hn
    exact ⟨hw, by simp [Frame.Valid, WalkItem.Valid, hlt]⟩
  case drop n | intoFuture n | blockOnShutdownCompletion n =>
    obtain ⟨hn, hs⟩ := Option.ite_none_right_eq_some.mp hs
    obtain ⟨rfl, rfl⟩ := Prod.mk.inj (Option.some.inj hs)
    have hlt : n < (takeHandle h n).size := hw.lt_of_handle hn.1
    exact ⟨wf_takeHandle hw, by simp [Frame.Valid, hlt]⟩
  case shutDown n =>
    obtain ⟨hn, hs⟩ := Option.ite_none_right_eq_some.mp hs
    obtain ⟨rfl, rfl⟩ := Prod.mk.inj (Option.some.inj hs)
    have hlt := hw.lt_of_handle hn
    refine ⟨{ hw with freshNode := fun {m} hm => ?_ }, by simp [Frame.Valid, hlt]⟩
    have hne : m ≠ n := by simp only at hm; lia
    simpa [hne] using hw.freshNode hm
  case guarded sh location =>
    obtain ⟨hsh, hs⟩ := Option.ite_none_right_eq_some.mp hs
    obtain ⟨rfl, rfl⟩ := Prod.mk.inj (Option.some.inj hs)
    exact ⟨hw, by simpa [Frame.Valid] using hsh⟩
  case cloneGuard g =>
    obtain ⟨hg, hs⟩ := Option.ite_none_right_eq_some.mp hs
    obtain ⟨rfl, rfl⟩ := Prod.mk.inj (Option.some.inj hs)
    exact ⟨hw, by simpa [Frame.Valid] using hw.guards g hg⟩
  case dropGuard g | dropGuarded g =>
    obtain ⟨hg, hs⟩ := Option.ite_none_right_eq_some.mp hs
    obtain ⟨rfl, rfl⟩ := Prod.mk.inj (Option.some.inj hs)
    have hok : (takeGuard h g).GuardOk g := hw.guards g hg.1
    exact ⟨wf_takeGuard hw, by simpa [Frame.Valid] using hok⟩
  case dropInterrupt i og =>
    cases og with
    | none =>
        obtain ⟨hi, hs⟩ := Option.ite_none_right_eq_some.mp hs
        obtain ⟨rfl, rfl⟩ := Prod.mk.inj (Option.some.inj hs)
        refine ⟨wf_takeInterrupt hw, fun g hg => ?_⟩
        obtain rfl := List.mem_singleton.mp hg
        exact hw.interrupts i hi
    | some g =>
        obtain ⟨⟨hi, hg⟩, hs⟩ := Option.ite_none_right_eq_some.mp hs
        obtain ⟨rfl, rfl⟩ := Prod.mk.inj (Option.some.inj hs)
        have hok : h.GuardOk g := hw.guards g hg.1
        have hsh : h.HasShard i.shard := hw.interrupts i hi
        refine ⟨wf_takeInterrupt (wf_takeGuard hw), ?_⟩
        simp only [List.mem_cons, List.not_mem_nil, or_false, forall_eq_or_imp, forall_eq]
        exact ⟨hsh, hok, hok⟩
  case poll o | block o | dropObserver o =>
    obtain ⟨ho, hs⟩ := Option.ite_none_right_eq_some.mp hs
    obtain ⟨rfl, rfl⟩ := Prod.mk.inj (Option.some.inj hs)
    have hok := hw.observers o ho
    refine ⟨wf_takeObserver hw, fun g hg => ?_⟩
    obtain rfl := List.mem_singleton.mp hg
    first | exact hok | exact hok.1
  case interrupt n =>
    obtain ⟨hn, hs⟩ := Option.ite_none_right_eq_some.mp hs
    obtain ⟨rfl, rfl⟩ := Prod.mk.inj (Option.some.inj hs)
    refine ⟨{ hw with interrupts := fun i hi => ?_ }, by simp⟩
    rcases List.mem_cons.mp hi with rfl | hi
    · exact hw.hasShard_shardIndex index (hw.lt_of_handle hn)
    · exact hw.interrupts i hi
  case pollInterrupt i w =>
    obtain ⟨hi, hs⟩ := Option.ite_none_right_eq_some.mp hs
    obtain ⟨rfl, rfl⟩ := Prod.mk.inj (Option.some.inj hs)
    refine ⟨wf_takeInterrupt hw, fun g hg => ?_⟩
    obtain rfl := List.mem_singleton.mp hg
    exact hw.interrupts i hi

/-! ## The invariant -/

/-- The memory is well formed and every frame in flight is valid in it. -/
structure Valid (h : Heap) (fr : Multiset Frame) : Prop where
  wf : h.Wf
  frames : ∀ f ∈ fr, f.Valid h

theorem wf_empty : Heap.empty.Wf := by
  constructor <;> simp [Heap.empty]

/-- Every state that a run reaches is valid. -/
theorem valid_reach {P : State → Act → Prop} {s : State} (hr : machine.Reach P s) :
    Valid s.mem s.frames := by
  refine discipline.invariant (J := fun _ _ => True) (fun _ => trivial) ⟨wf_empty, by simp⟩
    ?_ ?_ hr
  · rintro index b h f K - - - ⟨hw, hfr⟩
    have hf := hfr f (Multiset.mem_cons_self f K)
    refine ⟨wf_exec hw hf, fun g hg => ?_⟩
    rcases Multiset.mem_add.mp hg with hg | hg
    · exact valid_exec hw hf g hg
    · exact extends_exec.valid (hfr g (Multiset.mem_cons_of_mem hg))
  · rintro index h fr op h' fs hs - - ⟨hw, hfr⟩
    obtain ⟨hw', hfs⟩ := valid_start hw hs
    refine ⟨hw', fun g hg => ?_⟩
    rcases Multiset.mem_add.mp hg with hg | hg
    · exact hfs g hg
    · exact (extends_start hs).valid (hfr g hg)

end Swansong
