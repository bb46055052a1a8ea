import Swansong.Subtree
import Swansong.Provenance
import Mathlib.Tactic.Abel

/-!
# Guard counts and guard reports

`guard_count()` and `guard_report()` walk a subtree shard by shard, holding the children
they found by strong references.  When nothing but such walks is in flight, each of them
gathers exactly the guards of its node's subtree, however they interleave: references
taken and given back and registries swept by the others make no difference.

## Main definitions

* `Heap.SameView` — the memory as walks see it is the same.
* `WalkItem.rest` — what a walk has still to gather from an item, or to spend on it.
* `Reader` — a thread that counts or reports.
* `guard_count_exact` — the result.
-/

namespace Swansong

open Interleave (Machine total)

variable {h₀ h : Heap} {s₀ s : State} {n m c : NodeId} {sh : ShardId} {report : Bool}
  {todo : List WalkItem} {total : ℕ} {out : List InfoId}

/-! ## What walks see -/

/-- What a walk reads of the memory is the same: it differs in the references that are
held, and in the dead entries of registries. -/
structure Heap.SameView (h₀ h : Heap) : Prop where
  same : h = { h₀ with strong := h.strong, infoStrong := h.infoStrong, registry := h.registry }
  live : ∀ c, h.Live c ↔ h₀.Live c
  alive : h.infoAlive = h₀.infoAlive
  records : ∀ sh, (h.registry sh).live h.infoAlive = (h₀.registry sh).live h₀.infoAlive

namespace Heap.SameView
variable (hv : h₀.SameView h)
include hv

theorem shardCount : h.shardCount = h₀.shardCount := by rw [hv.same]

theorem shard : h.shard = h₀.shard := by rw [hv.same]

theorem shards : h.shards n = h₀.shards n := by rw [hv.same]; rfl

theorem guardReport : h.guardReport = h₀.guardReport := by rw [hv.same]

theorem guards : h.guards = h₀.guards := by rw [hv.same]

theorem shardChildren : shardChildren h sh = shardChildren h₀ sh := by
  have hchildren : h.children = h₀.children := by rw [hv.same]
  simp only [Swansong.shardChildren, hchildren]
  exact List.filter_congr fun c _ => decide_eq_decide.mpr (hv.live c)

end Heap.SameView

theorem Heap.SameView.refl (h : Heap) : h.SameView h := ⟨rfl, fun _ => Iff.rfl, rfl, fun _ => rfl⟩

/-! ## What is left of a walk -/

section Rest
variable {A : Type} [AddCommMonoid A] (h) (v : ShardId → A) (tick : A)

/-- What the walk gathers at a node: `v` at each shard, and a `tick` for each step, the two
for the release of each child included. -/
def Heap.gather (m : NodeId) : A :=
  ((h.shards m).map fun sh => v sh + tick).sum + (h.shardCount m + 2) • tick +
    ((liveChildren h m).map fun _ => 2 • tick).sum

/-- What the walk gathers in a subtree. -/
def Heap.below (n : NodeId) : A := ((h.subtree n).map (h.gather v tick)).sum

/-- What the walk gathers when it visits children and releases them. -/
def Heap.belowAll (cs : List NodeId) : A := (cs.map fun c => h.below v tick c + 2 • tick).sum

/-- What the walk has still to gather from an item. -/
def WalkItem.rest : WalkItem → A
  | .node n => h.below v tick n
  | .shard sh => v sh + tick
  | .children n i acc => (h.shardCount n - i + 1) • tick +
      h.belowAll v tick (acc ++ ((h.shards n).drop i).flatMap (shardChildren h))
  | .release _ => 2 • tick

/-- What the walk has still to gather. -/
def Heap.rest (todo : List WalkItem) : A := (todo.map (WalkItem.rest h v tick)).sum

variable {h v tick}

@[simp] theorem Heap.rest_nil : h.rest v tick [] = 0 := rfl

@[simp] theorem Heap.rest_cons (item : WalkItem) (todo : List WalkItem) :
    h.rest v tick (item :: todo) = item.rest h v tick + h.rest v tick todo := by simp [rest]

@[simp] theorem Heap.rest_append (todo todo' : List WalkItem) :
    h.rest v tick (todo ++ todo') = h.rest v tick todo + h.rest v tick todo' := by simp [rest]

/-- Visiting a node comes down to its shards and its children. -/
theorem rest_node (hl : Forest.Lists h.up h.Live (liveChildren h) h.size) (hn : h.Live n) :
    (WalkItem.node n).rest h v tick =
      tick + h.rest v tick ((h.shards n).map .shard ++ [.children n 0 []]) := by
  have hbelow : h.below v tick n = h.gather v tick n +
      ((liveChildren h n).map (h.below v tick)).sum :=
    hl.sum_visit (h.gather v tick) (Nat.le_add_left _ _) hn
  have hshards : h.rest v tick ((h.shards n).map .shard) =
      ((h.shards n).map fun sh => v sh + tick).sum := by
    simp [Heap.rest, WalkItem.rest, Function.comp_def]
  have hchildren : h.belowAll v tick (liveChildren h n) =
      ((liveChildren h n).map (h.below v tick)).sum + ((liveChildren h n).map fun _ => 2 • tick).sum := by
    simp only [Heap.belowAll, List.sum_map_add]
  simp only [WalkItem.rest, hbelow, Heap.gather, Heap.rest_append, hshards, Heap.rest_cons,
    Heap.rest_nil, List.nil_append, List.drop_zero, Nat.sub_zero]
  rw [show ((h.shards n).flatMap (shardChildren h)) = liveChildren h n from rfl, hchildren,
    show h.shardCount n + 2 = h.shardCount n + 1 + 1 from rfl, succ_nsmul _ (h.shardCount n + 1)]
  abel

theorem rest_children_lt {i : ℕ} {acc : List NodeId} (hi : i < h.shardCount n) :
    (WalkItem.children n i acc).rest h v tick =
      tick + (WalkItem.children n (i + 1) (acc ++ shardChildren h ⟨n, i⟩)).rest h v tick := by
  have hcount : h.shardCount n - i + 1 = (h.shardCount n - (i + 1) + 1) + 1 := by omega
  simp only [WalkItem.rest, Heap.shards_drop hi, List.flatMap_cons, List.append_assoc]
  rw [hcount, succ_nsmul _ (h.shardCount n - (i + 1) + 1)]
  abel

theorem rest_visitAll (cs : List NodeId) :
    h.rest v tick (visitAll report cs) = h.belowAll v tick cs := by
  cases report with
  | true =>
      induction cs with
      | nil => rfl
      | cons c cs ih =>
          simp only [visitAll, if_true, List.flatMap_cons, Heap.rest_append, Heap.belowAll] at ih ⊢
          rw [ih]
          simp [Heap.rest, WalkItem.rest]
  | false =>
      have hnode : h.rest v tick (cs.map .node) = (cs.map (h.below v tick)).sum := by
        simp [Heap.rest, WalkItem.rest, Function.comp_def]
      have hrelease : h.rest v tick (cs.map .release) = (cs.map fun _ => 2 • tick).sum := by
        simp [Heap.rest, WalkItem.rest, Function.comp_def]
      simp only [visitAll, Bool.false_eq_true, if_false, Heap.rest_append, hnode, hrelease,
        Heap.belowAll, List.sum_map_add]

theorem rest_children_ge (report : Bool) {i : ℕ} {acc : List NodeId} (hi : ¬i < h.shardCount n) :
    (WalkItem.children n i acc).rest h v tick = tick + h.rest v tick (visitAll report acc) := by
  have hdrop : (h.shards n).drop i = [] :=
    List.drop_eq_nil_of_le (by simpa [Heap.shards] using hi)
  have hcount : h.shardCount n - i = 0 := by omega
  simp only [WalkItem.rest, rest_visitAll, hdrop, hcount, List.flatMap_nil, List.append_nil, zero_add,
    one_nsmul]

end Rest

/-! ## One step of a walk -/

/-- What a walk gathers at a shard: the guards it counts, or the records it collects. -/
def Heap.yields (h : Heap) (report : Bool) (sh : ShardId) : ℕ × Multiset InfoId :=
  if report then (0, ↑((h.registry sh).live h.infoAlive)) else ((h.shard sh).locals, 0)

/-- How many steps a walk has still to make. -/
def Heap.cost (h : Heap) (todo : List WalkItem) : ℕ := h.rest (fun _ => 0) 1 todo

theorem Heap.cost_cons (item : WalkItem) :
    h.cost (item :: todo) = item.rest h (fun _ => 0) 1 + h.cost todo := Heap.rest_cons item todo

theorem Heap.cost_append (items : List WalkItem) :
    h.cost (items ++ todo) = h.cost items + h.cost todo := Heap.rest_append items todo

/-- The nodes of the item are alive. -/
def WalkItem.Alive (h : Heap) : WalkItem → Prop
  | .node n => h.Live n
  | .shard _ => True
  | .children _ _ acc => ∀ c ∈ acc, h.Live c
  | .release c => h.Live c

/-- A walk that began at the node gathered so far what it has not still to gather. -/
structure Walking (h : Heap) (n : NodeId) (report : Bool) (todo : List WalkItem) (total : ℕ)
    (out : List InfoId) : Prop where
  kept : report = true → h.guardReport n = true
  alive : ∀ item ∈ todo, item.Alive h
  gathered : ((total, ↑out) : ℕ × Multiset InfoId) + h.rest (h.yields report) 0 todo =
    h.below (h.yields report) 0 n

theorem Walking.start (hn : h.Live n) (hkept : report = true → h.guardReport n = true) :
    Walking h n report [.node n] 0 [] where
  kept := hkept
  alive item hitem := by
    obtain rfl := List.mem_singleton.mp hitem
    exact hn
  gathered := by
    rw [Heap.rest_cons, Heap.rest_nil, add_zero]
    exact zero_add _

/-- The walk goes on with other items in the place of one. -/
theorem Walking.next {item : WalkItem} (hw : Walking h n report (item :: todo) total out)
    (items : List WalkItem)
    (hrest : item.rest h (h.yields report) 0 = h.rest (h.yields report) 0 items)
    (halive : ∀ i ∈ items, i.Alive h) : Walking h n report (items ++ todo) total out where
  kept := hw.kept
  alive i hi := (List.mem_append.mp hi).elim (halive i) fun hi => hw.alive i (List.mem_cons_of_mem _ hi)
  gathered := by
    rw [← hw.gathered, Heap.rest_append, Heap.rest_cons, hrest]

/-- References taken by a snapshot are references to live nodes. -/
theorem Heap.SameView.upgradeAll (hv : h₀.SameView h) {cs : List NodeId}
    (hcs : ∀ c ∈ cs, h₀.Live c) : h₀.SameView (upgradeAll h cs) where
  same := by rw [hv.same]; rfl
  live c := by
    refine Iff.trans ?_ (hv.live c)
    by_cases hc : c ∈ cs
    · have hlive : 0 < h.strong c := (hv.live c).mpr (hcs c hc)
      simp only [Heap.Live, Swansong.upgradeAll]
      omega
    · simp [Heap.Live, Swansong.upgradeAll, List.count_eq_zero_of_not_mem hc]
  alive := hv.alive
  records := hv.records

/-- What a report sweeps is dead, and what it collects is alive. -/
theorem Heap.SameView.sweep (hv : h₀.SameView h) {registry : ShardId → GuardRegistry}
    {infoStrong : InfoId → ℕ}
    (hreg : registry = Function.update h.registry sh ((h.registry sh).sweep h.infoAlive))
    (hinfo : infoStrong = fun id =>
      h.infoStrong id + (((h.registry sh).sweep h.infoAlive).live h.infoAlive).count id) :
    h₀.SameView { h with registry := registry, infoStrong := infoStrong } := by
  have halive : Heap.infoAlive { h with registry := registry, infoStrong := infoStrong } = h.infoAlive := by
    ext1 id
    refine decide_eq_decide.mpr ?_
    simp only [hinfo]
    by_cases hid : id ∈ ((h.registry sh).sweep h.infoAlive).live h.infoAlive
    · have hpos : 0 < h.infoStrong id := by simpa [Heap.infoAlive] using (List.mem_filter.mp hid).2
      omega
    · rw [List.count_eq_zero_of_not_mem hid, Nat.add_zero]
  refine ⟨?_, hv.live, halive.trans hv.alive, fun s => ?_⟩
  · rw [hv.same]
  · rw [halive, ← hv.records s, hreg]
    by_cases hs : s = sh
    · subst hs
      simp [GuardRegistry.live_sweep]
    · simp [hs]

theorem mem_visitAll {cs : List NodeId} {item : WalkItem} (hitem : item ∈ visitAll report cs) :
    ∃ c ∈ cs, item = .node c ∨ item = .release c := by
  cases report with
  | true =>
      obtain ⟨c, hc, hitem⟩ := List.mem_flatMap.mp hitem
      exact ⟨c, hc, by simpa using hitem⟩
  | false =>
      rcases List.mem_append.mp hitem with hitem | hitem
      · obtain ⟨c, hc, rfl⟩ := List.mem_map.mp hitem
        exact ⟨c, hc, .inl rfl⟩
      · obtain ⟨c, hc, rfl⟩ := List.mem_map.mp hitem
        exact ⟨c, hc, .inr rfl⟩

/-- **One step of a walk.**  It leaves the memory as walks see it, and what it has still to
gather goes down by what it gathers; a release drops a reference in one more step. -/
theorem Walking.step {item : WalkItem} (hl : Forest.Lists h₀.up h₀.Live (liveChildren h₀) h₀.size)
    (hv : h₀.SameView h) (hw : Walking h₀ n report (item :: todo) total out) :
    h₀.SameView (execWalk h report total out (item :: todo)).1 ∧
      ∃ todo' total' out', Walking h₀ n report todo' total' out' ∧
        ((execWalk h report total out (item :: todo)).2 = [.walk report todo' total' out'] ∧
            h₀.cost (item :: todo) = h₀.cost todo' + 1 ∨
          ∃ c, h₀.Live c ∧ (execWalk h report total out (item :: todo)).2 =
              [.life (.dropArc c), .walk report todo' total' out'] ∧
            h₀.cost (item :: todo) = h₀.cost todo' + 2) := by
  cases item with
  | node m =>
      have hm : h₀.Live m := hw.alive _ (List.mem_cons_self)
      have hnext := hw.next ((h₀.shards m).map .shard ++ [.children m 0 []])
        (by rw [rest_node hl hm, zero_add]) (by
          intro i hi
          rcases List.mem_append.mp hi with hi | hi
          · obtain ⟨sh, -, rfl⟩ := List.mem_map.mp hi
            trivial
          · obtain rfl := List.mem_singleton.mp hi
            simp [WalkItem.Alive])
      refine ⟨hv, _, _, _, hnext, .inl ⟨?_, ?_⟩⟩
      · simp [execWalk, hv.shards]
      · rw [Heap.cost_cons, Heap.cost_append, rest_node hl hm]
        show 1 + h₀.cost _ + h₀.cost todo = _
        omega
  | shard sh =>
      cases report with
      | false =>
          refine ⟨hv, todo, total + (h₀.shard sh).locals, out, ?_, .inl ⟨?_, ?_⟩⟩
          · have hgathered := hw.gathered
            refine ⟨hw.kept, fun i hi => hw.alive i (List.mem_cons_of_mem _ hi), ?_⟩
            rw [← hgathered, Heap.rest_cons]
            simp [WalkItem.rest, Heap.yields, ← add_assoc]
          · simp [execWalk, hv.shard]
          · rw [Heap.cost_cons]
            simp [WalkItem.rest, Nat.add_comm]
      | true =>
          refine ⟨hv.sweep rfl rfl, todo, total, out ++ (h₀.registry sh).live h₀.infoAlive, ?_,
            .inl ⟨?_, ?_⟩⟩
          · have hgathered := hw.gathered
            refine ⟨hw.kept, fun i hi => hw.alive i (List.mem_cons_of_mem _ hi), ?_⟩
            rw [← hgathered, Heap.rest_cons]
            simp [WalkItem.rest, Heap.yields, ← add_assoc, ← Multiset.coe_add]
          · simp [execWalk, GuardRegistry.live_sweep, hv.records]
          · rw [Heap.cost_cons]
            simp [WalkItem.rest, Nat.add_comm]
  | children m i acc =>
      have hacc : ∀ c ∈ acc, h₀.Live c := hw.alive _ List.mem_cons_self
      by_cases hi : i < h₀.shardCount m
      · have hlive : ∀ c ∈ shardChildren h₀ ⟨m, i⟩, h₀.Live c := fun c hc =>
          of_decide_eq_true (List.mem_filter.mp hc).2
        have hnext := hw.next [.children m (i + 1) (acc ++ shardChildren h₀ ⟨m, i⟩)]
          (by rw [rest_children_lt hi, zero_add, Heap.rest_cons, Heap.rest_nil, add_zero]) (by
            intro item hitem
            obtain rfl := List.mem_singleton.mp hitem
            exact fun c hc => (List.mem_append.mp hc).elim (hacc c) (hlive c))
        refine ⟨?_, _, _, _, hnext, .inl ⟨?_, ?_⟩⟩
        · simp only [execWalk, hv.shardCount, if_pos hi, hv.shardChildren]
          exact hv.upgradeAll hlive
        · simp [execWalk, hv.shardCount, hi, hv.shardChildren]
        · rw [Heap.cost_cons, rest_children_lt hi, List.singleton_append, Heap.cost_cons]
          omega
      · have hnext := hw.next (visitAll report acc)
          (by rw [rest_children_ge report hi, zero_add]) (by
            intro item hitem
            obtain ⟨c, hc, rfl | rfl⟩ := mem_visitAll hitem
            · exact hacc c hc
            · exact hacc c hc)
        refine ⟨?_, _, _, _, hnext, .inl ⟨?_, ?_⟩⟩
        · simp only [execWalk, hv.shardCount, if_neg hi]
          exact hv
        · simp [execWalk, hv.shardCount, hi]
        · rw [Heap.cost_cons, rest_children_ge report hi, Heap.cost_append]
          show 1 + h₀.cost _ + h₀.cost todo = _
          omega
  | release c =>
      have hnext := hw.next [] (by simp [WalkItem.rest]) (by simp)
      refine ⟨hv, _, _, _, hnext, .inr ⟨c, hw.alive _ List.mem_cons_self, rfl, ?_⟩⟩
      rw [Heap.cost_cons]
      simp [WalkItem.rest, Nat.add_comm]

/-! ## Threads that count or report -/

/-- A thread that counts the guards of a node's subtree, or reports them. -/
inductive Reader (h : Heap) (n : NodeId) : List Frame → Prop
  | done : Reader h n []
  | release : Reader h n [.life (.release n)]
  | walk {report : Bool} {todo : List WalkItem} {total : ℕ} {out : List InfoId} :
      Walking h n report todo total out →
      Reader h n [.walk report todo total out, .life (.release n)]
  /-- A visited child is released. -/
  | dropArc {c : NodeId} {k : List Frame} : h.Live c → Reader h n k →
      Reader h n (.life (.dropArc c) :: k)
  /-- A collected record is released. -/
  | dropInfo {id : InfoId} {k : List Frame} : Reader h n k → Reader h n (.guard (.dropInfo id) :: k)

theorem Reader.dropInfos {k : List Frame} (hk : Reader h n k) (ids : List InfoId) :
    Reader h n (ids.map (fun id => .guard (.dropInfo id)) ++ k) := by
  induction ids with
  | nil => exact hk
  | cons id ids ih => exact .dropInfo ih

theorem Reader.records_eq_zero {k : List Frame} (hr : Reader h n k) : ∀ f ∈ k, f.records = 0 := by
  induction hr with
  | done => simp
  | release => simp [Frame.records]
  | walk => simp [Frame.records]
  | dropArc _ _ ih => simpa [Frame.records] using ih
  | dropInfo _ ih => simpa [Frame.records] using ih

/-- A child that is released stays alive, if others hold it. -/
theorem Heap.SameView.dropArc (hv : h₀.SameView h) (hc : h₀.Live c) (hlt : h₀.strong c < h.strong c) :
    h₀.SameView (execLife h (.dropArc c)).1 ∧ (execLife h (.dropArc c)).2 = [] := by
  have hpos : 0 < h₀.strong c := hc
  refine ⟨⟨?_, fun m => ?_, hv.alive, hv.records⟩, ?_⟩
  · simp only [execLife]
    rw [hv.same]
  · refine Iff.trans ?_ (hv.live m)
    by_cases hm : m = c
    · subst hm
      simp only [Heap.Live, execLife, Function.update_self]
      omega
    · simp [Heap.Live, execLife, hm]
  · have hone : h.strong c ≠ 1 := by omega
    simp [execLife, hone]

/-- A record that is released stays alive, if it was. -/
theorem Heap.SameView.dropInfo {id : InfoId} (hv : h₀.SameView h) (index : ℕ) (choice : Bool)
    (hlt : h₀.infoStrong id < h.infoStrong id) :
    h₀.SameView (execGuard index choice h (.dropInfo id)).1 := by
  have halive : (execGuard index choice h (.dropInfo id)).1.infoAlive = h.infoAlive := by
    ext1 j
    by_cases hj : j = id
    · subst hj
      have hold : 0 < h₀.infoStrong j := by
        have : h.infoAlive j = true := by
          simp only [Heap.infoAlive, decide_eq_true_eq]
          omega
        rw [hv.alive] at this
        simpa [Heap.infoAlive] using this
      simp only [Heap.infoAlive, execGuard, Function.update_self]
      refine decide_eq_decide.mpr ?_
      omega
    · simp [Heap.infoAlive, execGuard, hj]
  refine ⟨?_, hv.live, halive.trans hv.alive, fun sh => ?_⟩
  · simp only [execGuard]
    rw [hv.same]
  · rw [halive]
    exact hv.records sh

/-- **One step of a reader.** -/
theorem Reader.exec (index : ℕ) (choice : Bool) {f : Frame} {k : List Frame}
    (hl : Forest.Lists h₀.up h₀.Live (liveChildren h₀) h₀.size) (hv : h₀.SameView h)
    (hr : Reader h₀ n (f :: k)) (harc : ∀ c, f = .life (.dropArc c) → h₀.strong c < h.strong c)
    (hinfo : ∀ id, f = .guard (.dropInfo id) → h₀.infoStrong id < h.infoStrong id) :
    h₀.SameView (Swansong.exec index choice h f).1 ∧
      Reader h₀ n ((Swansong.exec index choice h f).2 ++ k) := by
  cases hr with
  | release => exact ⟨hv, .done⟩
  | @walk report todo total out hw =>
      cases todo with
      | nil =>
          refine ⟨hv, ?_⟩
          cases report with
          | true => exact Reader.release.dropInfos out
          | false => exact .release
      | cons item todo =>
          obtain ⟨hv', todo', total', out', hw', ⟨hpush, -⟩ | ⟨c, hc, hpush, -⟩⟩ := hw.step hl hv
          · refine ⟨hv', ?_⟩
            rw [Swansong.exec, hpush]
            exact .walk hw'
          · refine ⟨hv', ?_⟩
            rw [Swansong.exec, hpush]
            exact .dropArc hc (.walk hw')
  | dropArc hc hk =>
      obtain ⟨hv', hpush⟩ := hv.dropArc hc (harc _ rfl)
      refine ⟨hv', ?_⟩
      rw [Swansong.exec, hpush]
      exact hk
  | dropInfo hk => exact ⟨hv.dropInfo index choice (hinfo _ rfl), hk⟩

/-! ## Runs of nothing but counts and reports -/

/-- Only calls of `guard_count` and `guard_report` that began after `s₀` make steps. -/
def ReadOnly (s₀ _ : State) : Act → Prop
  | .run i _ => s₀.pool.length ≤ i
  | .start _ (.guardCount _) | .start _ (.guardReport _) => True
  | .start _ _ => False

/-- The threads `R` count and report, and the rest is as in `s₀`. -/
structure Reading (s₀ : State) (R : List (Interleave.Thread Frame)) (s : State) : Prop where
  view : s₀.mem.SameView s.mem
  pool : s.pool = s₀.pool ++ R
  readers : ∀ t ∈ R, ∃ n, s₀.mem.Live n ∧ Reader s₀.mem n t.stack

namespace Reading
variable {R : List (Interleave.Thread Frame)} (hrd : Reading s₀ R s)
include hrd

theorem frames : s.frames = s₀.frames ++ Interleave.frames R := by
  rw [Interleave.Config.frames, hrd.pool, Interleave.frames_append]
  rfl

/-- Readers add the references they hold. -/
theorem strong (hr₀ : Reachable s₀) (hr : Reachable s) (c : NodeId) :
    (s.mem.strong c : ℤ) = s₀.mem.strong c + Interleave.total (Frame.refs c) ↑(Interleave.frames R) := by
  have h₀ := references_reach hr₀ c
  have h := references_reach hr c
  rw [hrd.frames, Interleave.total_coe_append] at h
  have hkids : s.mem.liveKids c = s₀.mem.liveKids c := by
    have htree : s.mem.size = s₀.mem.size ∧ s.mem.parent = s₀.mem.parent := by
      rw [hrd.view.same]
      exact ⟨rfl, rfl⟩
    simp only [Heap.liveKids, htree.1, htree.2]
    refine Count.countP_range_congr fun m _ => decide_eq_decide.mpr ?_
    exact and_congr_left' (hrd.view.live m)
  have hloose : s.mem.handles = s₀.mem.handles ∧ s.mem.observers = s₀.mem.observers ∧
      s.mem.guards = s₀.mem.guards := by
    rw [hrd.view.same]
    exact ⟨rfl, rfl, rfl⟩
  simp only [Heap.loose, Heap.observed, Heap.pinned, hloose.1, hloose.2.1, hloose.2.2, hkids] at h₀ h
  omega

/-- Others hold a child that a reader releases. -/
theorem strong_lt (hr₀ : Reachable s₀) (hr : Reachable s)
    (hf : .life (.dropArc c) ∈ Interleave.frames R) : s₀.mem.strong c < s.mem.strong c := by
  have hle := Interleave.le_total (Frame.refs_nonneg (n := c)) (Multiset.mem_coe.mpr hf)
  have hstrong := hrd.strong hr₀ hr c
  simp only [Frame.refs, Count.bit_true] at hle
  omega

/-- Readers add the records they hold. -/
theorem infoStrong (hr₀ : Reachable s₀) (hr : Reachable s) (id : InfoId) :
    s.mem.infoStrong id = s₀.mem.infoStrong id + (heldInfos ↑(Interleave.frames R)).count id := by
  have h₀ := (recorded_reach hr₀).strong id
  have h := (recorded_reach hr).strong id
  have hnone : (↑(Interleave.frames R) : Multiset Frame).bind Frame.records = 0 := by
    refine Multiset.eq_zero_of_forall_notMem fun r hr' => ?_
    obtain ⟨f, hf, hr'⟩ := Multiset.mem_bind.mp hr'
    obtain ⟨t, ht, hf⟩ := List.mem_flatMap.mp (Multiset.mem_coe.mp hf)
    obtain ⟨m, -, hreader⟩ := hrd.readers t ht
    rw [hreader.records_eq_zero f hf] at hr'
    cases hr'
  have hrecords : s.mem.records s.frames = s₀.mem.records s₀.frames := by
    rw [Heap.records, Heap.records, hrd.view.guards, hrd.frames, ← Multiset.coe_add,
      Multiset.add_bind, hnone, add_zero]
  have hheld : heldInfos s.frames = heldInfos s₀.frames + heldInfos ↑(Interleave.frames R) := by
    rw [hrd.frames, ← Multiset.coe_add]
    exact Multiset.add_bind _ _ _
  rw [hrecords, hheld, Multiset.count_add] at h
  omega

/-- **One step of readers.** -/
theorem step (hr₀ : Reachable s₀) (hq : Quiescent s₀) (hr : Reachable s) {a : Act} {s' : State}
    (ha : ReadOnly s₀ s a) (hs : machine.step s a = some s') : ∃ R', Reading s₀ R' s' := by
  cases a with
  | run i b =>
      obtain ⟨j, rfl⟩ := Nat.exists_eq_add_of_le ha
      have hsplit : s = ⟨s.mem, s₀.pool ++ R⟩ := by
        cases s
        exact congrArg _ hrd.pool
      rw [hsplit, Machine.step_run_append] at hs
      obtain ⟨s₁, hs₁, rfl⟩ := Option.map_eq_some_iff.mp hs
      rcases Machine.step_cases hs₁ with
        ⟨i, b, index, f, k, p, q, -, -, hpool, rfl⟩ | ⟨_, _, _, _, ha, -, -⟩
      · have hpool : R = p ++ ⟨index, f :: k⟩ :: q := hpool
        obtain ⟨n, hn, hreader⟩ := hrd.readers ⟨index, f :: k⟩ (by simp [hpool])
        have hmem : f ∈ (Interleave.frames R) := by
          simp [hpool, Interleave.frames_append, Interleave.frames_cons]
        have hexec := hreader.exec index b (hq.lists hr₀) hrd.view (by
          rintro c rfl
          exact hrd.strong_lt hr₀ hr hmem) (by
          rintro id rfl
          have hinfo := hrd.infoStrong hr₀ hr id
          have hpos : 0 < (heldInfos ↑(Interleave.frames R)).count id := by
            refine Multiset.count_pos.mpr (Multiset.mem_bind.mpr ⟨_, Multiset.mem_coe.mpr hmem, ?_⟩)
            exact Multiset.mem_singleton_self id
          omega)
        refine ⟨p ++ ⟨index, (machine.exec index b s.mem f).2 ++ k⟩ :: q, hexec.1, rfl, ?_⟩
        intro t ht
        rcases List.mem_append.mp ht with ht | ht
        · exact hrd.readers t (by simp [hpool, ht])
        · rcases List.mem_cons.mp ht with rfl | ht
          · exact ⟨n, hn, hexec.2⟩
          · exact hrd.readers t (by simp [hpool, ht])
      · cases ha
  | start index op =>
      obtain ⟨⟨h', fs⟩, hstart, rfl⟩ := Option.map_eq_some_iff.mp hs
      have hnew : ∀ n report, HasHandle s.mem n → (report = true → s.mem.guardReport n = true) →
          h' = s.mem → fs = [.walk report [.node n] 0 [], .life (.release n)] →
          ∃ R', Reading s₀ R' ⟨h', s.pool ++ [⟨index, fs⟩]⟩ := by
        rintro n report hhandle hkept rfl rfl
        have hlive : s₀.mem.Live n := (hrd.view.live n).mp ((references_reach hr).live_of_handle hhandle)
        rw [hrd.view.guardReport] at hkept
        refine ⟨R ++ [⟨index, [.walk report [.node n] 0 [], .life (.release n)]⟩], hrd.view, ?_,
          fun t ht => ?_⟩
        · rw [hrd.pool, List.append_assoc]
        · rcases List.mem_append.mp ht with ht | ht
          · exact hrd.readers t ht
          · obtain rfl := List.mem_singleton.mp ht
            exact ⟨n, hlive, .walk (.start hlive hkept)⟩
      cases op with
      | guardCount n =>
          obtain ⟨hhandle, he⟩ := Option.ite_none_right_eq_some.mp hstart
          obtain ⟨rfl, rfl⟩ := Prod.mk.inj (Option.some.inj he)
          exact hnew n false hhandle (by simp) rfl rfl
      | guardReport n =>
          obtain ⟨hhandle, he⟩ := Option.ite_none_right_eq_some.mp hstart
          obtain ⟨rfl, rfl⟩ := Prod.mk.inj (Option.some.inj he)
          exact hnew n (s.mem.guardReport n) hhandle id rfl rfl
      | _ => exact ha.elim

end Reading

theorem reading_leads (hr₀ : Reachable s₀) (hq : Quiescent s₀)
    (hl : machine.Leads (ReadOnly s₀) s₀ s) : Reachable s ∧ ∃ R, Reading s₀ R s := by
  induction hl with
  | refl => exact ⟨hr₀, [], .refl _, by simp, by simp⟩
  | step _ ha hs ih =>
      obtain ⟨hr, R, hrd⟩ := ih
      exact ⟨hr.step trivial hs, hrd.step hr₀ hq hr ha hs⟩

namespace Reading
variable {R : List (Interleave.Thread Frame)} {index i : ℕ} {k : List Frame}

theorem mem_of_get (hrd : Reading s₀ R s) (hge : s₀.pool.length ≤ i)
    (hi : s.pool[i]? = some ⟨index, k⟩) : ⟨index, k⟩ ∈ R := by
  rw [hrd.pool, List.getElem?_append_right hge] at hi
  exact List.mem_of_getElem? hi

/-- A walk in flight is a reader's. -/
theorem walking (hrd : Reading s₀ R s) (hq : Quiescent s₀)
    (hi : s.pool[i]? = some ⟨index, .walk report todo total out :: k⟩) : s₀.pool.length ≤ i ∧
      ∃ n, s₀.mem.Live n ∧ Walking s₀.mem n report todo total out ∧ k = [.life (.release n)] := by
  rcases Nat.lt_or_ge i s₀.pool.length with hlt | hge
  · rw [hrd.pool, List.getElem?_append_left hlt] at hi
    have hmem : .walk report todo total out ∈ s₀.frames := by
      refine List.mem_flatMap.mpr ⟨_, List.mem_of_getElem? hi, ?_⟩
      exact List.mem_cons_self
    cases hq _ hmem
  · obtain ⟨n, hn, hreader⟩ := hrd.readers _ (hrd.mem_of_get hge hi)
    cases hreader with
    | walk hw => exact ⟨hge, n, hn, hw, rfl⟩

/-- A reader that goes on alone comes to its result. -/
theorem finish (hr₀ : Reachable s₀) (hq : Quiescent s₀) (b : Bool) : ∀ {cost : ℕ} {s R todo total out},
    s₀.mem.cost todo ≤ cost → Reachable s → Reading s₀ R s →
    s.pool[i]? = some ⟨index, .walk report todo total out :: k⟩ →
    ∃ s' total' out', machine.Leads (fun _ a => a = .run i b) s s' ∧
      s'.pool[i]? = some ⟨index, .walk report [] total' out' :: k⟩ := by
  intro cost
  induction cost using Nat.strong_induction_on with
  | _ cost ih =>
      intro s R todo total out hcost hr hrd hi
      obtain ⟨hge, n, hn, hw, rfl⟩ := hrd.walking hq hi
      cases todo with
      | nil => exact ⟨s, total, out, .refl, hi⟩
      | cons item todo =>
          have hlt := (List.getElem?_eq_some_iff.mp hi).1
          obtain ⟨-, todo', total', out', hw', hnext⟩ := hw.step (hq.lists hr₀) hrd.view
          obtain ⟨s₁, hs₁⟩ : ∃ s₁, machine.step s (.run i b) = some s₁ := by
            simp [Machine.step, hi]
          have ha : ∀ s, ReadOnly s₀ s (.run i b) := fun _ => hge
          obtain ⟨R₁, hrd₁⟩ := hrd.step hr₀ hq hr (ha s) hs₁
          have hr₁ : Reachable s₁ := hr.step trivial hs₁
          have hi₁ : s₁.pool[i]? = some ⟨index, (execWalk s.mem report total out (item :: todo)).2 ++
              [.life (.release n)]⟩ := by
            simp only [Machine.step, hi, Option.some.injEq] at hs₁
            simp [← hs₁, hlt, machine, exec]
          rcases hnext with ⟨hpush, hcost'⟩ | ⟨c, hc, hpush, hcost'⟩
          · rw [hpush] at hi₁
            obtain ⟨s', total'', out'', hl, hi'⟩ :=
              ih (s₀.mem.cost todo') (by omega) le_rfl hr₁ hrd₁ hi₁
            exact ⟨s', total'', out'', hl.head rfl hs₁, hi'⟩
          · -- the release drops a reference in one more step
            rw [hpush, List.cons_append, List.singleton_append] at hi₁
            have hmem : .life (.dropArc c) ∈ Interleave.frames R₁ :=
              List.mem_flatMap.mpr ⟨_, hrd₁.mem_of_get hge hi₁, List.mem_cons_self⟩
            have hdrop := (hrd₁.view.dropArc hc (hrd₁.strong_lt hr₀ hr₁ hmem)).2
            obtain ⟨s₂, hs₂⟩ : ∃ s₂, machine.step s₁ (.run i b) = some s₂ := by
              simp [Machine.step, hi₁]
            obtain ⟨R₂, hrd₂⟩ := hrd₁.step hr₀ hq hr₁ (ha s₁) hs₂
            have hi₂ : s₂.pool[i]? = some ⟨index, [.walk report todo' total' out', .life (.release n)]⟩ := by
              have hlt₁ := (List.getElem?_eq_some_iff.mp hi₁).1
              simp only [Machine.step, hi₁, Option.some.injEq] at hs₂
              simp [← hs₂, hlt₁, machine, exec, hdrop]
            obtain ⟨s', total'', out'', hl, hi'⟩ :=
              ih (s₀.mem.cost todo') (by omega) le_rfl (hr₁.step trivial hs₂) hrd₂ hi₂
            exact ⟨s', total'', out'', (hl.head rfl hs₂).head rfl hs₁, hi'⟩

end Reading

/-! ## What there is to gather -/

theorem Heap.below_eq {A : Type} [AddCommMonoid A] (v : ShardId → A) (n : NodeId) :
    h.below v 0 n = (((h.subtree n).flatMap h.shards).map v).sum := by
  rw [Heap.below, List.map_flatMap, List.flatMap, List.sum_flatten, List.map_map]
  refine congrArg List.sum (List.map_congr_left fun m _ => ?_)
  simp [Heap.gather]

theorem sum_map_prod {α A B : Type} [AddCommMonoid A] [AddCommMonoid B] (f : α → A) (g : α → B)
    (l : List α) : (l.map fun x => (f x, g x)).sum = ((l.map f).sum, (l.map g).sum) := by
  induction l with
  | nil => rfl
  | cons x l ih => simp only [List.map_cons, List.sum_cons, ih, Prod.mk_add_mk]

theorem sum_map_coe {α β : Type} (f : α → List β) (l : List α) :
    (l.map fun x => (f x : Multiset β)).sum = ↑(l.flatMap f) := by
  induction l with
  | nil => rfl
  | cons x l ih => rw [List.map_cons, List.sum_cons, ih, List.flatMap_cons, Multiset.coe_add]

/-- At quiescence there are as many guards to count as there are in the subtree. -/
theorem Quiescent.below_count (hq : Quiescent s) (hr : Reachable s) (hn : s.mem.Live n) :
    s.mem.below (s.mem.yields false) 0 n = ((s.mem.guardsBelow n).length, 0) := by
  have hx := exact_of_quiescent hr hq
  have hw := (sound_reach hr).valid.wf
  have hlocals : ∀ sh ∈ (s.mem.subtree n).flatMap s.mem.shards,
      s.mem.yields false sh = ((s.mem.guards.filter fun g => g.shard = sh).length, 0) := by
    intro sh hsh
    obtain ⟨m, hm, hsh⟩ := List.mem_flatMap.mp hsh
    have hlive := ((hq.mem_subtree hr hn).mp hm).2
    have hhas := Heap.hasShard_of_mem_shards (hw.lt_of_live hlive) hsh
    obtain ⟨rfl, -⟩ := Heap.mem_shards.mp hsh
    rw [Heap.yields, if_neg Bool.false_ne_true, hx.locals sh hhas hlive, Heap.homed,
      List.countP_eq_length_filter]
  rw [Heap.below_eq, List.map_congr_left hlocals, sum_map_prod,
    ← (hq.perm_guardsBelow hr hn).length_eq, List.length_flatMap]
  simp

/-- At quiescence a registry yields the records of the guards homed on its shard. -/
theorem Quiescent.perm_live (hq : Quiescent s) (hr : Reachable s) (sh : ShardId) :
    ((s.mem.registry sh).live s.mem.infoAlive).Perm
      ((s.mem.guards.filter fun g => g.shard = sh).filterMap Guard.info) := by
  have hrec := recorded_reach hr
  have hplain : ∀ f ∈ s.frames, f.records = 0 ∧ f.heldInfos = 0 := by
    intro f hf
    have hidle := hq f hf
    unfold Frame.idle at hidle
    split at hidle <;> first | exact ⟨rfl, rfl⟩ | cases hidle
  have hrecords : s.mem.records s.frames = ↑(s.mem.guards.map Guard.record) := by
    have hnone : (↑s.frames : Multiset Frame).bind Frame.records = 0 := by
      rw [bind_coe, (sum_plain hplain).1]
    rw [Heap.records, hnone, add_zero, Multiset.map_coe]
  have hheld : heldInfos s.frames = 0 := by
    rw [heldInfos, bind_coe, (sum_plain hplain).2]
  rw [hrecords, hheld] at hrec
  have hdistinct : (s.mem.guards.filterMap Guard.info).Nodup := by
    have := hrec.distinct
    rw [Multiset.filterMap_coe, Multiset.coe_nodup, List.filterMap_map] at this
    exact this
  refine (List.perm_ext_iff_of_nodup ((hrec.nodup sh).filter _) ?_).mpr fun id => ?_
  · exact hdistinct.sublist (List.filter_sublist.filterMap _)
  · constructor
    · intro hid
      rcases hrec.owner hid with ⟨r, hmem, hshard, hinfo⟩ | hid
      · obtain ⟨g, hg, rfl⟩ := List.mem_map.mp (Multiset.mem_coe.mp hmem)
        exact List.mem_filterMap.mpr ⟨g, List.mem_filter.mpr ⟨hg, decide_eq_true hshard⟩, hinfo⟩
      · cases hid
    · intro hid
      obtain ⟨g, hmemg, hinfo⟩ := List.mem_filterMap.mp hid
      obtain ⟨hg, hshard⟩ := List.mem_filter.mp hmemg
      obtain rfl := of_decide_eq_true hshard
      have hmem : g.record ∈ (↑(s.mem.guards.map Guard.record) : Multiset Record) :=
        Multiset.mem_coe.mpr (List.mem_map_of_mem hg)
      refine List.mem_filter.mpr ⟨(hrec.registered _ hmem id hinfo).2, hrec.alive_of_mem ?_⟩
      exact (Multiset.mem_filterMap _ _).mpr ⟨g.record, hmem, hinfo⟩

/-- At quiescence the records to collect are those of the guards in the subtree. -/
theorem Quiescent.below_report (hq : Quiescent s) (hr : Reachable s) (hn : s.mem.Live n) :
    s.mem.below (s.mem.yields true) 0 n = (0, ↑((s.mem.guardsBelow n).filterMap Guard.info)) := by
  have hyields : s.mem.yields true =
      fun sh => (0, (↑((s.mem.registry sh).live s.mem.infoAlive) : Multiset InfoId)) :=
    funext fun _ => rfl
  have hlive : ∀ sh, (↑((s.mem.registry sh).live s.mem.infoAlive) : Multiset InfoId) =
      ↑((s.mem.guards.filter fun g => g.shard = sh).filterMap Guard.info) := fun sh =>
    Multiset.coe_eq_coe.mpr (hq.perm_live hr sh)
  rw [Heap.below_eq, hyields, sum_map_prod]
  simp only [hlive, sum_map_coe, ← List.filterMap_flatMap]
  refine Prod.ext (by simp) ?_
  exact Multiset.coe_eq_coe.mpr ((hq.perm_guardsBelow hr hn).filterMap _)

theorem guardReport_lineage (hr : Reachable s) {a : NodeId} (ha : a ∈ s.mem.lineage n) :
    s.mem.guardReport n = s.mem.guardReport a := by
  refine (sound_reach hr).valid.wf.lineage_down
    (motive := fun m => s.mem.guardReport m = s.mem.guardReport a) ?_ a ha rfl
  exact fun c q hp hq => (guardReport_parent hr hp).trans hq

/-- Under a root that keeps a report, every guard has a record. -/
theorem info_of_guardBelow (hr : Reachable s) (hkept : s.mem.guardReport n = true) {g : Guard}
    (hg : g ∈ s.mem.guardsBelow n) : g.info.isSome = true := by
  obtain ⟨hg, hbelow⟩ := List.mem_filter.mp hg
  have hmem : g.record ∈ s.mem.records s.frames :=
    Multiset.mem_add.mpr (.inl (Multiset.mem_map_of_mem _ (Multiset.mem_coe.mpr hg)))
  rw [← hkept, ← guardReport_lineage hr (of_decide_eq_true hbelow)]
  exact (recorded_reach hr).kept _ hmem

namespace Reading
variable {R : List (Interleave.Thread Frame)} {index i : ℕ} (hrd : Reading s₀ R s)
include hrd

/-- A complete count is the number of guards in the subtree. -/
theorem counted (hr : Reachable s₀) (hq : Quiescent s₀)
    (hi : s.pool[i]? = some ⟨index, [.walk false [] total out, .life (.release n)]⟩) :
    total = (s₀.mem.guardsBelow n).length := by
  obtain ⟨-, m, hm, hw, hk⟩ := hrd.walking hq hi
  obtain rfl : n = m := by simpa using hk
  have hgathered := hw.gathered
  rw [Heap.rest_nil, add_zero, hq.below_count hr hm] at hgathered
  exact congrArg Prod.fst hgathered

/-- A complete report has the records of the guards in the subtree. -/
theorem reported (hr : Reachable s₀) (hq : Quiescent s₀)
    (hi : s.pool[i]? = some ⟨index, [.walk true [] total out, .life (.release n)]⟩) :
    out.Perm ((s₀.mem.guardsBelow n).filterMap Guard.info) ∧
      ∀ g ∈ s₀.mem.guardsBelow n, g.info.isSome = true := by
  obtain ⟨-, m, hm, hw, hk⟩ := hrd.walking hq hi
  obtain rfl : n = m := by simpa using hk
  have hgathered := hw.gathered
  rw [Heap.rest_nil, add_zero, hq.below_report hr hm] at hgathered
  refine ⟨Multiset.coe_eq_coe.mp (congrArg Prod.snd hgathered), fun g hg => ?_⟩
  exact info_of_guardBelow hr (hw.kept rfl) hg

end Reading

/-- **Guard counts are exact.**  From a state with no operation in flight, let calls of
`guard_count` and `guard_report` run in any number and any order.  A call that counts
arrives at the number of guards in its node's subtree; a call that reports arrives at their
records, each once; a call that goes on alone, while the others are stopped outside the
shards' critical sections, comes to its end; and with all of them returned the references
are as before. -/
theorem guard_count_exact (hr : Reachable s₀) (hq : Quiescent s₀)
    (hl : machine.Leads (ReadOnly s₀) s₀ s) :
    (∀ (i index : ℕ) n total out,
      s.pool[i]? = some ⟨index, [.walk false [] total out, .life (.release n)]⟩ →
        total = (s₀.mem.guardsBelow n).length) ∧
    (∀ (i index : ℕ) n total out,
      s.pool[i]? = some ⟨index, [.walk true [] total out, .life (.release n)]⟩ →
        out.Perm ((s₀.mem.guardsBelow n).filterMap Guard.info) ∧
          ∀ g ∈ s₀.mem.guardsBelow n, g.info.isSome = true) ∧
    (∀ (i index : ℕ) report todo total out k b,
      s.pool[i]? = some ⟨index, .walk report todo total out :: k⟩ →
        ∃ s' total' out', machine.Leads (fun _ a => a = .run i b) s s' ∧
          s'.pool[i]? = some ⟨index, .walk report [] total' out' :: k⟩) ∧
    (s.frames = s₀.frames → s.mem.strong = s₀.mem.strong ∧ s.mem.infoStrong = s₀.mem.infoStrong) := by
  obtain ⟨hreach, R, hrd⟩ := reading_leads hr hq hl
  refine ⟨?_, ?_, ?_, ?_⟩
  · intro i index n total out hi
    exact hrd.counted hr hq hi
  · intro i index n total out hi
    exact hrd.reported hr hq hi
  · intro i index report todo total out k b hi
    exact Reading.finish hr hq b le_rfl hreach hrd hi
  · intro hframes
    have hnone : Interleave.frames R = [] := by
      have := hrd.frames
      rw [hframes] at this
      exact List.append_right_eq_self.mp this.symm
    refine ⟨funext fun c => ?_, funext fun id => ?_⟩
    · have hstrong := hrd.strong hr hreach c
      rw [hnone, Interleave.total_nil, add_zero] at hstrong
      exact_mod_cast hstrong
    · have hinfo := hrd.infoStrong hr hreach id
      rw [hnone] at hinfo
      simpa [heldInfos] using hinfo

/-- A child with a guard. -/
def guardedTree : List Act :=
  List.flatten [[.start 0 (.newRoot 2 true), .start 1 (.child 0)], List.replicate 7 (.run 1 false),
    [.start 1 (.guard 1 ⟨"src/tasks.rs", 120, 9⟩)], List.replicate 10 (.run 2 false)]

/-- A count and a report, which hold the child at the same time. -/
def countedAndReported : List Act :=
  List.flatten [[.start 0 (.guardCount 0), .start 1 (.guardReport 0)],
    List.replicate 7 (.run 3 false), List.replicate 12 (.run 4 false),
    List.replicate 5 (.run 3 false)]

/-- The condition `ReadOnly`, checked from a state with three threads. -/
def readsAlone : State → Act → Bool
  | _, .run i _ => 3 ≤ i
  | _, .start _ (.guardCount _) | _, .start _ (.guardReport _) => true
  | _, .start _ _ => false

theorem countedAndReported_run : ∃ (s₀ s : State) (i₃ i₄ : ℕ), Reachable s₀ ∧ Quiescent s₀ ∧
    machine.Leads (ReadOnly s₀) s₀ s ∧
    s.pool[3]? = some ⟨i₃, [.walk false [] 1 [], .life (.release 0)]⟩ ∧
    s.pool[4]? = some ⟨i₄, [.walk true [] 0 [0], .life (.release 0)]⟩ := by
  obtain ⟨s₀, hr, hs⟩ := Machine.exists_reachable (M := machine) guardedTree
    (p := fun s₀ => s₀.frames = [] ∧ s₀.pool.length = 3 ∧
      (machine.run readsAlone s₀ countedAndReported).any fun s => decide
        (s.pool[3]?.map Interleave.Thread.stack = some [.walk false [] 1 [], .life (.release 0)] ∧
          s.pool[4]?.map Interleave.Thread.stack = some [.walk true [] 0 [0], .life (.release 0)]))
    (by decide)
  obtain ⟨hfr, hlen, hany⟩ := of_decide_eq_true hs
  rw [Option.any_eq_true] at hany
  obtain ⟨s, hrun, hpool⟩ := hany
  obtain ⟨h₃, h₄⟩ := of_decide_eq_true hpool
  obtain ⟨⟨i₃, _⟩, h₃, rfl⟩ := Option.map_eq_some_iff.mp h₃
  obtain ⟨⟨i₄, _⟩, h₄, rfl⟩ := Option.map_eq_some_iff.mp h₄
  have hcheck : ∀ c a, readsAlone c a = true → ReadOnly s₀ c a := by
    intro c a hcheck
    cases a with
    | run i b =>
        have hle : 3 ≤ i := of_decide_eq_true hcheck
        exact hlen.trans_le hle
    | start index op => cases op <;> trivial
  exact ⟨s₀, s, i₃, i₄, hr, by simp [Quiescent, hfr], .of_run hcheck hrun, h₃, h₄⟩

theorem guard_count_exact_countedAndReported : ∃ s₀ s : State, Reachable s₀ ∧
    machine.Leads (ReadOnly s₀) s₀ s ∧ (s₀.mem.guardsBelow 0).length = 1 ∧
    [0].Perm ((s₀.mem.guardsBelow 0).filterMap Guard.info) := by
  obtain ⟨s₀, s, i₃, i₄, hr, hq, hl, h₃, h₄⟩ := countedAndReported_run
  obtain ⟨hcount, hreport, -, -⟩ := guard_count_exact hr hq hl
  exact ⟨s₀, s, hr, hl, (hcount 3 i₃ 0 1 [] h₃).symm, (hreport 4 i₄ 0 0 [0] h₄).1⟩

end Swansong
