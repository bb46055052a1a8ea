import Swansong.Valid
import Mathlib.Data.Multiset.Bind

/-!
# Provenance

Under a root that keeps a guard report, every guard has a provenance record of its own,
which its shard's registry lists for as long as it is alive.  A record dies with its
guard, unless a report has collected it in the meantime; then it dies with the report.

## Main definitions

* `Record` — a guard's shard, its location and its record.
* `Heap.records` — the guards there are, those that calls are creating or dropping included.
* `Frame.heldInfos` — the records that a frame holds for a while.
* `Recorded`, `recorded_reach` — the invariant.
-/

namespace Swansong

open Interleave (Machine)

variable {index : ℕ} {choice : Bool} {h h' : Heap} {fr K : Multiset Frame} {s : State} {sh : ShardId}
  {location : Location} {id : InfoId}

/-- Where a guard is homed, where it was created, and its provenance record. -/
structure Record where
  shard : ShardId
  location : Location
  info : Option InfoId
  deriving DecidableEq, Repr

def Guard.record (g : Guard) : Record := ⟨g.shard, g.location, g.info⟩

/-- The guard that a call is creating or dropping. -/
def Frame.records : Frame → Multiset Record
  | .guard (.finish sh _ location info) => {⟨sh, location, info⟩}
  | .guard (.cloneAdd g info) => {⟨g.shard, g.location, info⟩}
  | .guard (.drop g) => {g.record}
  | _ => 0

/-- The provenance records that a frame holds without a guard: one to be dropped, and those
that a report collected. -/
def Frame.heldInfos : Frame → Multiset InfoId
  | .guard (.dropInfo id) => {id}
  | .walk true _ _ out => out
  | _ => 0

/-- The guards there are. -/
def Heap.records (h : Heap) (fr : Multiset Frame) : Multiset Record :=
  (h.guards : Multiset Guard).map Guard.record + fr.bind Frame.records

/-- The provenance records held without a guard. -/
def heldInfos (fr : Multiset Frame) : Multiset InfoId := fr.bind Frame.heldInfos

/-! ## The registry -/

namespace GuardRegistry
variable {alive : InfoId → Bool} {r : GuardRegistry} {guard : InfoId}

theorem mem_of_mem_register (hid : id ∈ (r.register alive guard).guards) :
    id ∈ r.guards ∨ id = guard := by
  rcases guards_register alive r guard with he | he
  · simpa [he] using hid
  · rw [he, List.mem_append, List.mem_singleton] at hid
    exact hid.imp_left List.mem_of_mem_filter

/-- A registration keeps the live entries. -/
theorem mem_register_of_alive (hid : id ∈ r.guards) (ha : alive id = true) :
    id ∈ (r.register alive guard).guards := by
  rcases guards_register alive r guard with he | he
  · simp [he, hid]
  · simp [he, hid, ha]

theorem mem_register_self : guard ∈ (r.register alive guard).guards := by
  rcases guards_register alive r guard with he | he <;> simp [he]

theorem nodup_register (hr : r.guards.Nodup) (hg : guard ∉ r.guards) :
    (r.register alive guard).guards.Nodup := by
  rcases guards_register alive r guard with he | he
  · rw [he, ← List.concat_eq_append]
    exact hr.concat hg
  · rw [he, ← List.concat_eq_append]
    exact (hr.filter _).concat fun hmem => hg (List.mem_of_mem_filter hmem)

end GuardRegistry

/-! ## The invariant -/

/-- What holds of the guards `R` there are, when the provenance records `B` are held
without a guard. -/
structure Recorded (h : Heap) (R : Multiset Record) (B : Multiset InfoId) : Prop where
  /-- A guard has a record exactly if its node keeps a report. -/
  kept : ∀ r ∈ R, r.info.isSome = h.guardReport r.shard.node
  /-- Its record has its location and is registered on its shard. -/
  registered : ∀ r ∈ R, ∀ id, r.info = some id →
    h.infoLocation id = r.location ∧ id ∈ (h.registry r.shard).guards
  /-- No two guards share a record. -/
  distinct : (R.filterMap Record.info).Nodup
  strong : ∀ id, h.infoStrong id = (R.filterMap Record.info).count id + B.count id
  nodup : ∀ sh, (h.registry sh).guards.Nodup
  home : ∀ {sh sh' id}, id ∈ (h.registry sh).guards → id ∈ (h.registry sh').guards → sh = sh'
  fresh : ∀ {sh id}, id ∈ (h.registry sh).guards → id < h.nextInfo
  borrowed : ∀ id ∈ B, id < h.nextInfo

namespace Recorded
variable {R : Multiset Record} {B : Multiset InfoId} {r : Record}

/-- What else a step writes makes no difference. -/
theorem congr (hr : Recorded h R B) (hlocation : h'.infoLocation = h.infoLocation)
    (hstrong : h'.infoStrong = h.infoStrong) (hnext : h'.nextInfo = h.nextInfo)
    (hregistry : h'.registry = h.registry)
    (hreport : ∀ r ∈ R, h'.guardReport r.shard.node = h.guardReport r.shard.node) :
    Recorded h' R B where
  kept r hrec := by rw [hreport r hrec]; exact hr.kept r hrec
  registered := by rw [hlocation, hregistry]; exact hr.registered
  distinct := hr.distinct
  strong := by rw [hstrong]; exact hr.strong
  nodup := by rw [hregistry]; exact hr.nodup
  home := by rw [hregistry]; exact hr.home
  fresh := by rw [hregistry, hnext]; exact hr.fresh
  borrowed := by rw [hnext]; exact hr.borrowed

theorem lt_of_mem (hr : Recorded h R B) (hid : id ∈ R.filterMap Record.info) : id < h.nextInfo := by
  obtain ⟨r, hrec, hinfo⟩ := (Multiset.mem_filterMap _ _).mp hid
  exact hr.fresh (hr.registered r hrec id hinfo).2

/-- The record of a guard is alive. -/
theorem alive_of_mem (hr : Recorded h R B) (hid : id ∈ R.filterMap Record.info) :
    h.infoAlive id = true := by
  have hcount := Multiset.count_pos.mpr hid
  have hstrong := hr.strong id
  simp only [Heap.infoAlive, decide_eq_true_eq]
  omega

/-- What a registry yields is the record of a guard of its shard, or held without one. -/
theorem owner (hr : Recorded h R B) (hid : id ∈ (h.registry sh).live h.infoAlive) :
    (∃ r ∈ R, r.shard = sh ∧ r.info = some id) ∨ id ∈ B := by
  obtain ⟨hreg, halive⟩ := List.mem_filter.mp hid
  have hpos : 0 < h.infoStrong id := by simpa [Heap.infoAlive] using halive
  rw [hr.strong id] at hpos
  rcases Nat.add_pos_iff_pos_or_pos.mp hpos with hpos | hpos
  · obtain ⟨r, hrec, hinfo⟩ := (Multiset.mem_filterMap _ _).mp (Multiset.count_pos.mp hpos)
    exact .inl ⟨r, hrec, hr.home (hr.registered r hrec id hinfo).2 hreg, hinfo⟩
  · exact .inr (Multiset.count_pos.mp hpos)

/-- A new guard records its provenance. -/
theorem register (hr : Recorded h R B) : Recorded (provenance h sh location).1
    (⟨sh, location, (provenance h sh location).2⟩ ::ₘ R) B := by
  unfold provenance
  split
  · -- the node keeps a report: a new record is registered
    rename_i hreport
    dsimp only
    have hnew : h.nextInfo ∉ R.filterMap Record.info := fun hid => Nat.lt_irrefl _ (hr.lt_of_mem hid)
    have hnewB : h.nextInfo ∉ B := fun hid => Nat.lt_irrefl _ (hr.borrowed _ hid)
    have hnewReg : ∀ s, h.nextInfo ∉ (h.registry s).guards := fun s hid =>
      Nat.lt_irrefl _ (hr.fresh hid)
    have hinfos : (⟨sh, location, some h.nextInfo⟩ ::ₘ R : Multiset Record).filterMap Record.info =
        h.nextInfo ::ₘ R.filterMap Record.info := Multiset.filterMap_cons_some _ _ _ rfl
    have hmem : ∀ {s id}, id ∈ (Function.update h.registry sh
        ((h.registry sh).register h.infoAlive h.nextInfo) s).guards →
        id ∈ (h.registry s).guards ∨ (id = h.nextInfo ∧ s = sh) := by
      intro s id hid
      by_cases hs : s = sh
      · subst hs
        rw [Function.update_self] at hid
        exact (GuardRegistry.mem_of_mem_register hid).imp_right fun he => ⟨he, rfl⟩
      · rw [Function.update_of_ne hs] at hid
        exact .inl hid
    constructor
    · intro r hrec
      rcases Multiset.mem_cons.mp hrec with rfl | hrec
      · simp [hreport]
      · exact hr.kept r hrec
    · intro r hrec id hinfo
      rcases Multiset.mem_cons.mp hrec with rfl | hrec
      · obtain rfl := Option.some.inj hinfo
        simp [GuardRegistry.mem_register_self]
      · have hid : id ∈ R.filterMap Record.info := (Multiset.mem_filterMap _ _).mpr ⟨r, hrec, hinfo⟩
        have hne : id ≠ h.nextInfo := fun he => hnew (he ▸ hid)
        obtain ⟨hloc, hreg⟩ := hr.registered r hrec id hinfo
        refine ⟨by simpa [hne] using hloc, ?_⟩
        by_cases hs : r.shard = sh
        · simp only [hs, Function.update_self]
          exact GuardRegistry.mem_register_of_alive (hs ▸ hreg) (hr.alive_of_mem hid)
        · simpa only [Function.update_of_ne hs] using hreg
    · rw [hinfos]
      exact Multiset.nodup_cons.mpr ⟨hnew, hr.distinct⟩
    · intro id
      rw [hinfos]
      by_cases hid : id = h.nextInfo
      · subst hid
        simp [Multiset.count_eq_zero_of_notMem hnew, Multiset.count_eq_zero_of_notMem hnewB]
      · simpa [hid] using hr.strong id
    · intro s
      by_cases hs : s = sh
      · subst hs
        simp only [Function.update_self]
        exact GuardRegistry.nodup_register (hr.nodup s) (hnewReg s)
      · simpa only [Function.update_of_ne hs] using hr.nodup s
    · intro s s' id hid hid'
      rcases hmem hid with hold | ⟨rfl, rfl⟩
      · rcases hmem hid' with hold' | ⟨rfl, rfl⟩
        · exact hr.home hold hold'
        · exact absurd hold (hnewReg s)
      · rcases hmem hid' with hold' | ⟨-, rfl⟩
        · exact absurd hold' (hnewReg s')
        · rfl
    · intro s id hid
      rcases hmem hid with hold | ⟨rfl, -⟩
      · exact Nat.lt_succ_of_lt (hr.fresh hold)
      · exact Nat.lt_succ_self _
    · intro id hid
      exact Nat.lt_succ_of_lt (hr.borrowed id hid)
  · -- it keeps none
    rename_i hreport
    have hinfos : (⟨sh, location, none⟩ ::ₘ R : Multiset Record).filterMap Record.info =
        R.filterMap Record.info := Multiset.filterMap_cons_none _ _ rfl
    refine { hr with kept := ?_, registered := ?_, distinct := ?_, strong := ?_ }
    · intro r hrec
      rcases Multiset.mem_cons.mp hrec with rfl | hrec
      · simpa using hreport
      · exact hr.kept r hrec
    · intro r hrec id hinfo
      rcases Multiset.mem_cons.mp hrec with rfl | hrec
      · cases hinfo
      · exact hr.registered r hrec id hinfo
    · rw [hinfos]
      exact hr.distinct
    · rw [hinfos]
      exact hr.strong

/-- A guard goes, and leaves its record to be dropped. -/
theorem release (hr : Recorded h (r ::ₘ R) B) : Recorded h R (r.info.elim 0 singleton + B) := by
  have hmem : ∀ r' ∈ R, r' ∈ r ::ₘ R := fun r' hrec => Multiset.mem_cons_of_mem hrec
  cases hinfo : r.info with
  | none =>
      have hinfos := Multiset.filterMap_cons_none (f := Record.info) r R hinfo
      rw [Option.elim_none, zero_add]
      exact { hr with
        kept := fun r' hrec => hr.kept r' (hmem r' hrec)
        registered := fun r' hrec => hr.registered r' (hmem r' hrec)
        distinct := hinfos ▸ hr.distinct
        strong := hinfos ▸ hr.strong }
  | some i =>
      have hinfos := Multiset.filterMap_cons_some Record.info r R hinfo
      have hlt : i < h.nextInfo := hr.lt_of_mem (hinfos ▸ Multiset.mem_cons_self i _)
      have hdistinct := hr.distinct
      rw [hinfos] at hdistinct
      refine { hr with
        kept := fun r' hrec => hr.kept r' (hmem r' hrec)
        registered := fun r' hrec => hr.registered r' (hmem r' hrec)
        distinct := (Multiset.nodup_cons.mp hdistinct).2
        strong := fun id => ?_
        borrowed := fun id hid => ?_ }
      · have hstrong := hr.strong id
        rw [hinfos, Multiset.count_cons] at hstrong
        rw [Option.elim_some, Multiset.count_add, Multiset.count_singleton]
        omega
      · rcases Multiset.mem_add.mp hid with hid | hid
        · obtain rfl := Multiset.mem_singleton.mp hid
          exact hlt
        · exact hr.borrowed id hid

/-- A record that was held without a guard is dropped. -/
theorem dropInfo (hr : Recorded h R (id ::ₘ B)) :
    Recorded { h with infoStrong := Function.update h.infoStrong id (h.infoStrong id - 1) } R B := by
  refine { hr with strong := fun j => ?_, borrowed := fun j hj => ?_ }
  · have hstrong := hr.strong j
    rw [Multiset.count_cons] at hstrong
    by_cases hj : j = id
    · subst hj
      simp only [Function.update_self]
      simp only [if_true] at hstrong
      omega
    · simpa [hj] using hstrong
  · exact hr.borrowed j (Multiset.mem_cons_of_mem hj)

/-- A report sweeps a registry and collects the live records. -/
theorem report (hr : Recorded h R B) :
    let swept := (h.registry sh).sweep h.infoAlive
    let live := swept.live h.infoAlive
    Recorded { h with
      registry := Function.update h.registry sh swept
      infoStrong := fun id => h.infoStrong id + live.count id } R (↑live + B) := by
  intro swept live
  have hsub : ∀ {s id}, id ∈ (Function.update h.registry sh swept s).guards →
      id ∈ (h.registry s).guards := by
    intro s id hid
    by_cases hs : s = sh
    · subst hs
      rw [Function.update_self] at hid
      exact List.mem_of_mem_filter hid
    · rwa [Function.update_of_ne hs] at hid
  refine { hr with registered := ?_, strong := ?_, nodup := ?_, home := ?_, fresh := ?_, borrowed := ?_ }
  · intro r hrec id hinfo
    obtain ⟨hloc, hreg⟩ := hr.registered r hrec id hinfo
    refine ⟨hloc, ?_⟩
    have hid : id ∈ R.filterMap Record.info := (Multiset.mem_filterMap _ _).mpr ⟨r, hrec, hinfo⟩
    by_cases hs : r.shard = sh
    · simp only [hs, Function.update_self]
      exact List.mem_filter.mpr ⟨hs ▸ hreg, hr.alive_of_mem hid⟩
    · simpa only [Function.update_of_ne hs] using hreg
  · intro id
    have hstrong := hr.strong id
    rw [Multiset.count_add, Multiset.coe_count]
    simp only
    omega
  · intro s
    by_cases hs : s = sh
    · subst hs
      simp only [Function.update_self]
      exact (hr.nodup s).filter _
    · simpa only [Function.update_of_ne hs] using hr.nodup s
  · intro s s' id hid hid'
    exact hr.home (hsub hid) (hsub hid')
  · intro s id hid
    exact hr.fresh (hsub hid)
  · intro id hid
    rcases Multiset.mem_add.mp hid with hid | hid
    · have hreg : id ∈ (h.registry sh).guards :=
        List.mem_of_mem_filter (List.mem_of_mem_filter (Multiset.mem_coe.mp hid))
      exact hr.fresh hreg
    · exact hr.borrowed id hid

end Recorded

/-! ## Steps -/

theorem Heap.records_cons (f : Frame) : h.records (f ::ₘ K) = f.records + h.records K := by
  rw [records, records, Multiset.cons_bind]
  exact add_left_comm _ _ _

theorem bind_coe {α β : Type} (f : α → Multiset β) (l : List α) :
    (l : Multiset α).bind f = (l.map f).sum := by
  rw [Multiset.bind, Multiset.join, Multiset.map_coe, Multiset.sum_coe]

theorem sum_singletons {α : Type} (l : List α) :
    (l.map fun a => ({a} : Multiset α)).sum = l := by
  induction l with
  | nil => rfl
  | cons a l ih => rw [List.map_cons, List.sum_cons, ih, Multiset.singleton_add, Multiset.cons_coe]

theorem Heap.records_add (fs : List Frame) :
    h.records (↑fs + K) = (fs.map Frame.records).sum + h.records K := by
  rw [records, records, Multiset.add_bind, bind_coe]
  exact add_left_comm _ _ _

/-- A new guard comes into a client's hands. -/
theorem Heap.records_cons_guard {g : Guard} (hg : h'.guards = g :: h.guards) :
    h'.records fr = g.record ::ₘ h.records fr := by
  rw [records, records, hg, ← Multiset.cons_coe, Multiset.map_cons, Multiset.cons_add]

theorem heldInfos_cons (f : Frame) : heldInfos (f ::ₘ K) = f.heldInfos + heldInfos K :=
  Multiset.cons_bind f K Frame.heldInfos

theorem heldInfos_add (fs : List Frame) :
    heldInfos (↑fs + K) = (fs.map Frame.heldInfos).sum + heldInfos K := by
  rw [heldInfos, heldInfos, Multiset.add_bind, bind_coe]

/-- The guards there are are homed on allocated shards. -/
theorem hasShard_of_mem_records (hv : Valid h fr) {r : Record} (hr : r ∈ h.records fr) :
    h.HasShard r.shard := by
  rcases Multiset.mem_add.mp hr with hr | hr
  · obtain ⟨g, hg, rfl⟩ := Multiset.mem_map.mp hr
    exact (hv.wf.guards g hg).1
  · obtain ⟨f, hf, hr⟩ := Multiset.mem_bind.mp hr
    have hfv := hv.frames f hf
    unfold Frame.records at hr
    split at hr
    · obtain rfl := Multiset.mem_singleton.mp hr
      exact hfv.1
    · obtain rfl := Multiset.mem_singleton.mp hr
      exact hfv.1
    · obtain rfl := Multiset.mem_singleton.mp hr
      exact hfv.1
    · cases hr

/-- Frames that hold no guard and no record. -/
theorem sum_plain {fs : List Frame} (hfs : ∀ g ∈ fs, g.records = 0 ∧ g.heldInfos = 0) :
    (fs.map Frame.records).sum = 0 ∧ (fs.map Frame.heldInfos).sum = 0 :=
  ⟨List.sum_eq_zero (by simpa using fun g hg => (hfs g hg).1),
    List.sum_eq_zero (by simpa using fun g hg => (hfs g hg).2)⟩

variable (index choice h) in
theorem plain_exec {f : Frame} (hguard : ∀ f', f ≠ .guard f')
    (hwalk : ∀ report todo total out, f ≠ .walk report todo total out) :
    (f.records = 0 ∧ f.heldInfos = 0) ∧ ∀ g ∈ (exec index choice h f).2, g.records = 0 ∧ g.heldInfos = 0 := by
  cases f with
  | guard f => exact absurd rfl (hguard f)
  | walk report todo total out => exact absurd rfl (hwalk report todo total out)
  | arrive f =>
      refine ⟨⟨rfl, rfl⟩, fun g hg => ?_⟩
      rcases mem_execArrive hg with ⟨_, rfl⟩ | ⟨_, rfl⟩ | ⟨_, rfl⟩ <;> exact ⟨rfl, rfl⟩
  | depart f =>
      refine ⟨⟨rfl, rfl⟩, fun g hg => ?_⟩
      rcases mem_execDepart hg with ⟨_, rfl⟩ | ⟨_, rfl⟩ <;> exact ⟨rfl, rfl⟩
  | stop f =>
      refine ⟨⟨rfl, rfl⟩, fun g hg => ?_⟩
      rcases mem_execStop hg with ⟨_, rfl⟩ | ⟨_, _, rfl⟩ | ⟨_, rfl⟩ | ⟨_, rfl⟩ <;> exact ⟨rfl, rfl⟩
  | notify event m => exact ⟨⟨rfl, rfl⟩, by simp [exec, execNotify]⟩
  | life f =>
      refine ⟨⟨rfl, rfl⟩, fun g hg => ?_⟩
      rcases mem_execLife hg with ⟨_, rfl⟩ | ⟨_, -, rfl⟩ | ⟨_, rfl⟩ | ⟨_, -, rfl⟩ | ⟨_, -, rfl⟩ <;>
        exact ⟨rfl, rfl⟩
  | child f =>
      refine ⟨⟨rfl, rfl⟩, fun g hg => ?_⟩
      rcases mem_execChild hg with ⟨_, rfl⟩ | ⟨_, rfl⟩ <;> exact ⟨rfl, rfl⟩
  | wait f =>
      refine ⟨⟨rfl, rfl⟩, fun g hg => ?_⟩
      rcases mem_execWait hg with ⟨_, rfl⟩ | ⟨_, rfl⟩ <;> exact ⟨rfl, rfl⟩
  | poll f =>
      refine ⟨⟨rfl, rfl⟩, fun g hg => ?_⟩
      obtain ⟨_, rfl⟩ := mem_execPoll hg
      exact ⟨rfl, rfl⟩

/-- The parts of the memory that provenance is about. -/
def SameProvenance (h h' : Heap) : Prop :=
  h'.infoLocation = h.infoLocation ∧ h'.infoStrong = h.infoStrong ∧ h'.nextInfo = h.nextInfo ∧
    h'.registry = h.registry

variable (index choice h) in
theorem sameProvenance_exec {f : Frame} (hguard : ∀ f', f ≠ .guard f')
    (hwalk : ∀ report todo total out, f ≠ .walk report todo total out) :
    SameProvenance h (exec index choice h f).1 ∧ (exec index choice h f).1.guards = h.guards := by
  cases f with
  | guard f => exact absurd rfl (hguard f)
  | walk report todo total out => exact absurd rfl (hwalk report todo total out)
  | arrive f =>
      obtain ⟨_, _, he⟩ := execArrive_heap index choice h f
      rw [exec, he]
      exact ⟨⟨rfl, rfl, rfl, rfl⟩, rfl⟩
  | depart f =>
      obtain ⟨_, _, he⟩ := execDepart_heap h f
      rw [exec, he]
      exact ⟨⟨rfl, rfl, rfl, rfl⟩, rfl⟩
  | stop f =>
      obtain ⟨_, _, _, _, _, _, he⟩ := execStop_heap h f
      rw [exec, he]
      exact ⟨⟨rfl, rfl, rfl, rfl⟩, rfl⟩
  | notify event m => exact ⟨⟨rfl, rfl, rfl, rfl⟩, rfl⟩
  | life f =>
      obtain ⟨_, _, _, _, _, _, he⟩ := execLife_heap h f
      rw [exec, he]
      exact ⟨⟨rfl, rfl, rfl, rfl⟩, rfl⟩
  | child f =>
      obtain ⟨_, _, _, _, _, _, _, _, _, he⟩ := execChild_heap index h f
      rw [exec, he]
      exact ⟨⟨rfl, rfl, rfl, rfl⟩, rfl⟩
  | wait f =>
      obtain ⟨_, _, _, _, he⟩ := execWait_heap h f
      rw [exec, he]
      exact ⟨⟨rfl, rfl, rfl, rfl⟩, rfl⟩
  | poll f =>
      obtain ⟨_, _, he⟩ := execPoll_heap choice h f
      rw [exec, he]
      exact ⟨⟨rfl, rfl, rfl, rfl⟩, rfl⟩

/-- A step that leaves provenance alone may move guards from frames to clients. -/
theorem recorded_of_same {f : Frame} (hv : Valid h (f ::ₘ K))
    (hr : Recorded h (h.records (f ::ₘ K)) (heldInfos (f ::ₘ K))) {fs : List Frame}
    (he : h.Extends h') (hsame : SameProvenance h h')
    (hrecords : h'.records (↑fs + K) = h.records (f ::ₘ K))
    (hheld : heldInfos (↑fs + K) = heldInfos (f ::ₘ K)) :
    Recorded h' (h'.records (↑fs + K)) (heldInfos (↑fs + K)) := by
  rw [hrecords, hheld]
  refine hr.congr hsame.1 hsame.2.1 hsame.2.2.1 hsame.2.2.2 fun r hrec => ?_
  exact he.guardReport _ (hasShard_of_mem_records hv hrec).1

@[simp] theorem provenance_guards : (provenance h sh location).1.guards = h.guards := by
  unfold provenance
  split <;> rfl

theorem records_congr (hg : h'.guards = h.guards) : h'.records fr = h.records fr := by
  rw [Heap.records, Heap.records, hg]

attribute [local simp] Heap.records_add Heap.records_cons heldInfos_add heldInfos_cons bind_coe
  Frame.records Frame.heldInfos

theorem recorded_execGuard {f : GuardFrame} (hv : Valid h (.guard f ::ₘ K))
    (hr : Recorded h (h.records (.guard f ::ₘ K)) (heldInfos (.guard f ::ₘ K))) :
    Recorded (execGuard index choice h f).1
      ((execGuard index choice h f).1.records (↑(execGuard index choice h f).2 + K))
      (heldInfos (↑(execGuard index choice h f).2 + K)) := by
  have he : h.Extends (execGuard index choice h f).1 := extends_exec (f := .guard f)
  cases f with
  | new n location =>
      let sh : ShardId := ⟨n, h.shardIndex index n⟩
      have hreg : Recorded (provenance h sh location).1 _ _ := hr.register
      simpa [execGuard, records_congr provenance_guards] using hreg
  | finish sh pin location info =>
      refine recorded_of_same hv hr he ?_ ?_ (by simp [execGuard])
      · cases pin <;> exact ⟨rfl, rfl, rfl, rfl⟩
      · have hguards : (execGuard index choice h (.finish sh pin location info)).1.guards =
            ⟨h.nextGuard, sh, pin, location, info⟩ :: h.guards := by
          cases pin <;> rfl
        rw [Heap.records_add, Heap.records_cons_guard hguards]
        simp [execGuard, Guard.record]
  | forShard sh location =>
      refine recorded_of_same hv hr he ⟨rfl, rfl, rfl, rfl⟩ ?_ ?_
      · simp only [execGuard, forShardNext]
        (repeat' split) <;> simp
      · simp only [execGuard, forShardNext]
        (repeat' split) <;> simp
  | forShardAdd sh location state =>
      refine recorded_of_same hv hr he ?_ ?_ ?_
      · simp only [execGuard]
        split <;> exact ⟨rfl, rfl, rfl, rfl⟩
      · simp only [execGuard, forShardNext]
        (repeat' split) <;> simp [Heap.records]
      · simp only [execGuard, forShardNext]
        (repeat' split) <;> simp
  | forShardFinish sh location =>
      have hreg : Recorded (provenance h sh location).1 _ _ := hr.register
      have hguards : (execGuard index choice h (.forShardFinish sh location)).1.guards =
          ⟨(provenance h sh location).1.nextGuard, sh, false, location,
            (provenance h sh location).2⟩ :: h.guards :=
        congrArg (List.cons _) provenance_guards
      have hfinish : Recorded (execGuard index choice h (.forShardFinish sh location)).1 _ _ :=
        hreg.congr rfl rfl rfl rfl fun _ _ => rfl
      rw [Heap.records_add, Heap.records_cons_guard hguards]
      simpa [execGuard, Guard.record] using hfinish
  | upgrade sh location =>
      refine recorded_of_same hv hr he ?_ ?_ ?_
      · simp only [execGuard]
        split <;> exact ⟨rfl, rfl, rfl, rfl⟩
      · simp only [execGuard]
        split <;> simp [Heap.records]
      · simp only [execGuard]
        split <;> simp
  | clone g =>
      have hreg : Recorded (provenance h g.shard g.location).1 _ _ := hr.register
      simpa [execGuard, records_congr provenance_guards] using hreg
  | cloneAdd g info =>
      refine recorded_of_same hv hr he ⟨rfl, rfl, rfl, rfl⟩ ?_ (by simp [execGuard])
      simp [execGuard, Heap.records]
  | release g =>
      exact recorded_of_same hv hr he ⟨rfl, rfl, rfl, rfl⟩ (by simp [execGuard]) (by simp [execGuard])
  | drop g =>
      have hg : Recorded h (g.record ::ₘ h.records K) (heldInfos K) := by simpa using hr
      have hrelease : Recorded (execGuard index choice h (.drop g)).1 (h.records K)
          (g.info.elim 0 singleton + heldInfos K) := by
        refine hg.release.congr ?_ ?_ ?_ ?_ fun _ _ => ?_ <;> rfl
      have hrecords : ((execGuard index choice h (.drop g)).2.map Frame.records).sum = 0 := by
        by_cases hempty : (h.shard g.shard).sub .localOne = .emptied <;> cases hp : g.pin <;>
          cases hi : g.info <;> simp [execGuard, hempty, hp, hi]
      have hheld : ((execGuard index choice h (.drop g)).2.map Frame.heldInfos).sum =
          g.info.elim 0 singleton := by
        by_cases hempty : (h.shard g.shard).sub .localOne = .emptied <;> cases hp : g.pin <;>
          cases hi : g.info <;> simp [execGuard, hempty, hp, hi]
      rw [Heap.records_add, hrecords, zero_add, heldInfos_add, hheld]
      exact hrelease
  | flushUpgrade sh =>
      refine recorded_of_same hv hr he ?_ ?_ ?_
      · simp only [execGuard]
        split <;> exact ⟨rfl, rfl, rfl, rfl⟩
      · simp only [execGuard]
        split <;> simp [Heap.records]
      · simp only [execGuard]
        split <;> simp
  | dropInfo id =>
      have hdrop : Recorded _ (h.records K) (heldInfos K) := Recorded.dropInfo (by simpa using hr)
      simpa [execGuard, Heap.records] using hdrop
  | dropValue w g =>
      exact recorded_of_same hv hr he ⟨rfl, rfl, rfl, rfl⟩ (by simp [execGuard]) (by simp [execGuard])

theorem recorded_execWalk {report : Bool} {todo : List WalkItem} {total : ℕ} {out : List InfoId}
    (hv : Valid h (.walk report todo total out ::ₘ K))
    (hr : Recorded h (h.records (.walk report todo total out ::ₘ K))
      (heldInfos (.walk report todo total out ::ₘ K))) :
    Recorded (execWalk h report total out todo).1
      ((execWalk h report total out todo).1.records (↑(execWalk h report total out todo).2 + K))
      (heldInfos (↑(execWalk h report total out todo).2 + K)) := by
  have he : h.Extends (execWalk h report total out todo).1 :=
    extends_execWalk
  cases todo with
  | nil =>
      refine recorded_of_same hv hr he ⟨rfl, rfl, rfl, rfl⟩ ?_ ?_
      · cases report <;> simp [execWalk, Function.comp_def]
      · cases report <;> simp [execWalk, Function.comp_def, sum_singletons]
  | cons item todo =>
      cases item with
      | node n =>
          refine recorded_of_same hv hr he ⟨rfl, rfl, rfl, rfl⟩ (by simp [execWalk]) ?_
          cases report <;> simp [execWalk]
      | shard sh =>
          cases report with
          | false =>
              exact recorded_of_same hv hr he ⟨rfl, rfl, rfl, rfl⟩ (by simp [execWalk]) (by simp [execWalk])
          | true =>
              have hrep : Recorded (execWalk h true total out (.shard sh :: todo)).1 _ _ := hr.report
              have hrecords : (execWalk h true total out (.shard sh :: todo)).1.records =
                  h.records := funext fun _ => records_congr rfl
              rw [hrecords]
              simpa [execWalk, ← Multiset.coe_add, add_assoc, add_left_comm] using hrep
      | children n i acc =>
          refine recorded_of_same hv hr he ?_ ?_ ?_
          · simp only [execWalk]
            split <;> exact ⟨rfl, rfl, rfl, rfl⟩
          · simp only [execWalk]
            split
            · have hsame : ∀ fr, (upgradeAll h (shardChildren h ⟨n, i⟩)).records fr = h.records fr :=
                fun fr => records_congr rfl
              simp [hsame]
            · simp
          · simp only [execWalk]
            split <;> cases report <;> simp
      | release c =>
          refine recorded_of_same hv hr he ⟨rfl, rfl, rfl, rfl⟩ (by simp [execWalk]) ?_
          cases report <;> simp [execWalk]

theorem recorded_exec {f : Frame} (hv : Valid h (f ::ₘ K))
    (hr : Recorded h (h.records (f ::ₘ K)) (heldInfos (f ::ₘ K))) :
    Recorded (exec index choice h f).1
      ((exec index choice h f).1.records (↑(exec index choice h f).2 + K))
      (heldInfos (↑(exec index choice h f).2 + K)) := by
  by_cases hguard : ∃ f', f = .guard f'
  · obtain ⟨f, rfl⟩ := hguard
    exact recorded_execGuard hv hr
  by_cases hwalk : ∃ report todo total out, f = .walk report todo total out
  · obtain ⟨report, todo, total, out, rfl⟩ := hwalk
    exact recorded_execWalk hv hr
  have hguard : ∀ f', f ≠ .guard f' := fun f' he => hguard ⟨f', he⟩
  have hwalk : ∀ report todo total out, f ≠ .walk report todo total out :=
    fun report todo total out he => hwalk ⟨report, todo, total, out, he⟩
  obtain ⟨⟨hrecords, hheld⟩, hplain⟩ := plain_exec index choice h hguard hwalk
  obtain ⟨hsame, hguards⟩ := sameProvenance_exec index choice h hguard hwalk
  obtain ⟨hfs, hfs'⟩ := sum_plain hplain
  refine recorded_of_same hv hr extends_exec hsame ?_ ?_
  · rw [Heap.records_add, hfs, Heap.records_cons, hrecords, records_congr hguards]
  · rw [heldInfos_add, hfs', heldInfos_cons, hheld]

theorem records_start {fr fs : List Frame} {op : Op} (hs : start index h fr op = some (h', fs)) :
    h'.records (↑fs + ↑fr) = h.records ↑fr ∧ heldInfos (↑fs + ↑fr) = heldInfos ↑fr := by
  have htake : ∀ {g : Guard}, g ∈ h.guards →
      g.record ::ₘ (takeGuard h g).records ↑fr = h.records ↑fr := by
    intro g hg
    have hperm : (h.guards : Multiset Guard) = g ::ₘ ↑(h.guards.erase g) :=
      Multiset.coe_eq_coe.mpr (List.perm_cons_erase hg)
    rw [Heap.records, Heap.records, hperm, Multiset.map_cons, Multiset.cons_add]
    rfl
  rw [Heap.records_add, heldInfos_add]
  unfold start at hs
  split at hs <;>
    simp only [Option.ite_none_right_eq_some, Option.some.injEq, Prod.mk.injEq] at hs <;>
    obtain ⟨hcan, rfl, rfl⟩ := hs
  case h_12 g => exact ⟨by simpa using htake hcan.1, by simp⟩
  case h_13 g => exact ⟨by simpa using htake hcan.1, by simp⟩
  case h_15 i g =>
    have hsame : ∀ l, Heap.records { takeGuard h g with interrupts := l } ↑fr =
        (takeGuard h g).records ↑fr := fun _ => records_congr rfl
    exact ⟨by simpa [hsame] using htake hcan.2.1, by simp⟩
  case h_17 n => exact ⟨by simp, by cases h.guardReport n <;> simp⟩
  all_goals exact ⟨by simp [takeHandle, newRoot, Heap.records], by simp⟩

theorem recorded_reach {P : State → Act → Prop} (hr : machine.Reach P s) :
    Recorded s.mem (s.mem.records s.frames) (heldInfos s.frames) := by
  refine discipline.invariant (J := Valid) (I := fun h fr => Recorded h (h.records fr) (heldInfos fr))
    valid_reach ?_ ?_ ?_ hr
  · constructor <;> simp [machine, Heap.empty, Heap.records, heldInfos]
  · intro index b h f K _ hv _ hi
    exact recorded_exec hv hi
  · intro index h fr op h' fs hs hv _ hi
    have hsame : SameProvenance h h' := by
      obtain ⟨_, _, _, _, _, _, _, _, _, _, rfl⟩ := start_heap hs
      exact ⟨rfl, rfl, rfl, rfl⟩
    obtain ⟨hrecords, hheld⟩ := records_start hs
    rw [hrecords, hheld]
    refine hi.congr hsame.1 hsame.2.1 hsame.2.2.1 hsame.2.2.2 fun r hrec => ?_
    exact (extends_start hs).guardReport _ (hasShard_of_mem_records hv hrec).1

/-! ## Children keep a report if their parents do -/

/-- A child keeps a report exactly if its parent does. -/
theorem guardReport_parent {P : State → Act → Prop} (hr : machine.Reach P s) :
    ∀ {c q}, s.mem.parent c = some q → s.mem.guardReport c = s.mem.guardReport q.node := by
  refine discipline.invariant (J := Valid)
    (I := fun h _ => ∀ {c q}, h.parent c = some q → h.guardReport c = h.guardReport q.node)
    valid_reach ?_ ?_ ?_ hr
  · intro c q hq
    cases hq
  · intro index b h f K _ hv hv' hi c q hq
    have he : h.Extends (exec index b h f).1 := extends_exec
    by_cases hc : c < h.size
    · have hold : h.parent c = some q := he.parent c hc ▸ hq
      have hlt := (hv.wf.parent hold).2.1
      rw [machine, he.guardReport c hc, he.guardReport q.node (hlt.trans hc)]
      exact hi hold
    · -- the step allocated the child
      have hnew : h.parent c ≠ some q := fun hold => hc (hv.wf.parent hold).1
      by_cases hchild : ∃ f', f = .child f'
      · obtain ⟨f, rfl⟩ := hchild
        cases f with
        | alloc p k =>
            have hp : p < h.size := (hv.frames _ (Multiset.mem_cons_self _ K)).1
            rcases eq_or_ne c h.size with rfl | hne
            · obtain rfl : q = ⟨p, k⟩ := by simpa [machine, exec, execChild, eq_comm] using hq
              simp [machine, exec, execChild, Nat.ne_of_lt hp]
            · exact absurd (by simpa [machine, exec, execChild, hne] using hq) hnew
        | register m =>
            simp only [machine, exec, execChild] at hq
            split at hq <;> exact absurd hq hnew
        | check m =>
            simp only [machine, exec, execChild] at hq
            split at hq <;> exact absurd hq hnew
        | _ => exact absurd hq hnew
      · have hsame := (tree_exec index b h fun f' hf => hchild ⟨f', hf⟩).2.1
        exact absurd (by simpa [machine, hsame] using hq) hnew
  · intro index h fr op h' fs hs hv hv' hi c q hq
    have hparent : h'.parent = h.parent := by
      obtain ⟨_, _, _, _, _, _, _, _, _, _, rfl⟩ := start_heap hs
      rfl
    rw [hparent] at hq
    have he := extends_start hs
    have hlt := (hv.wf.parent hq).2.1
    have hc := (hv.wf.parent hq).1
    rw [he.guardReport c hc, he.guardReport q.node (hlt.trans hc)]
    exact hi hq

/-! ## The result -/

/-- Whether a call is creating or dropping a guard with the record, or holds the record. -/
def Frame.holdsInfo (id : InfoId) (f : Frame) : Prop :=
  (∃ r ∈ f.records, r.info = some id) ∨ id ∈ f.heldInfos

/-- **Provenance is exact.**  In every reachable state a guard has a record exactly if its
node keeps a guard report; the record has the guard's location, and its shard's registry
yields it; no two guards share a record, and no registry yields a record twice, nor do two
registries yield the same.  What a registry yields is the record of a guard homed on its
shard, or of one that a call is creating or dropping, or is held by a call. -/
theorem provenance_exact (hr : Reachable s) :
    (∀ g ∈ s.mem.guards, g.info.isSome = s.mem.guardReport g.shard.node ∧
      ∀ id, g.info = some id → s.mem.infoLocation id = g.location ∧
        id ∈ (s.mem.registry g.shard).live s.mem.infoAlive) ∧
    (s.mem.guards.filterMap Guard.info).Nodup ∧
    (∀ sh, ((s.mem.registry sh).live s.mem.infoAlive).Nodup) ∧
    (∀ sh id, id ∈ (s.mem.registry sh).live s.mem.infoAlive →
      (∀ sh', id ∈ (s.mem.registry sh').live s.mem.infoAlive → sh' = sh) ∧
      ((∃ g ∈ s.mem.guards, g.shard = sh ∧ g.info = some id) ∨
        ∃ f ∈ s.frames, f.holdsInfo id)) := by
  have hrec := recorded_reach hr
  have hmem : ∀ g ∈ s.mem.guards, g.record ∈ s.mem.records s.frames := fun g hg =>
    Multiset.mem_add.mpr (.inl (Multiset.mem_map_of_mem _ (Multiset.mem_coe.mpr hg)))
  refine ⟨fun g hg => ⟨hrec.kept _ (hmem g hg), fun id hinfo => ?_⟩, ?_, ?_, ?_⟩
  · obtain ⟨hloc, hreg⟩ := hrec.registered _ (hmem g hg) id hinfo
    refine ⟨hloc, List.mem_filter.mpr ⟨hreg, hrec.alive_of_mem ?_⟩⟩
    exact (Multiset.mem_filterMap _ _).mpr ⟨g.record, hmem g hg, hinfo⟩
  · have hdistinct := hrec.distinct
    rw [Heap.records, Multiset.filterMap_add, Multiset.nodup_add, Multiset.filterMap_map,
      Multiset.filterMap_coe, Multiset.coe_nodup] at hdistinct
    exact hdistinct.1
  · exact fun sh => (hrec.nodup sh).filter _
  · intro sh id hid
    refine ⟨fun sh' hid' => hrec.home (List.mem_of_mem_filter hid') (List.mem_of_mem_filter hid), ?_⟩
    rcases hrec.owner hid with ⟨r, hr', hshard, hinfo⟩ | hheld
    · rcases Multiset.mem_add.mp hr' with hg | hf
      · obtain ⟨g, hmemg, rfl⟩ := Multiset.mem_map.mp hg
        exact .inl ⟨g, hmemg, hshard, hinfo⟩
      · obtain ⟨f, hf, hr'⟩ := Multiset.mem_bind.mp hf
        exact .inr ⟨f, hf, .inl ⟨r, hr', hinfo⟩⟩
    · obtain ⟨f, hf, hid⟩ := Multiset.mem_bind.mp hheld
      exact .inr ⟨f, hf, .inr hid⟩

/-- A guard on a root that keeps a report is cloned, and the clone is dropped while a report
holds the records of both. -/
def reportedClone : List Act :=
  List.flatten [[.start 0 (.newRoot 1 true), .start 0 (.guard 0 ⟨"src/main.rs", 7, 5⟩)],
    List.replicate 6 (.run 1 false),
    [.start 0 (.cloneGuard ⟨0, ⟨0, 0⟩, false, ⟨"src/main.rs", 7, 5⟩, some 0⟩)],
    List.replicate 4 (.run 2 false), [.start 0 (.guardReport 0)], List.replicate 2 (.run 3 false),
    [.start 0 (.dropGuard ⟨1, ⟨0, 0⟩, false, ⟨"src/main.rs", 7, 5⟩, some 1⟩)],
    List.replicate 2 (.run 4 false)]

theorem provenance_exact_reportedClone : ∃ s, Reachable s ∧
    (∃ g ∈ s.mem.guards, g.info = some 0 ∧ s.mem.infoLocation 0 = g.location) ∧
    ∃ f ∈ s.frames, f.holdsInfo 1 := by
  obtain ⟨s, hr, hs⟩ := Machine.exists_reachable (M := machine) reportedClone
    (p := fun s => s.mem.guards = [⟨0, ⟨0, 0⟩, false, ⟨"src/main.rs", 7, 5⟩, some 0⟩] ∧
      1 ∈ (s.mem.registry ⟨0, 0⟩).live s.mem.infoAlive) (by decide)
  obtain ⟨hg, hlive⟩ := of_decide_eq_true hs
  obtain ⟨hguards, -, -, hentries⟩ := provenance_exact hr
  have hmem : ⟨0, ⟨0, 0⟩, false, ⟨"src/main.rs", 7, 5⟩, some 0⟩ ∈ s.mem.guards := by
    rw [hg]
    exact List.mem_singleton_self _
  refine ⟨s, hr, ⟨_, hmem, rfl, ((hguards _ hmem).2 0 rfl).1⟩, ?_⟩
  refine (hentries ⟨0, 0⟩ 1 hlive).2.resolve_left ?_
  rintro ⟨g, hg', -, hinfo⟩
  rw [hg, List.mem_singleton] at hg'
  rw [hg'] at hinfo
  cases hinfo

end Swansong
