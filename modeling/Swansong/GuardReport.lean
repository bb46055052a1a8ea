import Swansong.Walks
import Swansong.Lib.Grouping

/-!
# Guard reports

A report groups the records that a walk collected by the locations where the guards were
created.  Taken at rest, it is about exactly the guards of the node's subtree; if the tree
keeps no report, it says how many there are.

## Main definitions

* `GuardReport.fromInfos`, `GuardReport.ofUnrecorded` — the two kinds of reports.
* `GuardReport.Reports` — a report is about exactly these guards.
* `guard_report_exact` — the result.
-/

namespace Swansong

open Interleave (Machine)

/-! ## Aggregation -/

/-- Locations are ordered by file, line and column. -/
instance : Ord Location where
  compare a b := (compare a.file b.file).then
    ((compare a.line b.line).then (compare a.column b.column))

/-- What a report reads of a record: its location, and its age if there is a clock. -/
structure GuardInfo where
  location : Location
  age : Option ℕ
  deriving DecidableEq, Repr

structure GuardReportEntry where
  location : Location
  count : ℕ
  oldestAge : Option ℕ
  deriving DecidableEq, Repr

structure GuardReport where
  entries : List GuardReportEntry
  /-- Guards counted without provenance, when the tree keeps no guard report. -/
  unrecorded : ℕ
  deriving DecidableEq, Repr

/-- One more guard of the entry's location. -/
def GuardReportEntry.add (entry : GuardReportEntry) (info : GuardInfo) : GuardReportEntry :=
  { entry with count := entry.count + 1, oldestAge := max entry.oldestAge info.age }

/-- Oldest first, and then by location. -/
def GuardReportEntry.cmp (a b : GuardReportEntry) : Ordering :=
  (compare b.oldestAge a.oldestAge).then (compare a.location b.location)

namespace GuardReport

def fromInfos (infos : List GuardInfo) : GuardReport :=
  let byLocation : Std.TreeMap Location GuardReportEntry :=
    infos.foldl (fun m info => m.alter info.location fun entry =>
      some ((entry.getD ⟨info.location, 0, none⟩).add info)) ∅
  ⟨(byLocation.toList.map Prod.snd).mergeSort fun a b => (a.cmp b).isLE, 0⟩

/-- The report of a tree that keeps none. -/
def ofUnrecorded (guardCount : ℕ) : GuardReport := ⟨[], guardCount⟩

def guardCount (r : GuardReport) : ℕ :=
  (r.entries.map GuardReportEntry.count).sum + r.unrecorded

def isEmpty (r : GuardReport) : Bool := r.guardCount = 0

end GuardReport

/-! ## The orders -/

instance : Std.TransOrd Location :=
  inferInstanceAs (Std.TransCmp (compareLex (compareOn Location.file)
    (compareLex (compareOn Location.line) (compareOn Location.column))))

instance : Std.LawfulEqOrd Location where
  eq_of_compare {a b} he := by
    obtain ⟨hfile, he⟩ := Ordering.then_eq_eq.mp he
    obtain ⟨hline, hcolumn⟩ := Ordering.then_eq_eq.mp he
    cases a
    cases b
    simp_all

instance : Std.TransCmp GuardReportEntry.cmp :=
  inferInstanceAs (Std.TransCmp (compareLex (fun a b => compareOn GuardReportEntry.oldestAge b a)
    (compareOn GuardReportEntry.location)))

theorem age_le_refl (a : Option ℕ) : a ≤ a := by
  cases a <;> simp

theorem age_le_max (a b : Option ℕ) : a ≤ max a b ∧ b ≤ max a b := by
  cases a <;> cases b <;> simp

theorem age_max_choice (a b : Option ℕ) : max a b = a ∨ max a b = b := by
  cases a with
  | none => exact .inr (by cases b <;> rfl)
  | some x =>
      cases b with
      | none => exact .inl rfl
      | some y => exact (Nat.le_total x y).symm.imp (by simp) (by simp)

theorem age_le_trans {a b c : Option ℕ} (hab : a ≤ b) (hbc : b ≤ c) : a ≤ c := by
  cases a <;> cases b <;> cases c <;> simp_all
  omega

theorem age_le_antisymm {a b : Option ℕ} (hab : a ≤ b) (hba : b ≤ a) : a = b := by
  cases a <;> cases b <;> simp_all
  omega

theorem cmp_total (a b : GuardReportEntry) : ((a.cmp b).isLE || (b.cmp a).isLE) = true := by
  have hswap : b.cmp a = (a.cmp b).swap := Std.OrientedCmp.eq_swap
  rw [hswap]
  cases a.cmp b <;> rfl

/-- Of two entries with different locations, the greater one is older or comes later. -/
theorem cmp_isLE {a b : GuardReportEntry} (hle : (a.cmp b).isLE = true)
    (hne : a.location ≠ b.location) : compare a.oldestAge b.oldestAge = .gt ∨
      a.oldestAge = b.oldestAge ∧ compare a.location b.location = .lt := by
  cases hage : compare b.oldestAge a.oldestAge with
  | lt => exact .inl (Std.OrientedCmp.gt_of_lt hage)
  | eq =>
      rw [GuardReportEntry.cmp, hage] at hle
      refine .inr ⟨(Std.LawfulEqCmp.eq_of_compare hage).symm, ?_⟩
      cases hlocation : compare a.location b.location with
      | lt => rfl
      | eq => exact absurd (Std.LawfulEqCmp.eq_of_compare hlocation) hne
      | gt =>
          rw [hlocation] at hle
          cases hle
  | gt =>
      rw [GuardReportEntry.cmp, hage] at hle
      cases hle

/-! ## What a report is about -/

namespace GuardReport

/-- The report is about exactly the guards with these records. -/
structure Reports (r : GuardReport) (infos : List GuardInfo) : Prop where
  /-- One entry for each location. -/
  locations : ∀ l, l ∈ r.entries.map GuardReportEntry.location ↔ ∃ i ∈ infos, i.location = l
  distinct : (r.entries.map GuardReportEntry.location).Nodup
  count : ∀ e ∈ r.entries, e.count = infos.countP fun i => i.location = e.location
  /-- The age of an entry is the age of its oldest guard. -/
  oldest : ∀ e ∈ r.entries, ∀ i ∈ infos, i.location = e.location → i.age ≤ e.oldestAge
  attained : ∀ e ∈ r.entries, ∃ i ∈ infos, i.location = e.location ∧ i.age = e.oldestAge
  /-- Older entries come first, and entries of one age are in the order of their locations. -/
  sorted : r.entries.Pairwise fun a b => compare a.oldestAge b.oldestAge = .gt ∨
    a.oldestAge = b.oldestAge ∧ compare a.location b.location = .lt
  guardCount : r.guardCount = infos.length

/-- The order of the records makes no difference. -/
theorem Reports.perm {r : GuardReport} {infos infos' : List GuardInfo} (hr : r.Reports infos)
    (hperm : infos.Perm infos') : r.Reports infos' where
  locations l := (hr.locations l).trans (by simp [hperm.mem_iff])
  distinct := hr.distinct
  count e he := (hr.count e he).trans (hperm.countP_eq _)
  oldest e he i hi := hr.oldest e he i (hperm.mem_iff.mpr hi)
  attained e he := by
    obtain ⟨i, hi, h⟩ := hr.attained e he
    exact ⟨i, hperm.mem_iff.mp hi, h⟩
  sorted := hr.sorted
  guardCount := hr.guardCount.trans hperm.length_eq

/-! ## Adding guards to an entry -/

theorem foldl_add (infos : List GuardInfo) (e : GuardReportEntry) :
    (infos.foldl GuardReportEntry.add e).location = e.location ∧
    (infos.foldl GuardReportEntry.add e).count = e.count + infos.length ∧
    e.oldestAge ≤ (infos.foldl GuardReportEntry.add e).oldestAge ∧
    (∀ i ∈ infos, i.age ≤ (infos.foldl GuardReportEntry.add e).oldestAge) ∧
    ((infos.foldl GuardReportEntry.add e).oldestAge = e.oldestAge ∨
      ∃ i ∈ infos, i.age = (infos.foldl GuardReportEntry.add e).oldestAge) := by
  induction infos generalizing e with
  | nil => exact ⟨rfl, rfl, age_le_refl _, by simp, .inl rfl⟩
  | cons i infos ih =>
      obtain ⟨hlocation, hcount, hle, hall, hattained⟩ := ih (e.add i)
      obtain ⟨hleft, hright⟩ := age_le_max e.oldestAge i.age
      refine ⟨hlocation, ?_, age_le_trans hleft hle, ?_, ?_⟩
      · rw [List.foldl_cons, hcount, List.length_cons]
        simp only [GuardReportEntry.add]
        omega
      · intro j hj
        rcases List.mem_cons.mp hj with rfl | hj
        · exact age_le_trans hright hle
        · exact hall j hj
      · rcases hattained with hold | ⟨j, hj, hage⟩
        · rcases age_max_choice e.oldestAge i.age with hmax | hmax
          · exact .inl (hold.trans hmax)
          · exact .inr ⟨i, List.mem_cons_self, (hold.trans hmax).symm⟩
        · exact .inr ⟨j, List.mem_cons_of_mem i hj, hage⟩

/-- The entry of a location is about the guards created there. -/
theorem entry_of_location {infos : List GuardInfo} {l : Location} (hne : infos ≠ []) :
    let e := infos.foldl GuardReportEntry.add ⟨l, 0, none⟩
    e.location = l ∧ e.count = infos.length ∧ (∀ i ∈ infos, i.age ≤ e.oldestAge) ∧
      ∃ i ∈ infos, i.age = e.oldestAge := by
  intro e
  obtain ⟨hlocation, hcount, -, hall, hattained⟩ := foldl_add infos ⟨l, 0, none⟩
  refine ⟨hlocation, hcount.trans (Nat.zero_add _), hall, ?_⟩
  rcases hattained with hnone | hattained
  · -- no guard has an age
    obtain ⟨i, hi⟩ := List.exists_mem_of_ne_nil _ hne
    refine ⟨i, hi, age_le_antisymm (hall i hi) ?_⟩
    show e.oldestAge ≤ i.age
    rw [show e.oldestAge = none from hnone]
    exact Option.none_le
  · exact hattained

/-! ## The report -/

/-- The entries before they are sorted. -/
def groups (infos : List GuardInfo) : List (Location × GuardReportEntry) :=
  Grouping.groups GuardInfo.location (fun l => ⟨l, 0, none⟩) GuardReportEntry.add infos

theorem perm_entries (infos : List GuardInfo) :
    (fromInfos infos).entries.Perm ((groups infos).map Prod.snd) := List.mergeSort_perm _ _

theorem mem_groups_spec {infos : List GuardInfo} {p : Location × GuardReportEntry}
    (hp : p ∈ groups infos) : p.2.location = p.1 ∧
      (p.2.count = infos.countP fun i => i.location = p.1) ∧
      (∀ i ∈ infos, i.location = p.1 → i.age ≤ p.2.oldestAge) ∧
      ∃ i ∈ infos, i.location = p.1 ∧ i.age = p.2.oldestAge := by
  obtain ⟨l, e⟩ := p
  obtain ⟨hne, rfl⟩ := Grouping.mem_groups.mp hp
  obtain ⟨hlocation, hcount, hall, i, hi, hage⟩ := entry_of_location (l := l) hne
  refine ⟨hlocation, hcount.trans List.countP_eq_length_filter.symm, ?_, i, ?_⟩
  · intro j hj hl
    exact hall j (List.mem_filter.mpr ⟨hj, decide_eq_true hl⟩)
  · obtain ⟨hi, hl⟩ := List.mem_filter.mp hi
    exact ⟨hi, of_decide_eq_true hl, hage⟩

theorem map_location_groups (infos : List GuardInfo) :
    ((groups infos).map Prod.snd).map GuardReportEntry.location = (groups infos).map Prod.fst := by
  rw [List.map_map]
  exact List.map_congr_left fun p hp => (mem_groups_spec hp).1

/-- **Aggregation.**  A report made from a list of records is about exactly these: it has
one entry for each location, which counts the records of the location and has the greatest
of their ages; the entries are sorted, and their counts add up to the number of records. -/
theorem fromInfos_reports (infos : List GuardInfo) : (fromInfos infos).Reports infos := by
  have hperm := perm_entries infos
  have hlocations := (hperm.map GuardReportEntry.location).trans
    (.of_eq (map_location_groups infos))
  have hmem : ∀ e ∈ (fromInfos infos).entries, ∃ p ∈ groups infos, p.2 = e := fun e he =>
    List.mem_map.mp (hperm.mem_iff.mp he)
  have hdistinct : ((fromInfos infos).entries.map GuardReportEntry.location).Nodup :=
    hlocations.nodup_iff.mpr Grouping.nodup_groups
  refine ⟨fun l => ?_, hdistinct, fun e he => ?_, fun e he => ?_, fun e he => ?_, ?_, ?_⟩
  · rw [hlocations.mem_iff]
    exact Grouping.mem_keys_groups
  · obtain ⟨p, hp, rfl⟩ := hmem e he
    obtain ⟨hlocation, hcount, -⟩ := mem_groups_spec hp
    rw [hlocation]
    exact hcount
  · obtain ⟨p, hp, rfl⟩ := hmem e he
    obtain ⟨hlocation, -, hall, -⟩ := mem_groups_spec hp
    rw [hlocation]
    exact hall
  · obtain ⟨p, hp, rfl⟩ := hmem e he
    obtain ⟨hlocation, -, -, hattained⟩ := mem_groups_spec hp
    rw [hlocation]
    exact hattained
  · have hsorted : (fromInfos infos).entries.Pairwise fun a b => (a.cmp b).isLE :=
      List.pairwise_mergeSort (fun _ _ _ => Std.TransCmp.isLE_trans)
        cmp_total _
    refine (hsorted.and (List.pairwise_map.mp hdistinct)).imp ?_
    rintro a b ⟨hle, hne⟩
    exact cmp_isLE hle hne
  · have hcounts : ((fromInfos infos).entries.map GuardReportEntry.count).sum =
        ((groups infos).map fun p => p.2.count).sum := by
      rw [(hperm.map GuardReportEntry.count).sum_eq, List.map_map]
      rfl
    rw [guardCount, hcounts]
    exact Grouping.sum_groups fun p hp => (mem_groups_spec hp).2.1

theorem isEmpty_iff {r : GuardReport} : r.isEmpty = true ↔ r.guardCount = 0 := by simp [isEmpty]

theorem ofUnrecorded_guardCount (n : ℕ) : (ofUnrecorded n).guardCount = n := by
  simp [guardCount, ofUnrecorded]

end GuardReport

/-! ## Reports of a tree at rest -/

variable {s₀ s : State} {n : NodeId} {total : ℕ} {out : List InfoId}

/-- The report that a walk ends with: of the records it collected, with the age that the
clock gives to each, or of how many guards it counted, if the tree keeps no report. -/
def Heap.makeReport (h : Heap) (age : InfoId → Option ℕ) (report : Bool) (total : ℕ)
    (out : List InfoId) : GuardReport :=
  if report then .fromInfos (out.map fun id => ⟨h.infoLocation id, age id⟩) else .ofUnrecorded total

/-- What a report says of a guard. -/
def Guard.reading (age : InfoId → Option ℕ) (g : Guard) : GuardInfo := ⟨g.location, g.info.bind age⟩

/-- The records of guards are read as the guards are. -/
theorem map_reading (hr : Reachable s) (age : InfoId → Option ℕ) {gs : List Guard}
    (hgs : ∀ g ∈ gs, g ∈ s.mem.guards ∧ g.info.isSome = true) :
    ((gs.filterMap Guard.info).map fun id => (⟨s.mem.infoLocation id, age id⟩ : GuardInfo)) =
      gs.map (Guard.reading age) := by
  induction gs with
  | nil => rfl
  | cons g gs ih =>
      obtain ⟨hg, hsome⟩ := hgs g List.mem_cons_self
      obtain ⟨id, hinfo⟩ := Option.isSome_iff_exists.mp hsome
      have hmem : g.record ∈ s.mem.records s.frames :=
        Multiset.mem_add.mpr (.inl (Multiset.mem_map_of_mem _ (Multiset.mem_coe.mpr hg)))
      have hlocation : s.mem.infoLocation id = g.location :=
        ((recorded_reach hr).registered _ hmem id hinfo).1
      rw [List.filterMap_cons_some hinfo, List.map_cons, List.map_cons,
        ih fun g hg => hgs g (List.mem_cons_of_mem _ hg)]
      simp [Guard.reading, hinfo, hlocation]

/-- **Guard reports are exact.**  From a state with no operation in flight, let calls of
`guard_count` and `guard_report` run in any number and any order.  The report that a call
ends with has the count of all guards in its node's subtree; if the tree keeps a report, it
is about exactly these guards, by the locations where they were created, and otherwise it
has no entries. -/
theorem guard_report_exact (hr : Reachable s₀) (hq : Quiescent s₀)
    (hl : machine.Leads (ReadOnly s₀) s₀ s) (i index : ℕ) (report : Bool)
    (hi : s.pool[i]? = some ⟨index, [.walk report [] total out, .life (.release n)]⟩)
    (age : InfoId → Option ℕ) :
    (s.mem.makeReport age report total out).guardCount = (s₀.mem.guardsBelow n).length ∧
    ((s.mem.makeReport age report total out).isEmpty = true ↔ s₀.mem.guardsBelow n = []) ∧
    (report = true → (s.mem.makeReport age report total out).Reports
      ((s₀.mem.guardsBelow n).map (Guard.reading age))) ∧
    (report = false → (s.mem.makeReport age report total out).entries = []) := by
  obtain ⟨hreach, R, hrd⟩ := reading_leads hr hq hl
  have hreports : report = true → (s.mem.makeReport age report total out).Reports
      ((s₀.mem.guardsBelow n).map (Guard.reading age)) := by
    rintro rfl
    obtain ⟨hperm, hsome⟩ := hrd.reported hr hq hi
    have hlocation : s.mem.infoLocation = s₀.mem.infoLocation := by rw [hrd.view.same]
    have hgs : ∀ g ∈ s₀.mem.guardsBelow n, g ∈ s₀.mem.guards ∧ g.info.isSome = true :=
      fun g hg => ⟨(List.mem_filter.mp hg).1, hsome g hg⟩
    rw [← map_reading hr age hgs, Heap.makeReport, if_pos rfl, hlocation]
    exact (GuardReport.fromInfos_reports _).perm (hperm.map _)
  have hcount : (s.mem.makeReport age report total out).guardCount =
      (s₀.mem.guardsBelow n).length := by
    cases report with
    | true => exact (hreports rfl).guardCount.trans (List.length_map _)
    | false =>
        rw [Heap.makeReport, if_neg Bool.false_ne_true, GuardReport.ofUnrecorded_guardCount]
        exact hrd.counted hr hq hi
  refine ⟨hcount, ?_, hreports, ?_⟩
  · rw [GuardReport.isEmpty_iff, hcount, List.length_eq_zero_iff]
  · rintro rfl
    rw [Heap.makeReport, if_neg Bool.false_ne_true, GuardReport.ofUnrecorded]

theorem guard_report_exact_countedAndReported : ∃ s₀ s : State, Reachable s₀ ∧ Quiescent s₀ ∧
    machine.Leads (ReadOnly s₀) s₀ s ∧
    (s.mem.makeReport (fun _ => some 7) true 0 [0]).guardCount = 1 ∧
    ((s.mem.makeReport (fun _ => some 7) true 0 [0]).isEmpty = true ↔
      s₀.mem.guardsBelow 0 = []) ∧
    (s.mem.makeReport (fun _ => some 7) true 0 [0]).Reports
      ((s₀.mem.guardsBelow 0).map (Guard.reading fun _ => some 7)) := by
  obtain ⟨s₀, s, i₃, i₄, hr, hq, hl, h₃, h₄⟩ := countedAndReported_run
  obtain ⟨hcount, hempty, hreports, -⟩ :=
    guard_report_exact hr hq hl 4 i₄ true h₄ fun _ => some 7
  obtain ⟨hone, -⟩ := guard_report_exact hr hq hl 3 i₃ false h₃ fun _ => some 7
  refine ⟨s₀, s, hr, hq, hl, hcount.trans (hone.symm.trans ?_), hempty, hreports rfl⟩
  rw [Heap.makeReport, if_neg Bool.false_ne_true, GuardReport.ofUnrecorded_guardCount]

end Swansong
