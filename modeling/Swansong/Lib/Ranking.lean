import Swansong.Lib.Interleave
import Mathlib.Data.Multiset.DershowitzManna
import Mathlib.Algebra.Order.Group.Multiset
import Mathlib.Data.Multiset.Bind

/-!
# Runs that end

Every frame is given a rank, a multiset of levels that depends on the memory.  A step pays
with one level of its frame: what its frame pushes, and what the ranks of the other frames
gain, is below that level.  Then the ranks of all frames together decrease in the
multiset order, and no run goes on for ever, whatever the schedule.

## Main definitions

* `UpTo` — a multiset grows by nothing but levels below a bound.
* `Machine.Terminates` — no run of certain moves goes on for ever.
* `Machine.Inevitable` — and where it ends, something holds.
* `Machine.Pays` — a step pays.

## Main results

* `Machine.terminates_of_pays` — the ranking rule.
* `Terminates.exists_leads` — a run can go on until no move is left.
-/

namespace Interleave

variable {α β σ F Op : Type}

section UpTo
variable [Preorder α] {a : α} {M M' N N' : Multiset α}

/-- `M` is within `N`, up to levels below `a`. -/
def UpTo (a : α) (N M : Multiset α) : Prop := ∃ Y : Multiset α, (∀ y ∈ Y, y < a) ∧ M ≤ N + Y

namespace UpTo

theorem of_le (h : M ≤ N) : UpTo a N M := ⟨0, by simp, by simpa using h⟩

theorem refl (N : Multiset α) : UpTo a N N := of_le le_rfl

theorem of_lt (h : ∀ y ∈ M, y < a) : UpTo a N M := ⟨M, h, Multiset.le_add_left M N⟩

theorem zero : UpTo a N 0 := of_lt (by simp)

theorem add (h : UpTo a N M) (h' : UpTo a N' M') : UpTo a (N + N') (M + M') := by
  obtain ⟨Y, hY, hle⟩ := h
  obtain ⟨Y', hY', hle'⟩ := h'
  refine ⟨Y + Y', fun y hy => (Multiset.mem_add.mp hy).elim (hY y) (hY' y), ?_⟩
  calc M + M' ≤ N + Y + (N' + Y') := add_le_add hle hle'
    _ = N + N' + (Y + Y') := by rw [add_add_add_comm]

/-- Levels below the bound come on top. -/
theorem add_lt (h : UpTo a N M) (h' : ∀ y ∈ M', y < a) : UpTo a N (M + M') := by
  simpa using h.add (of_lt (N := 0) h')

theorem bind {ι : Type} {r r' : ι → Multiset α} {K : Multiset ι} (h : ∀ g ∈ K, UpTo a (r g) (r' g)) :
    UpTo a (K.bind r) (K.bind r') := by
  induction K using Multiset.induction_on with
  | empty => exact refl _
  | cons g K ih =>
      rw [Multiset.cons_bind, Multiset.cons_bind]
      exact (h g (Multiset.mem_cons_self g K)).add (ih fun g hg => h g (Multiset.mem_cons_of_mem hg))

end UpTo

/-- What gives up a level and gains only lower ones decreases. -/
theorem isDershowitzMannaLT_of_upTo [DecidableEq α] (ha : a ∈ N) (h : UpTo a (N.erase a) M) :
    M.IsDershowitzMannaLT N := by
  obtain ⟨Y, hY, hle⟩ := h
  obtain ⟨E, rfl⟩ := Multiset.exists_cons_of_mem ha
  rw [Multiset.erase_cons_head] at hle
  have hle' : M ∩ E ≤ a ::ₘ E := Multiset.inter_le_right.trans (Multiset.le_cons_self E a)
  have hpaid : a ∈ a ::ₘ E - M ∩ E := by
    have hcount : (M ∩ E).count a ≤ E.count a := Multiset.count_le_of_le a Multiset.inter_le_right
    rw [← Multiset.count_pos, Multiset.count_sub, Multiset.count_cons_self]
    omega
  refine ⟨M ∩ E, M - E, a ::ₘ E - M ∩ E, ?_, ?_, ?_, ?_⟩
  · rintro hnone
    simp [hnone] at hpaid
  · rw [add_comm, Multiset.sub_add_inter]
  · rw [add_tsub_cancel_of_le hle']
  · intro y hy
    have hgain : M - E ≤ Y := tsub_le_iff_left.mpr hle
    exact ⟨a, hpaid, hY y (Multiset.mem_of_le hgain hy)⟩

end UpTo

/-! ## Machines -/

namespace Machine
variable {M : Machine σ F Op} {P Q : Config σ F → Act Op → Prop} {c : Config σ F}

/-- No run of moves that meet `P` goes on for ever. -/
def Terminates (M : Machine σ F Op) (P : Config σ F → Act Op → Prop) : Config σ F → Prop :=
  Acc fun c' c => ∃ a, P c a ∧ M.step c a = some c'

/-- Every run of moves that meet `P` ends, and where it ends, `R` holds. -/
def Inevitable (M : Machine σ F Op) (P : Config σ F → Act Op → Prop) (R : Config σ F → Prop)
    (c : Config σ F) : Prop :=
  M.Terminates P c ∧ ∀ c', M.Leads P c c' → (∀ a, ¬P c' a) → R c'

namespace Terminates

theorem mono (hc : M.Terminates P c) (h : ∀ c a, Q c a → P c a) : M.Terminates Q c := by
  refine Subrelation.accessible ?_ hc
  rintro c' c ⟨a, ha, hs⟩
  exact ⟨a, h c a ha, hs⟩

theorem not_exists_run (hc : M.Terminates P c) : ¬∃ run : ℕ → Config σ F, run 0 = c ∧
    ∀ k, ∃ a, P (run k) a ∧ M.step (run k) a = some (run (k + 1)) := by
  induction hc with
  | intro c _ ih =>
      rintro ⟨run, rfl, hrun⟩
      exact ih (run 1) (hrun 0) ⟨fun k => run (k + 1), rfl, fun k => hrun (k + 1)⟩

/-- If the moves that meet `P` can be made, a run can go on until none is left. -/
theorem exists_leads (hc : M.Terminates P c) (hstep : ∀ c a, P c a → ∃ c', M.step c a = some c') :
    ∃ c', M.Leads P c c' ∧ ∀ a, ¬P c' a := by
  induction hc with
  | intro c _ ih =>
      by_cases hstuck : ∀ a, ¬P c a
      · exact ⟨c, .refl, hstuck⟩
      · push Not at hstuck
        obtain ⟨a, ha⟩ := hstuck
        obtain ⟨c₁, hs⟩ := hstep c a ha
        obtain ⟨c', hl, hstuck⟩ := ih c₁ ⟨a, ha, hs⟩
        exact ⟨c', hl.head ha hs, hstuck⟩

end Terminates

variable {rank : σ → F → Multiset α} {may : σ → Bool → F → Prop} {I : Config σ F → Prop}

/-- A move of a thread already started, of those that may be made. -/
def Moves (may : σ → Bool → F → Prop) (c : Config σ F) (a : Act Op) : Prop :=
  ∃ i b f, a = .run i b ∧ c.top a = some f ∧ may c.mem b f

theorem Moves.exists_step {a : Act Op} (h : Moves may c a) : ∃ c', M.step c a = some c' := by
  obtain ⟨i, b, f, rfl, htop, -⟩ := h
  simp only [Config.top, Option.bind_eq_some_iff] at htop
  obtain ⟨⟨index, k⟩, hi, hk⟩ := htop
  obtain ⟨l, rfl⟩ : ∃ l, k = f :: l := by simpa [List.head?_eq_some_iff] using hk
  simp [step, hi]

/-- The step of `f`, from `m` to `m'`, pays with a level of its frame: what it pushes and
what the other frames gain is below that. -/
def Pays [Preorder α] [DecidableEq α] (rank : σ → F → Multiset α) (m m' : σ) (f : F) (fs : List F)
    (K : Multiset F) : Prop :=
  ∃ a ∈ rank m f, UpTo a ((rank m f).erase a) ((fs : Multiset F).bind (rank m')) ∧
    ∀ g ∈ K, UpTo a (rank m g) (rank m' g)

theorem Pays.lt [Preorder α] [DecidableEq α] {m m' : σ} {f : F} {fs : List F} {K : Multiset F}
    (h : Pays rank m m' f fs K) : Multiset.IsDershowitzMannaLT
      ((↑fs + K : Multiset F).bind (rank m')) ((f ::ₘ K).bind (rank m)) := by
  obtain ⟨a, ha, hpush, hothers⟩ := h
  rw [Multiset.add_bind, Multiset.cons_bind]
  refine isDershowitzMannaLT_of_upTo (Multiset.mem_add.mpr (.inl ha)) ?_
  rw [Multiset.erase_add_left_pos _ ha]
  exact hpush.add (.bind hothers)

variable (rank) in
/-- **The ranking rule.**  If every step that may be made pays, no run of such steps goes
on for ever. -/
theorem terminates_of_pays [Preorder α] [WellFoundedLT α] [DecidableEq α] (D : Discipline M β)
    (keep : ∀ {c c' a}, M.Reachable c → I c → Moves may c a → M.step c a = some c' → I c')
    (pays : ∀ {c index b f K}, M.Reachable c → I c → (c.frames : Multiset F) = f ::ₘ K →
      may c.mem b f → Pays rank c.mem (M.exec index b c.mem f).1 f (M.exec index b c.mem f).2 K)
    (hr : M.Reachable c) (hc : I c) : M.Terminates (Moves may) c := by
  have hwf : WellFounded (Multiset.IsDershowitzMannaLT (α := α)) :=
    Multiset.wellFounded_isDershowitzMannaLT
  generalize hN : (c.frames : Multiset F).bind (rank c.mem) = N
  induction N using hwf.induction generalizing c with
  | _ N ih =>
      refine .intro c fun c' hs => ?_
      obtain ⟨a, hmoves, hs⟩ := hs
      refine ih _ ?_ (hr.step trivial hs) (keep hr hc hmoves hs) rfl
      obtain ⟨i, b, f, rfl, htop, hmay⟩ := hmoves
      obtain ⟨j, b', index, K, he, -, hfr, hmem, hfr'⟩ := D.step_of_top hr hs htop
      obtain ⟨rfl, rfl⟩ := Act.run.inj he
      rw [← hN, hfr, hfr', hmem]
      exact (pays hr hc hfr hmay).lt

/-! ## One thread -/

/-- Only thread `i` runs, and what the code leaves open is false. -/
abbrev Alone (M : Machine σ F Op) (i : ℕ) : Config σ F → Config σ F → Prop :=
  M.Leads fun _ a => a = .run i false

theorem Alone.reachable {i : ℕ} {c' : Config σ F} (h : M.Alone i c c') (hr : M.Reachable c) :
    M.Reachable c' :=
  hr.leads (h.mono fun _ _ _ => trivial)

/-- A thread keeps its index. -/
theorem Leads.exists_thread {c' : Config σ F} (hl : M.Leads P c c') {i index : ℕ} {k : List F}
    (hi : c.pool[i]? = some ⟨index, k⟩) : ∃ k', c'.pool[i]? = some ⟨index, k'⟩ := by
  induction hl with
  | refl => exact ⟨k, hi⟩
  | step _ _ hs ih =>
      obtain ⟨k', hi'⟩ := ih
      rcases step_thread hs hi' with ⟨hi'', -⟩ | ⟨b, f, l, -, -, -, hi''⟩
      · exact ⟨k', hi''⟩
      · exact ⟨_, hi''⟩

end Machine
end Interleave
