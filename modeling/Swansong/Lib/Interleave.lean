import Mathlib.Algebra.BigOperators.Group.Multiset.Basic

/-!
# Threads with call stacks over one shared memory

A program is given by the atomic steps of its functions.  A thread is a stack of
frames, each frame one program point with its local variables; the step of the
top frame reads and writes the shared memory and replaces the frame by the frames
that remain to be run in its place.  Any thread may step next, and a client may
start a new operation at any time, so a reachable configuration is one that some
interleaving of any number of operations produces.

Invariants are stated over the memory and the list of all frames in flight.  The
shape of the stacks enters only through a `Discipline`: what a frame expects of
the frames below it, and accounts that the frames of a stack never overdraw.

## Main definitions

* `Machine`, `Config`, `Machine.step` — programs, configurations and their steps.
* `Machine.Reach` — what a run reaches, when each of its steps meets a condition.
* `Machine.Tally` — what a run reaches, and what its steps add up to.
* `Discipline` — a stack discipline, with the accounts it keeps solvent.
* `Discipline.invariant` — the induction rule for invariants of memory and frames.
* `Discipline.ledger` — its case of an equation between the memory and the frames.
-/

namespace Interleave

variable {σ F Op α : Type}

/-- A thread: the index it was given and its stack of frames, innermost first. -/
structure Thread (F : Type) where
  index : ℕ
  stack : List F

/-- Every frame in flight, thread by thread. -/
def frames (pool : List (Thread F)) : List F := pool.flatMap Thread.stack

/-- A program: its initial memory, the atomic step of a frame, and the operations
clients start.  A step sees the index of its thread and one free choice; a start
also sees the frames in flight, which may be borrowing what it needs. -/
structure Machine (σ F Op : Type) where
  init : σ
  exec : ℕ → Bool → σ → F → σ × List F
  start : ℕ → σ → List F → Op → Option (σ × List F)

/-- The shared memory and the threads. -/
structure Config (σ F : Type) where
  mem : σ
  pool : List (Thread F)

/-- The frames of a configuration. -/
def Config.frames (c : Config σ F) : List F := Interleave.frames c.pool

/-- The scheduler's and the clients' moves. -/
inductive Act (Op : Type) where
  | run (thread : ℕ) (choice : Bool)
  | start (index : ℕ) (op : Op)

/-- The frame that a move executes. -/
def Config.top (c : Config σ F) : Act Op → Option F
  | .run i _ => c.pool[i]?.bind fun t => t.stack.head?
  | .start _ _ => none

namespace Machine
variable (M : Machine σ F Op)

/-- One atomic step. -/
def step (c : Config σ F) : Act Op → Option (Config σ F)
  | .run i b =>
    match c.pool[i]? with
    | some ⟨index, f :: k⟩ =>
      some ⟨(M.exec index b c.mem f).1, c.pool.set i ⟨index, (M.exec index b c.mem f).2 ++ k⟩⟩
    | _ => none
  | .start index op =>
    (M.start index c.mem c.frames op).map fun r => ⟨r.1, c.pool ++ [⟨index, r.2⟩]⟩

/-- A whole run, from a given configuration, of steps that pass the check. -/
def run (check : Config σ F → Act Op → Bool) (c : Config σ F) :
    List (Act Op) → Option (Config σ F)
  | [] => some c
  | a :: as => if check c a then (M.step c a).bind fun c' => run check c' as else none

/-- What runs reach when every step meets the condition `P`. -/
inductive Reach (P : Config σ F → Act Op → Prop) : Config σ F → Prop
  | init : Reach P ⟨M.init, []⟩
  | step {c c' : Config σ F} {a : Act Op} :
      Reach P c → P c a → M.step c a = some c' → Reach P c'

/-- What any run reaches. -/
abbrev Reachable : Config σ F → Prop := M.Reach fun _ _ => True

/-- What the steps of a run lead to, from a given configuration. -/
inductive Leads (P : Config σ F → Act Op → Prop) : Config σ F → Config σ F → Prop
  | refl {c : Config σ F} : Leads P c c
  | step {c c' c'' : Config σ F} {a : Act Op} :
      Leads P c c' → P c' a → M.step c' a = some c'' → Leads P c c''

/-- Runs, with the sum of what their steps are worth. -/
inductive Tally {A : Type} [AddMonoid A] (worth : Config σ F → Act Op → A) :
    Config σ F → A → Prop
  | init : Tally worth ⟨M.init, []⟩ 0
  | step {c c' : Config σ F} {a : Act Op} {x : A} :
      Tally worth c x → M.step c a = some c' → Tally worth c' (x + worth c a)

variable {M}

theorem Tally.reachable {A : Type} [AddMonoid A] {worth : Config σ F → Act Op → A}
    {c : Config σ F} {x : A} (ht : M.Tally worth c x) : M.Reachable c := by
  induction ht with
  | init => exact .init
  | step _ hs ih => exact .step ih trivial hs

theorem Reach.mono {P Q : Config σ F → Act Op → Prop} (h : ∀ c a, P c a → Q c a)
    {c : Config σ F} (hr : M.Reach P c) : M.Reach Q c := by
  induction hr with
  | init => exact .init
  | step _ hp hs ih => exact .step ih (h _ _ hp) hs

theorem Reach.reachable {P : Config σ F → Act Op → Prop} {c : Config σ F}
    (hr : M.Reach P c) : M.Reachable c := hr.mono fun _ _ _ => trivial

theorem Leads.mono {P Q : Config σ F → Act Op → Prop} (h : ∀ c a, P c a → Q c a)
    {c c' : Config σ F} (hl : M.Leads P c c') : M.Leads Q c c' := by
  induction hl with
  | refl => exact .refl
  | step _ hp hs ih => exact .step ih (h _ _ hp) hs

theorem Reach.leads {P : Config σ F → Act Op → Prop} {c c' : Config σ F}
    (hr : M.Reach P c) (hl : M.Leads P c c') : M.Reach P c' := by
  induction hl with
  | refl => exact hr
  | step _ hp hs ih => exact .step ih hp hs

theorem Reach.of_run {P : Config σ F → Act Op → Prop} {check : Config σ F → Act Op → Bool}
    (hcheck : ∀ c a, check c a = true → P c a) {c c' : Config σ F} (hr : M.Reach P c)
    {as : List (Act Op)} (h : M.run check c as = some c') : M.Reach P c' := by
  induction as generalizing c with
  | nil => rw [run, Option.some.injEq] at h; exact h ▸ hr
  | cons a as ih =>
      rw [run, Option.ite_none_right_eq_some, Option.bind_eq_some_iff] at h
      obtain ⟨hc, d, hd, h⟩ := h
      exact ih (.step hr (hcheck c a hc) hd) h

theorem Leads.head {P : Config σ F → Act Op → Prop} {c c' c'' : Config σ F} {a : Act Op}
    (hp : P c a) (hs : M.step c a = some c') (hl : M.Leads P c' c'') : M.Leads P c c'' := by
  induction hl with
  | refl => exact .step .refl hp hs
  | step _ hp' hs' ih => exact .step ih hp' hs'

/-- A run that ends where `p` holds entered `p` at some step, and stayed on from there. -/
theorem Reach.exists_entry {P : Config σ F → Act Op → Prop} {p : Config σ F → Prop}
    (hinit : ¬p ⟨M.init, []⟩) {c : Config σ F} (hr : M.Reach P c) (hp : p c) :
    ∃ c₀ c₁ a, M.Reach P c₀ ∧ ¬p c₀ ∧ M.step c₀ a = some c₁ ∧ p c₁ ∧ M.Leads P c₁ c := by
  induction hr with
  | init => exact absurd hp hinit
  | @step c c' a hr hP hs ih =>
      by_cases hc : p c
      · obtain ⟨c₀, c₁, a₀, hr₀, hn, hs₀, hp₁, hl⟩ := ih hc
        exact ⟨c₀, c₁, a₀, hr₀, hn, hs₀, hp₁, .step hl hP hs⟩
      · exact ⟨c, c', a, hr, hc, hs, hp, .refl⟩

theorem Leads.of_run {P : Config σ F → Act Op → Prop} {check : Config σ F → Act Op → Bool}
    (hcheck : ∀ c a, check c a = true → P c a) {c c' : Config σ F} {as : List (Act Op)}
    (h : M.run check c as = some c') : M.Leads P c c' := by
  induction as generalizing c with
  | nil => rw [run, Option.some.injEq] at h; exact h ▸ .refl
  | cons a as ih =>
      rw [run, Option.ite_none_right_eq_some, Option.bind_eq_some_iff] at h
      obtain ⟨hc, d, hd, h⟩ := h
      exact (ih h).head (hcheck c a hc) hd

/-- A schedule that runs through leads to its last configuration. -/
theorem exists_leads {c : Config σ F} (as : List (Act Op)) {p : Config σ F → Bool}
    (h : (M.run (fun _ _ => true) c as).any p = true) :
    ∃ c', M.Leads (fun _ _ => True) c c' ∧ p c' = true := by
  induction as generalizing c with
  | nil => exact ⟨c, .refl, h⟩
  | cons a as ih =>
      rw [run, if_pos rfl, Option.any_eq_true] at h
      obtain ⟨c₂, hrun, hp⟩ := h
      obtain ⟨c₁, hs, hrun⟩ := Option.bind_eq_some_iff.mp hrun
      obtain ⟨c', hl, hp⟩ := ih (c := c₁) (by rw [hrun]; exact hp)
      exact ⟨c', hl.head trivial hs, hp⟩

/-- A schedule that runs through, checked at every step, reaches its last configuration. -/
theorem exists_reach {P : Config σ F → Act Op → Prop} {check : Config σ F → Act Op → Bool}
    (hcheck : ∀ c a, check c a = true → P c a) (as : List (Act Op)) {p : Config σ F → Bool}
    (h : (M.run check ⟨M.init, []⟩ as).any p = true) : ∃ c, M.Reach P c ∧ p c = true := by
  rw [Option.any_eq_true] at h
  obtain ⟨c, hc, hp⟩ := h
  exact ⟨c, .of_run hcheck .init hc, hp⟩

/-- A schedule that runs through reaches its last configuration. -/
theorem exists_reachable (as : List (Act Op)) {p : Config σ F → Bool}
    (h : (M.run (fun _ _ => true) ⟨M.init, []⟩ as).any p = true) :
    ∃ c, M.Reachable c ∧ p c = true :=
  exists_reach (fun _ _ _ => trivial) as h

end Machine

/-! ## Splitting the frames at the thread that steps -/

theorem frames_append (p q : List (Thread F)) : frames (p ++ q) = frames p ++ frames q := by
  simp [frames]

theorem frames_cons (t : Thread F) (p : List (Thread F)) :
    frames (t :: p) = t.stack ++ frames p := by
  simp [frames]

@[simp] theorem frames_nil : frames ([] : List (Thread F)) = [] := rfl

/-- A pool around its `i`-th thread. -/
theorem pool_split {pool : List (Thread F)} {i : ℕ} {t : Thread F} (h : pool[i]? = some t) :
    ∃ p q, pool = p ++ t :: q ∧ ∀ t', pool.set i t' = p ++ t' :: q := by
  obtain ⟨hi, rfl⟩ := List.getElem?_eq_some_iff.mp h
  refine ⟨pool.take i, pool.drop (i + 1), ?_, ?_⟩
  · simp
  · intro t'
    rw [List.set_eq_take_append_cons_drop, if_pos hi]

/-- What a step is: a frame of some thread is executed, or an operation starts. -/
theorem Machine.step_cases {M : Machine σ F Op} {c c' : Config σ F} {a : Act Op}
    (h : M.step c a = some c') :
    (∃ i b index f k p q, a = .run i b ∧ c.pool[i]? = some ⟨index, f :: k⟩ ∧
      c.pool = p ++ ⟨index, f :: k⟩ :: q ∧ c' = ⟨(M.exec index b c.mem f).1, p ++ ⟨index, (M.exec index b c.mem f).2 ++ k⟩ :: q⟩) ∨
    (∃ index op σ' fs, a = .start index op ∧ M.start index c.mem c.frames op = some (σ', fs) ∧
      c' = ⟨σ', c.pool ++ [⟨index, fs⟩]⟩) := by
  cases a with
  | run i b =>
    left
    simp only [step] at h
    split at h
    · rename_i index f k hi
      obtain ⟨p, q, hp, hset⟩ := pool_split hi
      rw [hset, Option.some.injEq] at h
      exact ⟨i, b, index, f, k, p, q, rfl, hi, hp, h.symm⟩
    · cases h
  | start index op =>
    right
    simp only [step, Option.map_eq_some_iff] at h
    obtain ⟨⟨σ', fs⟩, hstart, rfl⟩ := h
    exact ⟨index, op, σ', fs, rfl, hstart, rfl⟩

/-- The threads in front make no difference to the step of a thread behind them. -/
theorem Machine.step_run_append {M : Machine σ F Op} (m : σ) (p q : List (Thread F)) (j : ℕ) (b : Bool) :
    M.step ⟨m, p ++ q⟩ (.run (p.length + j) b) =
      (M.step ⟨m, q⟩ (.run j b)).map fun c => ⟨c.mem, p ++ c.pool⟩ := by
  have hj : (p ++ q)[p.length + j]? = q[j]? := by
    rw [List.getElem?_append_right (Nat.le_add_right _ _), Nat.add_sub_cancel_left]
  simp only [step, hj]
  split
  · simp [List.set_append_right]
  · rfl

/-- What a step does to one thread: it executes its top frame, or leaves it alone. -/
theorem Machine.step_thread {M : Machine σ F Op} {c c' : Config σ F} {a : Act Op}
    (h : M.step c a = some c') {i index : ℕ} {k : List F} (hi : c.pool[i]? = some ⟨index, k⟩) :
    (c'.pool[i]? = some ⟨index, k⟩ ∧ ∀ b, a ≠ .run i b) ∨
      ∃ b f l, a = .run i b ∧ k = f :: l ∧ c'.mem = (M.exec index b c.mem f).1 ∧
        c'.pool[i]? = some ⟨index, (M.exec index b c.mem f).2 ++ l⟩ := by
  have hlt := (List.getElem?_eq_some_iff.mp hi).1
  cases a with
  | run j b =>
      simp only [step] at h
      split at h
      · rename_i index' f l hj
        obtain rfl := Option.some.inj h
        rcases eq_or_ne j i with rfl | hne
        · obtain ⟨rfl, rfl⟩ := by simpa using hj.symm.trans hi
          exact .inr ⟨b, f, l, rfl, rfl, rfl, by simp [hlt]⟩
        · refine .inl ⟨by simp [List.getElem?_set_ne hne, hi], fun b' he => hne ?_⟩
          cases he
          rfl
      · cases h
  | start index' op =>
      simp only [step, Option.map_eq_some_iff] at h
      obtain ⟨r, -, rfl⟩ := h
      exact .inl ⟨by simp [List.getElem?_append_left hlt, hi], fun b he => by cases he⟩

theorem Config.top_run {c : Config σ F} {i index : ℕ} {b : Bool} {f : F} {k : List F}
    (h : c.pool[i]? = some ⟨index, f :: k⟩) : c.top (.run i b : Act Op) = some f := by
  simp [top, h]

/-- **The stack rule.**  What holds of the memory and a stack of every thread holds in
every reachable configuration, if the thread's own steps keep it and so do all others. -/
theorem Machine.stack_invariant {M : Machine σ F Op} {P : Config σ F → Act Op → Prop}
    {I : σ → List F → Prop}
    (exec : ∀ {index b m f k}, I m (f :: k) → I (M.exec index b m f).1 ((M.exec index b m f).2 ++ k))
    (other : ∀ {c c' a k}, M.step c a = some c' → I c.mem k → I c'.mem k)
    (start : ∀ {index m fr op m' fs}, M.start index m fr op = some (m', fs) → I m' fs)
    {c : Config σ F} (hr : M.Reach P c) : ∀ t ∈ c.pool, I c.mem t.stack := by
  induction hr with
  | init => simp
  | step _ _ hs ih =>
      intro t ht
      rcases Machine.step_cases hs with
        ⟨i, b, index, f, k, p, q, -, -, hpool, rfl⟩ | ⟨index, op, m', fs, -, hstart, rfl⟩
      · simp only [List.mem_append, List.mem_cons] at ht
        rcases ht with ht | rfl | ht
        · exact other hs (ih t (by simp [hpool, ht]))
        · exact exec (ih ⟨index, f :: k⟩ (by simp [hpool]))
        · exact other hs (ih t (by simp [hpool, ht]))
      · simp only [List.mem_append, List.mem_singleton] at ht
        rcases ht with ht | rfl
        · exact other hs (ih t ht)
        · exact start hstart

/-! ## Stack disciplines -/

/-- Every frame of the stack finds below it what it expects. -/
def StackOk (ok : F → List F → Prop) : List F → Prop
  | [] => True
  | f :: k => ok f k ∧ StackOk ok k

@[simp] theorem stackOk_nil (ok : F → List F → Prop) : StackOk ok [] := trivial

@[simp] theorem stackOk_cons (ok : F → List F → Prop) (f : F) (k : List F) :
    StackOk ok (f :: k) ↔ ok f k ∧ StackOk ok k := Iff.rfl

/-- Frames that expect nothing may be pushed on any stack. -/
theorem stackOk_append_of_free {ok : F → List F → Prop} {fs k : List F}
    (hfs : ∀ f ∈ fs, ∀ k, ok f k) (hk : StackOk ok k) : StackOk ok (fs ++ k) := by
  induction fs with
  | nil => exact hk
  | cons f fs ih =>
      exact ⟨hfs f (by simp) _, ih fun g hg => hfs g (by simp [hg])⟩

/-- The total weight of the frames in flight. -/
def total (w : F → ℤ) (fr : Multiset F) : ℤ := (fr.map w).sum

section Total
variable (w : F → ℤ)

@[simp] theorem total_zero : total w 0 = 0 := rfl

@[simp] theorem total_nil : total w ↑([] : List F) = 0 := rfl

@[simp] theorem total_singleton (f : F) : total w {f} = w f := by simp [total]

@[simp] theorem total_cons (f : F) (fr : Multiset F) : total w (f ::ₘ fr) = w f + total w fr := by
  simp [total]

@[simp] theorem total_coe_cons (f : F) (fr : List F) :
    total w ↑(f :: fr) = w f + total w ↑fr := by
  simp [total]

@[simp] theorem total_add (fr gr : Multiset F) :
    total w (fr + gr) = total w fr + total w gr := by
  simp [total]

@[simp] theorem total_coe_append (fr gr : List F) :
    total w ↑(fr ++ gr) = total w ↑fr + total w ↑gr := by
  simp [total]

theorem total_nonneg_of_mem {w : F → ℤ} {fr : Multiset F} (h : ∀ f ∈ fr, 0 ≤ w f) :
    0 ≤ total w fr := by
  induction fr using Multiset.induction with
  | empty => simp
  | cons f fr ih =>
      have hf := h f (by simp)
      have hfr := ih fun g hg => h g (by simp [hg])
      rw [total_cons]
      omega

theorem total_nonneg {w : F → ℤ} (h : ∀ f, 0 ≤ w f) (fr : Multiset F) : 0 ≤ total w fr :=
  total_nonneg_of_mem fun f _ => h f

theorem total_eq_zero {w : F → ℤ} {fr : Multiset F} (h : ∀ f ∈ fr, w f = 0) : total w fr = 0 := by
  rw [total]
  exact Multiset.sum_eq_zero (by simpa using h)

theorem le_total {w : F → ℤ} (h : ∀ f, 0 ≤ w f) {f : F} {fr : Multiset F} (hf : f ∈ fr) :
    w f ≤ total w fr := by
  obtain ⟨gr, rfl⟩ := Multiset.exists_cons_of_mem hf
  have := total_nonneg h gr
  rw [total_cons]
  omega

theorem total_sum (w v : F → ℤ) (fr : Multiset F) :
    total (fun f => w f + v f) fr = total w fr + total v fr := by
  simp [total]

theorem total_congr {w v : F → ℤ} {fr : Multiset F} (h : ∀ f ∈ fr, w f = v f) :
    total w fr = total v fr := by
  rw [total, total, Multiset.map_congr rfl h]

end Total

/-- A stack discipline: what each frame expects of the stack below it, kept by
every step, and accounts in which a frame with a debt is always directly above a
frame that covers it. -/
structure Discipline (M : Machine σ F Op) (α : Type) where
  ok : F → List F → Prop
  ok_append : ∀ {f k l}, ok f k → ok f (k ++ l)
  exec_ok : ∀ {index b m f k}, StackOk ok (f :: k) → StackOk ok ((M.exec index b m f).2 ++ k)
  start_ok : ∀ {index m fr op m' fs}, M.start index m fr op = some (m', fs) → StackOk ok fs
  weight : α → F → ℤ
  cover : ∀ {a f k}, ok f k → weight a f < 0 →
    ∃ g k', k = g :: k' ∧ 0 ≤ weight a f + weight a g

namespace Discipline
variable {M : Machine σ F Op} (D : Discipline M α)

/-- Whether a frame of negative weight is always directly above one that covers it. -/
def Covered (w : F → ℤ) : Prop :=
  ∀ f k, D.ok f k → w f < 0 → ∃ g k', k = g :: k' ∧ 0 ≤ w f + w g

variable {D}

/-- A stack that keeps the discipline is solvent. -/
theorem Covered.total_nonneg {w : F → ℤ} (hw : D.Covered w) :
    ∀ {k : List F}, StackOk D.ok k → 0 ≤ total w ↑k
  | [], _ => le_rfl
  | [f], h => by
      rcases lt_or_ge (w f) 0 with hf | hf
      · obtain ⟨g, k', hk, -⟩ := hw f _ h.1 hf
        cases hk
      · simpa using hf
  | f :: g :: k, h => by
      have hg : 0 ≤ total w ↑(g :: k) := hw.total_nonneg h.2
      have hk : 0 ≤ total w ↑k := hw.total_nonneg h.2.2
      rw [total_coe_cons]
      rcases lt_or_ge (w f) 0 with hf | hf
      · -- the debt of `f` is covered by `g`, and what is below `g` is solvent by itself
        obtain ⟨g', k', hk', hsum⟩ := hw f _ h.1 hf
        obtain ⟨rfl, rfl⟩ := List.cons_eq_cons.mp hk'
        rw [total_coe_cons]
        omega
      · omega

theorem Covered.total_frames_nonneg {w : F → ℤ} (hw : D.Covered w) {p : List (Thread F)}
    (h : ∀ t ∈ p, StackOk D.ok t.stack) : 0 ≤ total w ↑(frames p) := by
  induction p with
  | nil => simp
  | cons t p ih =>
      rw [frames_cons, total_coe_append]
      have ht := hw.total_nonneg (h t (by simp))
      have hp := ih fun t ht => h t (by simp [ht])
      omega

variable (D)

theorem covered (a : α) : D.Covered (D.weight a) := fun _ _ hok hneg => D.cover hok hneg

/-- In a reachable configuration every stack keeps the discipline. -/
theorem stackOk {c : Config σ F} (hr : M.Reachable c) : ∀ t ∈ c.pool, StackOk D.ok t.stack := by
  induction hr with
  | init => simp
  | step _ _ hs ih =>
      rcases Machine.step_cases hs with
        ⟨i, b, index, f, k, p, q, -, -, hpool, rfl⟩ | ⟨index, op, m', fs, -, hstart, rfl⟩
      · intro t ht
        simp only [List.mem_append, List.mem_cons] at ht
        rcases ht with ht | rfl | ht
        · exact ih t (by simp [hpool, ht])
        · exact D.exec_ok (ih ⟨index, f :: k⟩ (by simp [hpool]))
        · exact ih t (by simp [hpool, ht])
      · intro t ht
        simp only [List.mem_append, List.mem_singleton] at ht
        rcases ht with ht | rfl
        · exact ih t ht
        · exact D.start_ok hstart

/-- In a reachable configuration the frames in flight are solvent. -/
theorem solvent_of_covered {w : F → ℤ} (hw : D.Covered w) {c : Config σ F} (hr : M.Reachable c) :
    0 ≤ total w c.frames :=
  hw.total_frames_nonneg (D.stackOk hr)

/-- In a reachable configuration every account is solvent. -/
theorem solvent (a : α) {c : Config σ F} (hr : M.Reachable c) : 0 ≤ total (D.weight a) c.frames :=
  D.solvent_of_covered (D.covered a) hr

/-- What a frame expects is among the frames in flight. -/
theorem ok_of_mem {c : Config σ F} (hr : M.Reachable c) {f : F} (hf : f ∈ c.frames) :
    ∃ k, D.ok f k ∧ ∀ g ∈ k, g ∈ c.frames := by
  rw [Config.frames, frames, List.mem_flatMap] at hf
  obtain ⟨t, ht, hf⟩ := hf
  have hstack := D.stackOk hr t ht
  obtain ⟨k₁, k₂, hk⟩ := List.append_of_mem hf
  refine ⟨k₂, ?_, ?_⟩
  · have hsuf : ∀ l, StackOk D.ok (l ++ f :: k₂) → D.ok f k₂ := by
      intro l
      induction l with
      | nil => exact fun h => h.1
      | cons g l ih => exact fun h => ih h.2
    exact hsuf k₁ (hk ▸ hstack)
  · intro g hg
    rw [Config.frames, frames, List.mem_flatMap]
    exact ⟨t, ht, by simp [hk, hg]⟩

/-- What a step of `f` may use of the other frames in flight: what `f` expects is
among them, and they are solvent. -/
structure Enabled (f : F) (K : Multiset F) : Prop where
  below : ∃ k, D.ok f k ∧ ∀ g ∈ k, g ∈ K
  solvent : ∀ a, 0 ≤ total (D.weight a) K

/-- What a step from a reachable configuration is, seen on the frames in flight: a
frame is executed, or an operation starts. -/
theorem step_cases {c c' : Config σ F} {a : Act Op} (hr : M.Reachable c)
    (hs : M.step c a = some c') :
    (∃ i b index f k K, a = .run i b ∧ c.pool[i]? = some ⟨index, f :: k⟩ ∧ D.Enabled f K ∧
      (c.frames : Multiset F) = f ::ₘ K ∧ c'.mem = (M.exec index b c.mem f).1 ∧
      (c'.frames : Multiset F) = ↑(M.exec index b c.mem f).2 + K) ∨
    (∃ index op fs, a = .start index op ∧ M.start index c.mem c.frames op = some (c'.mem, fs) ∧
      (c'.frames : Multiset F) = ↑fs + ↑c.frames) := by
  have hstacks := D.stackOk hr
  rcases Machine.step_cases hs with
    ⟨i, b, index, f, k, p, q, rfl, hi, hpool, rfl⟩ | ⟨index, op, m', fs, rfl, hstart, rfl⟩
  · left
    have hfk := hstacks ⟨index, f :: k⟩ (by simp [hpool])
    refine ⟨i, b, index, f, k, ↑(frames p ++ k ++ frames q), rfl, hi,
      ⟨⟨k, hfk.1, by simp +contextual⟩, fun a => ?_⟩, ?_, rfl, ?_⟩
    · have h₁ := (D.covered a).total_frames_nonneg (p := p) fun t ht => hstacks t (by simp [hpool, ht])
      have h₂ := (D.covered a).total_frames_nonneg (p := q) fun t ht => hstacks t (by simp [hpool, ht])
      have h₃ := (D.covered a).total_nonneg hfk.2
      rw [total_coe_append, total_coe_append]
      omega
    · rw [Multiset.cons_coe, Multiset.coe_eq_coe, List.append_assoc]
      simp [Config.frames, hpool, frames_append, frames_cons]
    · rw [Multiset.coe_add, Multiset.coe_eq_coe]
      simp only [Config.frames, frames_append, frames_cons, List.append_assoc]
      exact List.perm_append_comm_assoc _ _ _
  · right
    refine ⟨index, op, fs, rfl, hstart, ?_⟩
    rw [add_comm, Multiset.coe_add, Multiset.coe_eq_coe]
    simp [Config.frames, frames_append, frames_cons]

/-- What a step from a reachable configuration is, when it executes the frame `f`. -/
theorem step_of_top {c c' : Config σ F} {a : Act Op} {f : F} (hr : M.Reachable c)
    (hs : M.step c a = some c') (hf : c.top a = some f) :
    ∃ i b index K, a = .run i b ∧ D.Enabled f K ∧ (c.frames : Multiset F) = f ::ₘ K ∧
      c'.mem = (M.exec index b c.mem f).1 ∧
      (c'.frames : Multiset F) = ↑(M.exec index b c.mem f).2 + K := by
  rcases D.step_cases hr hs with
    ⟨i, b, index, g, k, K, rfl, hi, he, hfr, hmem, hfr'⟩ | ⟨index, op, fs, rfl, -, -⟩
  · rw [Config.top_run hi, Option.some.injEq] at hf
    subst hf
    exact ⟨i, b, index, K, rfl, he, hfr, hmem, hfr'⟩
  · cases hf

/-- **The invariant rule.**  `J` is what is already known of reachable
configurations.  A step takes one frame `f` out of the frames in flight and puts
others in its place. -/
theorem invariant {P : Config σ F → Act Op → Prop} {J I : σ → Multiset F → Prop}
    (known : ∀ {c}, M.Reach P c → J c.mem c.frames)
    (init : I M.init 0)
    (exec : ∀ {index b m f K}, D.Enabled f K → J m (f ::ₘ K) →
      J (M.exec index b m f).1 (↑(M.exec index b m f).2 + K) → I m (f ::ₘ K) →
      I (M.exec index b m f).1 (↑(M.exec index b m f).2 + K))
    (start : ∀ {index m fr op m' fs}, M.start index m fr op = some (m', fs) →
      J m fr → J m' (↑fs + ↑fr) → I m fr → I m' (↑fs + ↑fr))
    {c : Config σ F} (hr : M.Reach P c) : I c.mem c.frames := by
  induction hr with
  | init => exact init
  | step hr hp hs ih =>
      have hJ := known hr
      have hJ' := known (hr.step hp hs)
      rcases D.step_cases hr.reachable hs with
        ⟨i, b, index, f, k, K, -, -, he, hfr, hmem, hfr'⟩ | ⟨index, op, fs, -, hstart, hfr'⟩
      · rw [hfr', hmem] at hJ' ⊢
        rw [hfr] at hJ ih
        exact exec he hJ hJ' ih
      · rw [hfr'] at hJ' ⊢
        exact start hstart hJ hJ' ih

/-- **The ledger rule.**  A quantity of the memory is the total weight of the frames
in flight if each step changes it by the weight of what it pushes less the weight of
what it executes. -/
theorem ledger {β : Type} (value : β → σ → ℤ) (w : β → F → ℤ)
    {P : Config σ F → Act Op → Prop} {J : σ → Multiset F → Prop}
    (known : ∀ {c}, M.Reach P c → J c.mem c.frames)
    (init : ∀ b, value b M.init = 0)
    (exec : ∀ {index b m f K}, D.Enabled f K → J m (f ::ₘ K) →
      (∀ b, value b m = total (w b) (f ::ₘ K)) →
      ∀ x, value x (M.exec index b m f).1 + w x f = value x m + total (w x) ↑(M.exec index b m f).2)
    (start : ∀ {index m fr op m' fs}, M.start index m fr op = some (m', fs) →
      J m fr → (∀ b, value b m = total (w b) fr) → ∀ x, value x m' = value x m + total (w x) ↑fs)
    {c : Config σ F} (hr : M.Reach P c) : ∀ x, value x c.mem = total (w x) c.frames := by
  refine D.invariant (I := fun m fr => ∀ x, value x m = total (w x) fr) known init ?_ ?_ hr
  · intro index b m f K he hJ _ hI x
    have := @exec index b _ _ _ he hJ hI x
    have hx := hI x
    rw [total_cons] at hx
    rw [total_add]
    omega
  · intro index m fr op m' fs hs hJ _ hI x
    have := start hs hJ hI x
    have hx := hI x
    rw [total_add]
    omega

end Discipline
end Interleave
