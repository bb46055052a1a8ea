import Swansong.Lib.Interleave
import Mathlib.Data.Multiset.Bind
import Mathlib.Logic.Function.Basic

/-!
# Locks and re-entrant callbacks

A step of a machine may be a critical section, and around it code that the program does
not control may run: a callback, which starts any operations it likes on the thread that
is inside the step, to any depth.  A `Locking` says which lock a step takes, and in which
order it releases the lock and lets foreign code run.

If every critical section releases its lock before it lets foreign code run, then no
thread takes a lock while it holds one, some thread can always go on, and re-entry adds
no behaviour: a nested operation does what it would do on a thread of its own.

## Main definitions

* `Locking`, `Locking.step` — the machine with its locks and callbacks.
* `Locking.Disciplined` — locks are released before foreign code runs.
* `Locking.Reachable` — what any run reaches.
* `Locked.owner`, `Disciplined.released`, `Disciplined.progress`, `Locking.simulated` — the
  results.
-/

namespace Interleave

variable {σ F Op L : Type}

/-- What a step does besides its critical section. -/
inductive Effect (L : Type) where
  | unlock (l : L)
  /-- Foreign code runs. -/
  | foreign

/-- A program point: before a step, before its critical section, or after it. -/
inductive Point (F L : Type) where
  | call (f : F)
  | body (f : F)
  | effect (e : Effect L)

/-- The frame of a point whose step is still to be executed. -/
def Point.frame : Point F L → Option F
  | .call f | .body f => some f
  | .effect _ => none

/-- Which lock a step takes, and what happens before it and after it, in order. -/
structure Locking (M : Machine σ F Op) (L : Type) where
  lock : ℕ → σ → F → Option L
  before : F → List (Effect L)
  after : ℕ → Bool → σ → F → List (Effect L)

/-- The memory, the thread that holds each lock, and the threads. -/
structure LockConfig (σ F L : Type) where
  mem : σ
  owner : L → Option ℕ
  pool : List (Thread (Point F L))

/-- The frames in flight. -/
def LockConfig.frames (c : LockConfig σ F L) : List F :=
  c.pool.flatMap fun t => t.stack.filterMap Point.frame

/-- The scheduler's and the clients' moves; foreign code nests an operation. -/
inductive LockAct (Op : Type) where
  | run (thread : ℕ) (choice : Bool)
  | nest (thread : ℕ) (op : Op)
  | start (index : ℕ) (op : Op)

/-- Taking a lock, unless a thread holds it. -/
def acquire [DecidableEq L] (owner : L → Option ℕ) (i : ℕ) : Option L → Option (L → Option ℕ)
  | none => some owner
  | some l => if owner l = none then some (Function.update owner l (some i)) else none

namespace Locking

/-! ## Who holds which lock -/

/-- No lock is to be released. -/
def Clean (k : List (Point F L)) : Prop := ∀ l, .effect (.unlock l) ∉ k

/-- The lock that a thread with this stack is about to release. -/
def holding : List (Point F L) → Option L
  | .effect (.unlock l) :: _ => some l
  | _ => none

theorem exists_of_holding {k : List (Point F L)} {l : L} (hk : holding k = some l) :
    ∃ k', k = .effect (.unlock l) :: k' := by
  unfold holding at hk
  split at hk
  · rename_i l' k'
    obtain rfl := Option.some.inj hk
    exact ⟨k', rfl⟩
  · cases hk

theorem Clean.holding_eq_none {k : List (Point F L)} (hk : Clean k) : holding k = none := by
  unfold holding
  split
  · rename_i l k
    exact absurd List.mem_cons_self (hk l)
  · rfl

theorem Clean.append {j k : List (Point F L)} (hj : Clean j) (hk : Clean k) : Clean (j ++ k) := by
  intro l hl
  rcases List.mem_append.mp hl with hl | hl
  · exact hj l hl
  · exact hk l hl

theorem clean_calls (fs : List F) : Clean (fs.map (.call : F → Point F L)) := by
  intro l hl
  simp at hl

theorem clean_foreign {es : List (Effect L)} (hes : ∀ e ∈ es, e = .foreign) :
    Clean (es.map (.effect : Effect L → Point F L)) := by
  intro l hl
  obtain ⟨e, he, hel⟩ := List.mem_map.mp hl
  rw [hes e he] at hel
  cases hel

/-- A thread holds a lock exactly if releasing it is the next thing it does. -/
structure Locked (c : LockConfig σ F L) : Prop where
  clean : ∀ t ∈ c.pool, Clean t.stack.tail
  owner : ∀ l i, c.owner l = some i ↔ ∃ t, c.pool[i]? = some t ∧ holding t.stack = some l

/-- One thread moves, and the owners change with it. -/
theorem Locked.set {c : LockConfig σ F L} (hc : Locked c) {i index : ℕ} {m : σ}
    {owner : L → Option ℕ} {k : List (Point F L)} (hi : i < c.pool.length) (hk : Clean k.tail)
    (howner : ∀ l, owner l = some i ↔ holding k = some l)
    (hother : ∀ l j, j ≠ i → (owner l = some j ↔ c.owner l = some j)) :
    Locked ⟨m, owner, c.pool.set i ⟨index, k⟩⟩ where
  clean t ht := by
    rcases List.mem_or_eq_of_mem_set ht with ht | rfl
    · exact hc.clean t ht
    · exact hk
  owner l j := by
    by_cases hj : j = i
    · subst hj
      rw [howner l]
      simp [hi]
    · rw [hother l j hj, hc.owner l j]
      simp [List.getElem?_set_ne (Ne.symm hj)]

theorem Locked.not_owner {c : LockConfig σ F L} (hc : Locked c) {i : ℕ} {t : Thread (Point F L)}
    (hi : c.pool[i]? = some t) (ht : holding t.stack = none) (l : L) : c.owner l ≠ some i := by
  intro ho
  obtain ⟨t', hi', ht'⟩ := (hc.owner l i).mp ho
  obtain rfl := Option.some.inj (hi.symm.trans hi')
  rw [ht] at ht'
  cases ht'

/-- A thread that holds no lock goes on without one. -/
theorem Locked.set_clean {c : LockConfig σ F L} (hc : Locked c) {i index : ℕ} {m : σ}
    {t : Thread (Point F L)} {k : List (Point F L)} (hi : c.pool[i]? = some t)
    (ht : holding t.stack = none) (hk : Clean k) :
    Locked ⟨m, c.owner, c.pool.set i ⟨index, k⟩⟩ := by
  refine hc.set (List.getElem?_eq_some_iff.mp hi).1 (fun l hl => hk l (List.mem_of_mem_tail hl)) ?_ ?_
  · intro l
    rw [hk.holding_eq_none]
    exact iff_of_false (hc.not_owner hi ht l) (by simp)
  · exact fun _ _ _ => Iff.rfl

/-! ## Steps -/

variable [DecidableEq L] {M : Machine σ F Op} (K : Locking M L)

/-- The step of thread `i` at a point: the memory, the owners, and what is left to run. -/
def advance (c : LockConfig σ F L) (i index : ℕ) (b : Bool) :
    Point F L → Option (σ × (L → Option ℕ) × List (Point F L))
  | .call f => some (c.mem, c.owner, (K.before f).map .effect ++ [.body f])
  | .body f => (acquire c.owner i (K.lock index c.mem f)).map fun owner =>
      ((M.exec index b c.mem f).1, owner,
        (K.after index b c.mem f).map .effect ++ (M.exec index b c.mem f).2.map .call)
  | .effect (.unlock l) => some (c.mem, Function.update c.owner l none, [])
  | .effect .foreign => some (c.mem, c.owner, [])

def step (c : LockConfig σ F L) : LockAct Op → Option (LockConfig σ F L)
  | .run i b =>
    match c.pool[i]? with
    | some ⟨index, p :: k⟩ => (K.advance c i index b p).map fun r =>
        ⟨r.1, r.2.1, c.pool.set i ⟨index, r.2.2 ++ k⟩⟩
    | _ => none
  | .nest i op =>
    match c.pool[i]? with
    | some ⟨index, .effect .foreign :: k⟩ => (M.start index c.mem c.frames op).map fun r =>
        ⟨r.1, c.owner, c.pool.set i ⟨index, r.2.map .call ++ .effect .foreign :: k⟩⟩
    | _ => none
  | .start index op => (M.start index c.mem c.frames op).map fun r =>
      ⟨r.1, c.owner, c.pool ++ [⟨index, r.2.map .call⟩]⟩

/-- What any run reaches. -/
inductive Reachable : LockConfig σ F L → Prop
  | init : Reachable ⟨M.init, fun _ => none, []⟩
  | step {c c' : LockConfig σ F L} {a : LockAct Op} :
      Reachable c → K.step c a = some c' → Reachable c'

/-- A whole run, from a given configuration. -/
def run (c : LockConfig σ F L) : List (LockAct Op) → Option (LockConfig σ F L)
  | [] => some c
  | a :: as => (K.step c a).bind fun c' => run c' as

/-- Locks are released before foreign code runs. -/
structure Disciplined : Prop where
  before : ∀ f, ∀ e ∈ K.before f, e = .foreign
  locked : ∀ {index b m f l}, K.lock index m f = some l →
    ∃ es, K.after index b m f = .unlock l :: es ∧ ∀ e ∈ es, e = .foreign
  unlocked : ∀ {index b m f}, K.lock index m f = none → ∀ e ∈ K.after index b m f, e = .foreign

variable {K}

theorem Reachable.of_run {c c' : LockConfig σ F L} (hr : K.Reachable c) {as : List (LockAct Op)}
    (h : K.run c as = some c') : K.Reachable c' := by
  induction as generalizing c with
  | nil => rw [run, Option.some.injEq] at h; exact h ▸ hr
  | cons a as ih =>
      obtain ⟨d, hd, h⟩ := Option.bind_eq_some_iff.mp h
      exact ih (.step hr hd) h

/-- A schedule that runs through reaches its last configuration. -/
theorem exists_reachable (as : List (LockAct Op)) {p : LockConfig σ F L → Bool}
    (h : (K.run ⟨M.init, fun _ => none, []⟩ as).any p = true) :
    ∃ c, K.Reachable c ∧ p c = true := by
  rw [Option.any_eq_true] at h
  obtain ⟨c, hc, hp⟩ := h
  exact ⟨c, .of_run .init hc, hp⟩

/-- What a step is: a thread advances, foreign code nests an operation, or a client
starts one. -/
theorem step_cases {c c' : LockConfig σ F L} {a : LockAct Op} (h : K.step c a = some c') :
    (∃ i b index p k m owner ps, a = .run i b ∧ c.pool[i]? = some ⟨index, p :: k⟩ ∧
      K.advance c i index b p = some (m, owner, ps) ∧
      c' = ⟨m, owner, c.pool.set i ⟨index, ps ++ k⟩⟩) ∨
    (∃ i op index k m fs, a = .nest i op ∧ c.pool[i]? = some ⟨index, .effect .foreign :: k⟩ ∧
      M.start index c.mem c.frames op = some (m, fs) ∧
      c' = ⟨m, c.owner, c.pool.set i ⟨index, fs.map .call ++ .effect .foreign :: k⟩⟩) ∨
    (∃ index op m fs, a = .start index op ∧ M.start index c.mem c.frames op = some (m, fs) ∧
      c' = ⟨m, c.owner, c.pool ++ [⟨index, fs.map .call⟩]⟩) := by
  cases a with
  | run i b =>
    left
    simp only [step] at h
    split at h
    · rename_i index p k hi
      obtain ⟨⟨m, owner, ps⟩, hadv, rfl⟩ := Option.map_eq_some_iff.mp h
      exact ⟨i, b, index, p, k, m, owner, ps, rfl, hi, hadv, rfl⟩
    · cases h
  | nest i op =>
    right; left
    simp only [step] at h
    split at h
    · rename_i index k hi
      obtain ⟨⟨m, fs⟩, hstart, rfl⟩ := Option.map_eq_some_iff.mp h
      exact ⟨i, op, index, k, m, fs, rfl, hi, hstart, rfl⟩
    · cases h
  | start index op =>
    right; right
    obtain ⟨⟨m, fs⟩, hstart, rfl⟩ := Option.map_eq_some_iff.mp h
    exact ⟨index, op, m, fs, rfl, hstart, rfl⟩

theorem Disciplined.locked_step (hK : K.Disciplined) {c c' : LockConfig σ F L} {a : LockAct Op}
    (hc : Locked c) (hs : K.step c a = some c') : Locked c' := by
  rcases step_cases hs with ⟨i, b, index, p, k, m, owner, ps, rfl, hi, hadv, rfl⟩ |
    ⟨i, op, index, k, m, fs, rfl, hi, -, rfl⟩ | ⟨index, op, m, fs, rfl, -, rfl⟩
  · have hk : Clean k := hc.clean _ (List.mem_of_getElem? hi)
    cases p with
    | call f =>
        simp only [advance, Option.some.injEq, Prod.mk.injEq] at hadv
        obtain ⟨rfl, rfl, rfl⟩ := hadv
        refine hc.set_clean hi rfl (((clean_foreign (hK.before f)).append ?_).append hk)
        intro l hl
        simp at hl
    | body f =>
        simp only [advance] at hadv
        obtain ⟨owner', hacq, he⟩ := Option.map_eq_some_iff.mp hadv
        simp only [Prod.mk.injEq] at he
        obtain ⟨rfl, rfl, rfl⟩ := he
        cases hlock : K.lock index c.mem f with
        | none =>
            rw [hlock, acquire, Option.some.injEq] at hacq
            subst hacq
            exact hc.set_clean hi rfl
              (((clean_foreign (hK.unlocked hlock)).append (clean_calls _)).append hk)
        | some l =>
            rw [hlock, acquire, Option.ite_none_right_eq_some, Option.some.injEq] at hacq
            obtain ⟨hfree, rfl⟩ := hacq
            obtain ⟨es, hafter, hes⟩ := hK.locked (b := b) hlock
            rw [hafter]
            refine hc.set (List.getElem?_eq_some_iff.mp hi).1 ?_ ?_ ?_
            · exact ((clean_foreign hes).append (clean_calls _)).append hk
            · intro l'
              by_cases hl : l' = l
              · subst hl
                simp [holding]
              · have hnot := hc.not_owner hi (show holding (.body f :: k) = none from rfl) l'
                simp [hl, Ne.symm hl, holding, hnot]
            · intro l' j hj
              by_cases hl : l' = l
              · subst hl
                simp [hfree, Ne.symm hj]
              · simp [hl]
    | effect e =>
        cases e with
        | foreign =>
            simp only [advance, Option.some.injEq, Prod.mk.injEq] at hadv
            obtain ⟨rfl, rfl, rfl⟩ := hadv
            exact hc.set_clean hi rfl hk
        | unlock l =>
            simp only [advance, Option.some.injEq, Prod.mk.injEq] at hadv
            obtain ⟨rfl, rfl, rfl⟩ := hadv
            have howner : c.owner l = some i := (hc.owner l i).mpr ⟨_, hi, rfl⟩
            refine hc.set (List.getElem?_eq_some_iff.mp hi).1
              (fun l hl => hk l (List.mem_of_mem_tail hl)) ?_ ?_
            · intro l'
              rw [List.nil_append, hk.holding_eq_none]
              refine iff_of_false ?_ (by simp)
              by_cases hl : l' = l
              · simp [hl]
              · rw [Function.update_of_ne hl]
                intro ho
                obtain ⟨t', hi', ht'⟩ := (hc.owner l' i).mp ho
                obtain rfl := Option.some.inj (hi.symm.trans hi')
                exact hl (Option.some.inj ht').symm
            · intro l' j hj
              by_cases hl : l' = l
              · subst hl
                simp [howner, Ne.symm hj]
              · simp [hl]
  · have hk : Clean (.effect .foreign :: k) := by
      intro l hl
      rcases List.mem_cons.mp hl with hl | hl
      · cases hl
      · exact hc.clean _ (List.mem_of_getElem? hi) l hl
    exact hc.set_clean hi rfl ((clean_calls fs).append hk)
  · constructor
    · intro t ht
      rcases List.mem_append.mp ht with ht | ht
      · exact hc.clean t ht
      · obtain rfl := List.mem_singleton.mp ht
        exact fun l hl => clean_calls fs l (List.mem_of_mem_tail hl)
    · intro l i
      rw [hc.owner l i]
      constructor
      · rintro ⟨t, hi, ht⟩
        exact ⟨t, by rw [List.getElem?_append_left (List.getElem?_eq_some_iff.mp hi).1, hi], ht⟩
      · rintro ⟨t, hi, ht⟩
        rw [List.getElem?_append] at hi
        split at hi
        · exact ⟨t, hi, ht⟩
        · rw [List.getElem?_singleton] at hi
          split at hi
          · obtain rfl := Option.some.inj hi
            rw [(clean_calls fs).holding_eq_none] at ht
            cases ht
          · cases hi

theorem Disciplined.locked_reach (hK : K.Disciplined) {c : LockConfig σ F L}
    (hr : K.Reachable c) : Locked c := by
  induction hr with
  | init => exact ⟨by simp, by simp⟩
  | step _ hs ih => exact hK.locked_step ih hs

/-- A thread that is about to run foreign code, or to take a lock, holds none. -/
theorem Disciplined.not_owner (hK : K.Disciplined) {c : LockConfig σ F L} (hr : K.Reachable c)
    {i index : ℕ} {p : Point F L} {k : List (Point F L)} (hi : c.pool[i]? = some ⟨index, p :: k⟩)
    (hp : ∀ l, p ≠ .effect (.unlock l)) (l : L) : c.owner l ≠ some i := by
  refine (hK.locked_reach hr).not_owner hi ?_ l
  unfold holding
  split
  · rename_i l k he
    exact absurd (List.cons.inj he).1 (hp l)
  · rfl

/-- Whoever holds a lock releases it in one step. -/
theorem Disciplined.released (hK : K.Disciplined) {c : LockConfig σ F L} (hr : K.Reachable c)
    {i : ℕ} {l : L} (ho : c.owner l = some i) (b : Bool) :
    ∃ c', K.step c (.run i b) = some c' ∧ c'.owner l = none := by
  obtain ⟨⟨index, _⟩, hi, hold⟩ := ((hK.locked_reach hr).owner l i).mp ho
  obtain ⟨k, rfl⟩ := exists_of_holding hold
  exact ⟨_, by simp only [step, hi, advance, Option.map_some]; rfl, by simp⟩

/-- While any thread has something to run, some thread can go on. -/
theorem Disciplined.progress (hK : K.Disciplined) {c : LockConfig σ F L} (hr : K.Reachable c)
    (hrun : ∃ t ∈ c.pool, t.stack ≠ []) (b : Bool) : ∃ i c', K.step c (.run i b) = some c' := by
  obtain ⟨⟨index, k⟩, ht, hk⟩ := hrun
  obtain ⟨i, hi⟩ := List.mem_iff_getElem?.mp ht
  obtain ⟨p, k, rfl⟩ := List.exists_cons_of_ne_nil hk
  cases p with
  | body f =>
      -- it may wait for a lock; then whoever holds the lock can go on
      cases hacq : acquire c.owner i (K.lock index c.mem f) with
      | some owner => exact ⟨i, _, by simp only [step, hi, advance, hacq, Option.map_some]; rfl⟩
      | none =>
          cases hlock : K.lock index c.mem f with
          | none => rw [hlock] at hacq; cases hacq
          | some l =>
              obtain ⟨j, hj⟩ := Option.ne_none_iff_exists'.mp fun h => by
                rw [hlock, acquire, if_pos h] at hacq
                cases hacq
              obtain ⟨c', hs, -⟩ := hK.released hr hj b
              exact ⟨j, c', hs⟩
  | call f => exact ⟨i, _, by simp only [step, hi, advance, Option.map_some]; rfl⟩
  | effect e => cases e <;> exact ⟨i, _, by simp only [step, hi, advance, Option.map_some]; rfl⟩

/-! ## Nested operations as threads -/

section Simulation
omit [DecidableEq L]

/-- The stack cut where foreign code runs: the frames of each operation, innermost first. -/
def segments : List (Point F L) → List (List F)
  | [] => [[]]
  | .call f :: k | .body f :: k => (segments k).modifyHead (f :: ·)
  | .effect .foreign :: k => [] :: segments k
  | .effect (.unlock _) :: k => segments k

/-- The operations of a stack that still have frames. -/
def work (k : List (Point F L)) : List (List F) := (segments k).filter fun s => !s.isEmpty

/-- The operations of all stacks, each as a thread. -/
def threads (pool : List (Thread (Point F L))) : List (Thread F) :=
  pool.flatMap fun t => (work t.stack).map (Thread.mk t.index)

/-- The threads that still have frames. -/
def busy (pool : List (Thread F)) : List (Thread F) := pool.filter fun t => !t.stack.isEmpty

theorem exists_segments (k : List (Point F L)) : ∃ s ss, segments k = s :: ss := by
  induction k with
  | nil => exact ⟨_, _, rfl⟩
  | cons p k ih =>
      obtain ⟨s, ss, hk⟩ := ih
      cases p with
      | call f => exact ⟨f :: s, ss, by simp [segments, hk]⟩
      | body f => exact ⟨f :: s, ss, by simp [segments, hk]⟩
      | effect e =>
          cases e with
          | foreign => exact ⟨_, _, rfl⟩
          | unlock l => exact ⟨s, ss, hk⟩

@[simp] theorem work_effect (e : Effect L) (k : List (Point F L)) : work (.effect e :: k) = work k := by
  cases e <;> rfl

@[simp] theorem work_effects (es : List (Effect L)) (k : List (Point F L)) :
    work (es.map .effect ++ k) = work k := by
  induction es with
  | nil => rfl
  | cons e es ih => rw [List.map_cons, List.cons_append, work_effect, ih]

theorem segments_calls {k : List (Point F L)} {s : List F} {ss : List (List F)}
    (hk : segments k = s :: ss) (fs : List F) : segments (fs.map .call ++ k) = (fs ++ s) :: ss := by
  induction fs with
  | nil => exact hk
  | cons f fs ih => simp [segments, ih]

theorem flatten_segments (k : List (Point F L)) : (segments k).flatten = k.filterMap Point.frame := by
  induction k with
  | nil => rfl
  | cons p k ih =>
      obtain ⟨s, ss, hk⟩ := exists_segments k
      cases p with
      | call f => simp_all [segments, Point.frame]
      | body f => simp_all [segments, Point.frame]
      | effect e => cases e <;> simp_all [segments, Point.frame, List.filterMap_cons]

theorem flatten_work (k : List (Point F L)) : (work k).flatten = k.filterMap Point.frame := by
  rw [work, List.flatten_filter_not_isEmpty, flatten_segments]

theorem threads_split (p q : List (Thread (Point F L))) (t : Thread (Point F L)) :
    threads (p ++ t :: q) = threads p ++ ((work t.stack).map (Thread.mk t.index) ++ threads q) := by
  simp [threads]

theorem frames_threads (pool : List (Thread (Point F L))) :
    frames (threads pool) = pool.flatMap fun t => t.stack.filterMap Point.frame := by
  induction pool with
  | nil => rfl
  | cons t pool ih =>
      have ht : frames ((work t.stack).map (Thread.mk t.index)) = t.stack.filterMap Point.frame := by
        rw [← flatten_work, frames, List.flatMap_map, List.flatMap_id']
      rw [List.flatMap_cons, ← ht, ← ih, ← frames_append]
      rfl

theorem frames_busy (pool : List (Thread F)) : frames (busy pool) = frames pool := by
  induction pool with
  | nil => rfl
  | cons t pool ih =>
      rw [busy, List.filter_cons, frames_cons, ← ih]
      split
      · exact frames_cons t _
      · rename_i ht
        have ht : t.stack = [] := by simpa using ht
        rw [ht]
        rfl

/-- The same memory, and the operations of `c` as the busy threads of `d`. -/
structure Simulates (d : Config σ F) (c : LockConfig σ F L) : Prop where
  mem : d.mem = c.mem
  threads : (busy d.pool).Perm (threads c.pool)

/-- The same frames are in flight. -/
theorem Simulates.frames {d : Config σ F} {c : LockConfig σ F L} (h : Simulates d c) :
    d.frames.Perm c.frames := by
  rw [Config.frames, ← frames_busy, LockConfig.frames, ← frames_threads]
  exact h.threads.flatMap_right _

theorem busy_split (p q : List (Thread F)) (t : Thread F) :
    (busy (p ++ t :: q)).Perm (busy [t] ++ busy (p ++ q)) := by
  simp only [busy, List.filter_append, List.filter_cons, List.filter_nil]
  split
  · exact List.perm_middle
  · rfl

/-- A thread of the machine goes on; the others are as they were. -/
theorem exists_step {d : Config σ F} {index : ℕ} {f : F} {s : List F} {rest : List (Thread F)} (b : Bool)
    (hd : (busy d.pool).Perm (⟨index, f :: s⟩ :: rest)) :
    ∃ d' a, M.step d a = some d' ∧ d'.mem = (M.exec index b d.mem f).1 ∧
      (busy d'.pool).Perm (busy [⟨index, (M.exec index b d.mem f).2 ++ s⟩] ++ rest) := by
  have hmem : ⟨index, f :: s⟩ ∈ d.pool :=
    List.mem_of_mem_filter (hd.mem_iff.mpr List.mem_cons_self)
  obtain ⟨j, hj⟩ := List.mem_iff_getElem?.mp hmem
  obtain ⟨p, q, hpool, hset⟩ := pool_split hj
  refine ⟨_, .run j b, by simp only [Machine.step, hj]; rfl, rfl, ?_⟩
  rw [hset]
  refine (busy_split p q _).trans (List.Perm.append_left _ ?_)
  rw [hpool] at hd
  exact ((busy_split p q _).symm.trans hd).cons_inv

theorem map_work {index : ℕ} {k : List (Point F L)} {s : List F} {ss : List (List F)}
    (hk : segments k = s :: ss) (fs : List F) : (work (fs.map .call ++ k)).map (Thread.mk index) =
      busy [⟨index, fs ++ s⟩] ++ (ss.filter fun s => !s.isEmpty).map (Thread.mk index) := by
  rw [work, segments_calls hk, List.filter_cons, busy, List.filter_cons]
  split <;> rfl

end Simulation

variable (K) in
/-- **Re-entry adds no behaviour.**  What the machine reaches with its callbacks, it
reaches without them, with the nested operations on threads of their own. -/
theorem simulated (start_perm : ∀ {index m fr fr' op}, fr.Perm fr' →
      M.start index m fr op = M.start index m fr' op) {c : LockConfig σ F L}
    (hr : K.Reachable c) : ∃ d, M.Reachable d ∧ Simulates d c := by
  induction hr with
  | init => exact ⟨_, .init, rfl, .nil⟩
  | @step c c' a hr hs ih =>
      obtain ⟨d, hd, hsim⟩ := ih
      have hthreads := hsim.threads
      rcases step_cases hs with ⟨i, b, index, p, k, m, owner, ps, rfl, hi, hadv, rfl⟩ |
        ⟨i, op, index, k, m, fs, rfl, hi, hstart, rfl⟩ | ⟨index, op, m, fs, rfl, hstart, rfl⟩
      · obtain ⟨p₁, p₂, hpool, hset⟩ := pool_split hi
        rw [hpool, threads_split] at hthreads
        cases p with
        | body f =>
            simp only [advance] at hadv
            obtain ⟨owner', -, he⟩ := Option.map_eq_some_iff.mp hadv
            simp only [Prod.mk.injEq] at he
            obtain ⟨rfl, rfl, rfl⟩ := he
            obtain ⟨s, ss, hk⟩ := exists_segments k
            have hold : (work (.body f :: k)).map (Thread.mk index) =
                ⟨index, f :: s⟩ :: (ss.filter fun s => !s.isEmpty).map (Thread.mk index) :=
              map_work hk [f]
            rw [hold, List.cons_append] at hthreads
            obtain ⟨d', a, hs', hmem', hthreads'⟩ := exists_step (M := M) b
              (hthreads.trans List.perm_middle)
            refine ⟨d', hd.step trivial hs', ?_, ?_⟩
            · rw [hmem', hsim.mem]
            · rw [hset, threads_split, List.append_assoc, work_effects, map_work hk, ← hsim.mem,
                List.append_assoc]
              exact hthreads'.trans (List.perm_append_comm_assoc _ _ _)
        | call f =>
            simp only [advance, Option.some.injEq, Prod.mk.injEq] at hadv
            obtain ⟨rfl, rfl, rfl⟩ := hadv
            refine ⟨d, hd, hsim.mem, ?_⟩
            rw [hset, threads_split, List.append_assoc, work_effects]
            exact hthreads
        | effect e =>
            have hsame : m = c.mem ∧ ps = [] := by
              cases e <;> simp only [advance, Option.some.injEq, Prod.mk.injEq] at hadv <;>
                exact ⟨hadv.1.symm, hadv.2.2.symm⟩
            obtain ⟨rfl, rfl⟩ := hsame
            refine ⟨d, hd, hsim.mem, ?_⟩
            rw [hset, threads_split]
            rwa [work_effect] at hthreads
      · obtain ⟨p₁, p₂, hpool, hset⟩ := pool_split hi
        rw [hpool, threads_split] at hthreads
        refine ⟨⟨m, d.pool ++ [⟨index, fs⟩]⟩, hd.step (a := .start index op) trivial ?_, rfl, ?_⟩
        · rw [Machine.step, hsim.mem, start_perm hsim.frames, hstart]
          rfl
        · -- the operation is nested above a callback, which separates it from what is below
          have hk : segments (.effect .foreign :: k : List (Point F L)) = [] :: segments k := rfl
          rw [hset, threads_split, map_work hk, List.append_nil,
            List.append_assoc]
          refine (busy_split d.pool [] _).trans ?_
          rw [List.append_nil]
          refine (List.Perm.append_left _ hthreads).trans (List.perm_append_comm_assoc _ _ _)
      · refine ⟨⟨m, d.pool ++ [⟨index, fs⟩]⟩, hd.step (a := .start index op) trivial ?_, rfl, ?_⟩
        · rw [Machine.step, hsim.mem, start_perm hsim.frames, hstart]
          rfl
        · have hnew : threads (c.pool ++ [⟨index, fs.map .call⟩]) =
              threads c.pool ++ busy [⟨index, fs⟩] := by
            have hk : segments ([] : List (Point F L)) = [] :: [] := rfl
            have hwork : (work (fs.map (.call : F → Point F L))).map (Thread.mk index) =
                busy [⟨index, fs⟩] := by
              simpa using map_work hk fs
            simp [threads, hwork]
          rw [hnew, busy, List.filter_append]
          exact hthreads.append_right _

end Locking
end Interleave
