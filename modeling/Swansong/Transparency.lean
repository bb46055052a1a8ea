import Swansong.Growth
import Swansong.Traits

/-!
# Transparency of interrupts

Until its shard stops, an interrupt answers each call with what the wrapped value
answers, and the wrapped value is driven exactly as if it were called directly.  From
the first call that begins after the stop the interrupt answers by itself; only the
calls that finish a write still reach the wrapped value.

The stop can fall anywhere.  If it falls inside a poll, between the two checks of the
stop flag, the output of the wrapped value is returned if it has one.

## Main definitions

* `Call`, `Chronological` — calls of an interrupt, along a run of the crate.
* `InterruptOf.run`, `Wrapped.run` — the same calls made on the interrupt and on the value.
* `interrupt_transparent` — the result.
-/

namespace Swansong

open Interleave (Machine)

variable {τ ι : Type} {ω : Outputs} {s : State}

/-! ## Calls along a run -/

/-- A call of an interrupt: the method, what it reads from outside, and the states of the
crate at its two checks of the stop flag. -/
structure Call (ι : Type) where
  method : Method
  world : ι
  check : State
  recheck : State

namespace Call

def moment (c : Call ι) : Moment ι := ⟨c.world, c.check.mem, c.recheck.mem⟩

/-- The call begins after the stop of the shard. -/
def Late (sh : ShardId) (c : Call ι) : Prop := (c.check.mem.shard sh).stopped = true

/-- The shard is stopped when the wrapped value has returned. -/
def Overtaken (sh : ShardId) (c : Call ι) : Prop := (c.recheck.mem.shard sh).stopped = true

instance (sh : ShardId) (c : Call ι) : Decidable (c.Late sh) :=
  inferInstanceAs (Decidable (_ = true))

end Call

/-- The calls are made one after the other along a run from the state, in which anything
may happen before each of them and inside each of them. -/
def Chronological : State → List (Call ι) → Prop
  | _, [] => True
  | s, c :: calls =>
    machine.Leads (fun _ _ => True) s c.check ∧
      machine.Leads (fun _ _ => True) c.check c.recheck ∧ Chronological c.recheck calls

namespace Method

/-- The stop cuts the method off. -/
def interrupted : Method → Bool
  | .pollFlush _ _ | .pollClose _ | .pollShutdown _ => false
  | _ => true

/-- What the method returns after the stop. -/
def terminal : (m : Method) → Option (m.Reply ω)
  | .poll _ => some (.ready none)
  | .pollNext _ => some (.ready none)
  | .next => some none
  | .pollRead _ buf => some (buf, .ready (.ok 0))
  | .pollReadVectored _ bufs => some (bufs, .ready (.ok 0))
  | .pollReadBuf _ buf => some (buf, .ready (.ok ()))
  | .pollWrite _ _ _ => some (.ready (.ok 0))
  | .pollWriteVectored _ _ _ => some (.ready (.ok 0))
  | .pollFlush _ _ => none
  | .pollClose _ => none
  | .pollShutdown _ => none

/-- What the method returns if the wrapped value returned `r`. -/
def answer : (m : Method) → m.Result ω → m.Reply ω
  | .poll _, r => r.map some
  | .pollNext _, r => r
  | .next, r => r
  | .pollRead _ _, r => r
  | .pollReadVectored _ _, r => r
  | .pollReadBuf _ _, r => r
  | .pollWrite _ _ _, r => r
  | .pollWriteVectored _ _ _, r => r
  | .pollFlush _ _, r => r
  | .pollClose _, r => r
  | .pollShutdown _, r => r

/-- The wrapped future or stream is pending: it produced nothing. -/
def Idle : (m : Method) → m.Result ω → Prop
  | .poll _, r => r = .pending
  | .pollNext _, r => r = .pending
  | _, _ => False

end Method

/-- The replies to some calls, each with the method called. -/
abbrev Replies (ω : Outputs) := List (Σ m : Method, m.Reply ω)

/-- Make the calls on the interrupt. -/
def InterruptOf.run (W : Wrapped τ ι ω) (i : InterruptOf τ) :
    List (Call ι) → InterruptOf τ × Replies ω
  | [] => (i, [])
  | c :: calls =>
    let r := i.call W c.moment c.method
    let rest := run W r.1 calls
    (rest.1, ⟨c.method, r.2⟩ :: rest.2)

/-- Make the calls on the wrapped value, and give its answers. -/
def Wrapped.run (W : Wrapped τ ι ω) (t : τ) : List (Call ι) → τ × Replies ω
  | [] => (t, [])
  | c :: calls =>
    let r := W.call c.method c.world t
    let rest := run W r.1 calls
    (rest.1, ⟨c.method, c.method.answer r.2⟩ :: rest.2)

/-! ## One call -/

section Call
variable {α β ρ : Type} (W : Wrapped τ ι ω) {i : InterruptOf τ} {c : Call ι} {m : Moment ι} {h : Heap}
  {w : Waker}

@[simp] theorem delegate_shard {inner : τ → τ × ρ} :
    (i.delegate inner).1.stopListener.shard = i.stopListener.shard := rfl

@[simp] theorem checked_shard {terminal : ρ} {inner : τ → τ × ρ} :
    (i.checked h terminal inner).1.stopListener.shard = i.stopListener.shard := by
  unfold InterruptOf.checked
  split <;> rfl

@[simp] theorem listening_shard {answer : α → Option β} {inner : τ → τ × Poll α} :
    (i.listening m w answer inner).1.stopListener.shard = i.stopListener.shard := by
  unfold InterruptOf.listening
  split
  · rfl
  · split
    · rfl
    · exact pollStopped_shard

/-- Every call leaves the interrupt on its shard. -/
theorem call_shard :
    (i.call W m c.method).1.stopListener.shard = i.stopListener.shard := by
  cases c.method with
  | poll w => exact listening_shard
  | pollNext w => exact listening_shard
  | pollFlush io w => rfl
  | pollClose w => rfl
  | pollShutdown w => rfl
  | _ => exact checked_shard

/-- A poll that begins before the stop polls the wrapped value, and returns its output if
it has one. -/
theorem listening_early (w : Waker) (answer : α → Option β) (inner : τ → τ × Poll α)
    (hst : i.isStopped m.check = false) :
    (i.listening m w answer inner).1.wrapped = (inner i.wrapped).1 ∧
      ((i.listening m w answer inner).2 = (inner i.wrapped).2.map answer ∨
        (inner i.wrapped).2 = .pending ∧ i.isStopped m.recheck = true ∧
          (i.listening m w answer inner).2 = .ready none) := by
  rw [InterruptOf.listening, if_neg (by simp [hst])]
  rcases inner i.wrapped with ⟨t, output | _⟩
  · exact ⟨rfl, .inl rfl⟩
  · refine ⟨rfl, ?_⟩
    by_cases hre : (m.recheck.shard i.stopListener.shard).stopped = true
    · right
      refine ⟨rfl, hre, ?_⟩
      simp [pollStopped_poll, hre]
    · left
      simp [pollStopped_poll, hre]

theorem listening_late {answer : α → Option β} {inner : τ → τ × Poll α}
    (hst : i.isStopped m.check = true) :
    i.listening m w answer inner = (i, .ready none) := by
  rw [InterruptOf.listening, if_pos hst]

theorem checked_early {terminal : ρ} {inner : τ → τ × ρ} (hst : i.isStopped h = false) :
    (i.checked h terminal inner).1.wrapped = (inner i.wrapped).1 ∧
      (i.checked h terminal inner).2 = (inner i.wrapped).2 := by
  rw [InterruptOf.checked, if_neg (by simp [hst])]
  exact ⟨rfl, rfl⟩

theorem checked_late {terminal : ρ} {inner : τ → τ × ρ} (hst : i.isStopped h = true) :
    i.checked h terminal inner = (i, terminal) := by
  rw [InterruptOf.checked, if_pos hst]

/-- A call that begins before the stop reaches the wrapped value and returns its answer,
unless the value is pending and the stop came meanwhile. -/
theorem call_early (hc : ¬c.Late i.stopListener.shard) :
    (i.call W c.moment c.method).1.wrapped = (W.call c.method c.world i.wrapped).1 ∧
      ((i.call W c.moment c.method).2 = c.method.answer (W.call c.method c.world i.wrapped).2 ∨
        c.method.Idle (W.call c.method c.world i.wrapped).2 ∧ c.Overtaken i.stopListener.shard ∧
          c.method.terminal = some (i.call W c.moment c.method).2) := by
  have hst : i.isStopped c.moment.check = false := by
    simpa [Call.Late, InterruptOf.isStopped, Call.moment] using hc
  obtain ⟨method, world, check, recheck⟩ := c
  cases method with
  | poll w =>
      obtain ⟨hwrapped, hreply | ⟨hidle, hover, hreply⟩⟩ :=
        listening_early w some (W.call (.poll w) world) hst
      · exact ⟨hwrapped, .inl hreply⟩
      · exact ⟨hwrapped, .inr ⟨hidle, hover, congrArg some hreply.symm⟩⟩
  | pollNext w =>
      obtain ⟨hwrapped, hreply | ⟨hidle, hover, hreply⟩⟩ :=
        listening_early w id (W.call (.pollNext w) world) hst
      · exact ⟨hwrapped, .inl (hreply.trans (Poll.map_id _))⟩
      · exact ⟨hwrapped, .inr ⟨hidle, hover, congrArg some hreply.symm⟩⟩
  | pollFlush io w => exact ⟨rfl, .inl rfl⟩
  | pollClose w => exact ⟨rfl, .inl rfl⟩
  | pollShutdown w => exact ⟨rfl, .inl rfl⟩
  | _ => exact (checked_early hst).imp_right .inl

/-- A call that begins after the stop leaves the wrapped value alone, if the stop cuts
the method off. -/
theorem call_stopped {method : Method} (hst : i.isStopped m.check = true)
    (hm : method.interrupted = true) :
    (i.call W m method).1 = i ∧ method.terminal = some (i.call W m method).2 := by
  have hpair : ∀ {ρ : Type} {terminal : ρ} {r : InterruptOf τ × ρ}, r = (i, terminal) →
      r.1 = i ∧ some terminal = some r.2 := by
    rintro ρ terminal r rfl
    exact ⟨rfl, rfl⟩
  cases method with
  | poll w => exact hpair (listening_late hst)
  | pollNext w => exact hpair (listening_late hst)
  | pollFlush io w => cases hm
  | pollClose w => cases hm
  | pollShutdown w => cases hm
  | _ => exact hpair (checked_late hst)

/-- A call of a method that finishes a write always reaches the wrapped value. -/
theorem call_delegated (hm : c.method.interrupted = false) :
    (i.call W c.moment c.method).1.wrapped = (W.call c.method c.world i.wrapped).1 ∧
      (i.call W c.moment c.method).2 = c.method.answer (W.call c.method c.world i.wrapped).2 := by
  obtain ⟨method, world, check, recheck⟩ := c
  cases method with
  | pollFlush io w => exact ⟨rfl, rfl⟩
  | pollClose w => exact ⟨rfl, rfl⟩
  | pollShutdown w => exact ⟨rfl, rfl⟩
  | _ => cases hm

end Call

/-! ## All calls -/

section Run
variable (W : Wrapped τ ι ω) {i : InterruptOf τ} {calls live late : List (Call ι)} {sh : ShardId}

/-- Once the shard is stopped, every call is late. -/
theorem late_of_stopped (hst : (s.mem.shard sh).stopped = true) (hc : Chronological s calls) :
    ∀ c ∈ calls, c.Late sh := by
  induction calls generalizing s with
  | nil => simp
  | cons c calls ih =>
      obtain ⟨hbefore, hinside, hrest⟩ := hc
      have hlate : c.Late sh := (extends_leads hbefore).latched sh hst
      have hover : c.Overtaken sh := (extends_leads hinside).latched sh hlate
      intro d hd
      rcases List.mem_cons.mp hd with rfl | hd
      · exact hlate
      · exact ih hover hrest d hd

/-- The stop falls once: no call follows a late one that is not late. -/
theorem exists_cut (hc : Chronological s calls) :
    ∃ live late, calls = live ++ late ∧ (∀ c ∈ live, ¬c.Late sh) ∧ ∀ c ∈ late, c.Late sh := by
  induction calls generalizing s with
  | nil => exact ⟨[], [], rfl, by simp, by simp⟩
  | cons c calls ih =>
      by_cases hlate : c.Late sh
      · refine ⟨[], c :: calls, rfl, by simp, ?_⟩
        intro d hd
        rcases List.mem_cons.mp hd with rfl | hd
        · exact hlate
        · exact late_of_stopped ((extends_leads hc.2.1).latched sh hlate) hc.2.2 d hd
      · obtain ⟨live, late, rfl, hlive, hrest⟩ := ih hc.2.2
        exact ⟨c :: live, late, rfl, List.forall_mem_cons.mpr ⟨hlate, hlive⟩, hrest⟩

theorem Chronological.of_append (hc : Chronological s (live ++ late)) : Chronological s live := by
  induction live generalizing s with
  | nil => trivial
  | cons c live ih => exact ⟨hc.1, hc.2.1, ih hc.2.2⟩

theorem run_append : i.run W (live ++ late) =
    (((i.run W live).1.run W late).1, (i.run W live).2 ++ ((i.run W live).1.run W late).2) := by
  induction live generalizing i with
  | nil => rfl
  | cons c live ih =>
      simp only [List.cons_append, InterruptOf.run, ih]

theorem run_shard (calls : List (Call ι)) :
    (i.run W calls).1.stopListener.shard = i.stopListener.shard := by
  induction calls generalizing i with
  | nil => rfl
  | cons c calls ih => exact ih.trans (call_shard W)

/-- The replies to the calls that begin before the stop are the wrapped value's answers,
or the last of them is the terminal value in the place of a pending answer. -/
def Answered (W : Wrapped τ ι ω) (i : InterruptOf τ) (live : List (Call ι)) : Prop :=
  (i.run W live).2 = (W.run i.wrapped live).2 ∨
    ∃ calls c r, live = calls ++ [c] ∧ c.Overtaken i.stopListener.shard ∧
      c.method.Idle (W.call c.method c.world (W.run i.wrapped calls).1).2 ∧
      c.method.terminal = some r ∧ (i.run W live).2 = (W.run i.wrapped calls).2 ++ [⟨c.method, r⟩]

/-- Before the stop the wrapped value is driven by every call. -/
theorem run_early (hc : Chronological s live) (hlive : ∀ c ∈ live, ¬c.Late i.stopListener.shard) :
    (i.run W live).1.wrapped = (W.run i.wrapped live).1 ∧ Answered W i live := by
  induction live generalizing i s with
  | nil => exact ⟨rfl, .inl rfl⟩
  | cons c live ih =>
      obtain ⟨hearly, hlive⟩ := List.forall_mem_cons.mp hlive
      obtain ⟨hwrapped, hreply⟩ := call_early W hearly
      have hshard := call_shard (c := c) (m := c.moment) (i := i) W
      rw [← hshard] at hlive
      obtain ⟨hdriven, hanswered⟩ := ih hc.2.2 hlive
      rw [hwrapped] at hdriven
      refine ⟨hdriven, ?_⟩
      rcases hreply with hreply | ⟨hidle, hover, hterminal⟩
      · rcases hanswered with hanswered | ⟨calls, d, r, rfl, hover, hidle, hterminal, hanswered⟩
        · left
          simp only [InterruptOf.run, Wrapped.run, hreply, hanswered, hwrapped]
        · rw [hwrapped] at hidle hanswered
          rw [hshard] at hover
          refine .inr ⟨c :: calls, d, r, rfl, hover, hidle, hterminal, ?_⟩
          simp only [InterruptOf.run, Wrapped.run, hreply, hanswered, List.cons_append]
      · -- the stop came inside this call, so there is none that follows it
        have hnil : live = [] := by
          refine List.eq_nil_iff_forall_not_mem.mpr fun d hd => hlive d hd ?_
          rw [hshard]
          exact late_of_stopped hover hc.2.2 d hd
        subst hnil
        exact .inr ⟨[], c, _, rfl, hover, hidle, hterminal, rfl⟩

/-- After the stop the wrapped value is driven by the calls that finish a write. -/
def delegated (calls : List (Call ι)) : List (Call ι) :=
  calls.filter fun c => !c.method.interrupted

/-- From the stop on, the methods it cuts off return their terminal value, and the others
the wrapped value's answers. -/
structure Fused (W : Wrapped τ ι ω) (i : InterruptOf τ) (late : List (Call ι)) : Prop where
  driven : (i.run W late).1.wrapped = (W.run i.wrapped (delegated late)).1
  methods : (i.run W late).2.map Sigma.fst = late.map Call.method
  terminal : ∀ r ∈ (i.run W late).2, r.1.interrupted = true → r.1.terminal = some r.2
  answered : (i.run W late).2.filter (fun r => !r.1.interrupted) =
    (W.run i.wrapped (delegated late)).2

theorem run_late (hlate : ∀ c ∈ late, c.Late i.stopListener.shard) : Fused W i late := by
  induction late generalizing i with
  | nil => exact ⟨rfl, rfl, by simp [InterruptOf.run], rfl⟩
  | cons c late ih =>
      obtain ⟨hc, hlate⟩ := List.forall_mem_cons.mp hlate
      rw [← call_shard (c := c) (m := c.moment) W] at hlate
      have hrest := ih hlate
      by_cases hm : c.method.interrupted = true
      · obtain ⟨hsame, hterminal⟩ := call_stopped (m := c.moment) W hc hm
        rw [hsame] at hrest
        have hdel : delegated (c :: late) = delegated late := by simp [delegated, hm]
        constructor
        · rw [hdel, ← hrest.driven]
          simp only [InterruptOf.run, hsame]
        · simp only [InterruptOf.run, hsame, List.map_cons, hrest.methods]
        · simp only [InterruptOf.run, hsame]
          exact List.forall_mem_cons.mpr ⟨fun _ => hterminal, hrest.terminal⟩
        · rw [hdel, ← hrest.answered]
          simp [InterruptOf.run, hsame, hm]
      · have hm : c.method.interrupted = false := by simpa using hm
        obtain ⟨hwrapped, hreply⟩ := call_delegated (i := i) W hm
        have hdel : delegated (c :: late) = c :: delegated late := by simp [delegated, hm]
        constructor
        · rw [hdel]
          simp only [InterruptOf.run, Wrapped.run, hrest.driven, hwrapped]
        · simp only [InterruptOf.run, List.map_cons, hrest.methods]
        · simp only [InterruptOf.run]
          exact List.forall_mem_cons.mpr ⟨fun hm' => by simp [hm] at hm', hrest.terminal⟩
        · rw [hdel]
          simp [InterruptOf.run, Wrapped.run, hm, hreply, hrest.answered, hwrapped]

end Run

/-! ## Size hints -/

/-- The reply is the end of a stream or of an iterator. -/
def Method.ends : (m : Method) → m.Reply ω → Bool
  | .pollNext _, r => match (r : Poll (Option ω.streamItem)) with
    | .ready none => true
    | _ => false
  | .next, r => Option.isNone (r : Option ω.item)
  | _, _ => false

/-- The reply is an item of a stream or of an iterator. -/
def Method.yields : (m : Method) → m.Reply ω → Bool
  | .pollNext _, r => match (r : Poll (Option ω.streamItem)) with
    | .ready (some _) => true
    | _ => false
  | .next, r => Option.isSome (r : Option ω.item)
  | _, _ => false

/-- How many items come before the end. -/
def items (rs : Replies ω) : ℕ :=
  (rs.takeWhile fun r => !r.1.ends r.2).countP fun r => r.1.yields r.2

/-- The hint bounds the number of items before the end, from below if the end is there. -/
def Bounds (hint : ℕ × Option ℕ) (rs : Replies ω) : Prop :=
  (∀ upper, hint.2 = some upper → items rs ≤ upper) ∧
    ((∃ r ∈ rs, r.1.ends r.2 = true) → hint.1 ≤ items rs)

/-- The methods that advance a stream, and the one that advances an iterator. -/
def Method.Streams (m : Method) : Prop := ∃ w, m = .pollNext w

def Method.Iterates (m : Method) : Prop := m = .next

/-- The hint is valid for what the wrapped value yields, however it is driven by these
methods. -/
def Wrapped.Hints (W : Wrapped τ ι ω) (p : Method → Prop) (hint : ℕ × Option ℕ) (t : τ) : Prop :=
  ∀ calls : List (Call ι), (∀ c ∈ calls, p c.method) → Bounds hint (W.run t calls).2

/-- The hint is valid for what the interrupt yields, along every run from the state. -/
def InterruptOf.Hints (W : Wrapped τ ι ω) (p : Method → Prop) (s : State) (hint : ℕ × Option ℕ)
    (i : InterruptOf τ) : Prop :=
  ∀ calls : List (Call ι), Chronological s calls → (∀ c ∈ calls, p c.method) →
    Bounds hint (i.run W calls).2

section Hints
variable (W : Wrapped τ ι ω) {i : InterruptOf τ} {rs rest : Replies ω} {m : Method}

/-- The terminal value of these methods is the end. -/
theorem ends_of_terminal (hm : m.Streams ∨ m.Iterates) {r : m.Reply ω}
    (hr : m.terminal = some r) : m.ends r = true := by
  rcases hm with ⟨w, rfl⟩ | rfl
  · obtain rfl := Option.some.inj hr
    rfl
  · obtain rfl := Option.some.inj hr
    rfl

theorem interrupted_of_yields (hm : m.Streams ∨ m.Iterates) : m.interrupted = true := by
  rcases hm with ⟨w, rfl⟩ | rfl <;> rfl

/-- Nothing after the end is counted. -/
theorem items_append_of_ends (h : ∀ r ∈ rest, r.1.ends r.2 = true) :
    items (rs ++ rest) = items rs := by
  have hrest : rest.takeWhile (fun r => !r.1.ends r.2) = [] := by
    cases rest with
    | nil => rfl
    | cons r rest => simp [h r (by simp)]
  unfold items
  rw [List.takeWhile_append]
  split
  · rename_i hall
    rw [hrest, List.append_nil, (List.takeWhile_prefix _).eq_of_length hall]
  · rfl

/-- The interrupt's hint is valid if the wrapped value's is: the wrapped value yields all
that the interrupt does. -/
theorem hints_of_wrapped {p : Method → Prop} (hp : ∀ m, p m → m.Streams ∨ m.Iterates)
    {hint : ℕ × Option ℕ} (hw : W.Hints p hint i.wrapped) : i.Hints W p s (0, hint.2) := by
  intro calls hc hcalls
  refine ⟨fun upper hupper => ?_, fun _ => Nat.zero_le _⟩
  obtain ⟨live, late, rfl, hlive, hlate⟩ := exists_cut hc
  obtain ⟨hlives, hlates⟩ := List.forall_mem_append.mp hcalls
  obtain ⟨-, hanswered⟩ := run_early W hc.of_append hlive
  have hrest : ∀ r ∈ ((i.run W live).1.run W late).2, r.1.ends r.2 = true := by
    rw [← run_shard W live] at hlate
    have hfused := run_late W hlate
    intro r hr
    have hmem : r.1 ∈ late.map Call.method := by
      rw [← hfused.methods]
      exact List.mem_map_of_mem hr
    obtain ⟨c, hc, hmethod⟩ := List.mem_map.mp hmem
    have hm := hmethod ▸ hp _ (hlates c hc)
    exact ends_of_terminal hm (hfused.terminal r hr (interrupted_of_yields hm))
  rw [run_append, items_append_of_ends hrest]
  rcases hanswered with hanswered | ⟨calls, c, r, rfl, -, -, hterminal, hanswered⟩
  · rw [hanswered]
    exact (hw live hlives).1 upper hupper
  · have hm := hp _ (hlives c (by simp))
    rw [hanswered, items_append_of_ends (by simpa using ends_of_terminal hm hterminal)]
    exact (hw calls fun d hd => hlives d (by simp [hd])).1 upper hupper

end Hints

/-- **Transparency.**  Any calls of an interrupt, made along any run of the crate, split at
the stop of its shard.  The calls that begin before it drive the wrapped value as direct
calls do and return its answers, except that the terminal value takes the place of a
pending answer if the stop comes inside that poll.  The calls that begin after it return
the terminal value and leave the wrapped value alone, unless they finish a write, which
reaches the wrapped value as before.  The size hints of the interrupt are valid if those
of the wrapped value are.  And the check that the calls make of a pending poll is the step
that a poll in a run goes on to: it registers, or not, and answers as that step does. -/
theorem interrupt_transparent (W : Wrapped τ ι ω) (i : InterruptOf τ) {calls : List (Call ι)}
    (hc : Chronological s calls) :
    (∃ live late, calls = live ++ late ∧
      (∀ c ∈ live, ¬c.Late i.stopListener.shard) ∧ (∀ c ∈ late, c.Late i.stopListener.shard) ∧
      (i.run W live).1.wrapped = (W.run i.wrapped live).1 ∧ Answered W i live ∧
      i.run W calls = (((i.run W live).1.run W late).1,
        (i.run W live).2 ++ ((i.run W live).1.run W late).2) ∧
      Fused W (i.run W live).1 late) ∧
    (W.Hints Method.Streams (W.streamSizeHint i.wrapped) i.wrapped →
      i.Hints W Method.Streams s (i.streamSizeHint W)) ∧
    (W.Hints Method.Iterates (W.sizeHint i.wrapped) i.wrapped →
      i.Hints W Method.Iterates s (i.sizeHint W)) ∧
    (∀ (choice : Bool) (h h' : Heap) (w : Waker), ∃ f,
      execPoll false h (.wrapped i.stopListener w) = (h, [.poll f]) ∧
        execPoll choice h' f = pollReturn (pollStopped h' i.stopListener w).1
          (pollStopped h' i.stopListener w).2.1
          (if (pollStopped h' i.stopListener w).2.2 = .pending then some w else none)) := by
  refine ⟨?_, hints_of_wrapped W fun m hm => .inl hm, hints_of_wrapped W fun m hm => .inr hm,
    fun choice h h' w => ⟨_, rfl, execPoll_pollStopped⟩⟩
  obtain ⟨live, late, rfl, hlive, hlate⟩ := exists_cut hc
  obtain ⟨hdriven, hanswered⟩ := run_early W hc.of_append hlive
  rw [← run_shard W live] at hlate
  exact ⟨live, late, rfl, hlive, by rwa [run_shard W] at hlate, hdriven, hanswered, run_append W,
    run_late W hlate⟩

/-- A stream that counts down and is pending at zero, also a sink. -/
def countdown : Wrapped ℕ Unit ⟨Empty, ℕ, ℕ, Empty⟩ where
  call
    | .poll _, _, n => (n, .pending)
    | .pollNext _, _, 0 => (0, .pending)
    | .pollNext _, _, n + 1 => (n, .ready (some n))
    | .next, _, n => (n, none)
    | .pollRead _ buf, _, n => (n, buf, .pending)
    | .pollReadVectored _ bufs, _, n => (n, bufs, .pending)
    | .pollReadBuf _ buf, _, n => (n, buf, .pending)
    | .pollWrite _ _ _, _, n => (n, .pending)
    | .pollWriteVectored _ _ _, _, n => (n, .pending)
    | .pollFlush _ _, _, n => (n, .ready (.ok ()))
    | .pollClose _, _, n => (n, .ready (.ok ()))
    | .pollShutdown _, _, n => (n, .ready (.ok ()))
  streamSizeHint n := (n, none)
  sizeHint _ := (0, none)
  isWriteVectored _ := false

/-- Two polls of the stream, the second overtaken by the stop, then a flush and a poll. -/
def countdownCalls (s s' : State) : List (Call Unit) :=
  [⟨.pollNext ⟨1, 0⟩, (), s, s⟩, ⟨.pollNext ⟨1, 0⟩, (), s, s'⟩, ⟨.pollFlush .futures ⟨1, 0⟩, (), s', s'⟩,
    ⟨.pollNext ⟨1, 0⟩, (), s', s'⟩]

theorem interrupt_transparent_countdown : ∃ s s' : State,
    machine.Leads (fun _ _ => True) initial s ∧ machine.Leads (fun _ _ => True) s s' ∧
    (s.mem.shard ⟨0, 0⟩).stopped = false ∧ (s'.mem.shard ⟨0, 0⟩).stopped = true ∧
    ∃ live late, countdownCalls s s' = live ++ late ∧
      Answered countdown ⟨⟨⟨0, 0⟩, none, none⟩, 1⟩ live ∧
      Fused countdown (InterruptOf.run countdown ⟨⟨⟨0, 0⟩, none, none⟩, 1⟩ live).1 late := by
  obtain ⟨s, hl, hs⟩ := Machine.exists_leads (M := machine) (c := initial)
    [.start 0 (.newRoot 1 false)] (p := fun s => !(s.mem.shard ⟨0, 0⟩).stopped &&
      ((machine.run (fun _ _ => true) s [.start 0 (.shutDown 0), .run 1 false, .run 1 false]).any
        fun s' => (s'.mem.shard ⟨0, 0⟩).stopped)) (by decide)
  rw [Bool.and_eq_true] at hs
  obtain ⟨s', hl', hs'⟩ := Machine.exists_leads _ hs.2
  have hc : Chronological s (countdownCalls s s') :=
    ⟨.refl, .refl, .refl, hl', .refl, .refl, .refl, .refl, trivial⟩
  obtain ⟨live, late, hcalls, -, -, -, hanswered, -, hfused⟩ :=
    (interrupt_transparent countdown ⟨⟨⟨0, 0⟩, none, none⟩, 1⟩ hc).1
  exact ⟨s, s', hl, hl', by simpa using hs.1, hs', live, late, hcalls, hanswered, hfused⟩

end Swansong
