import Swansong.Program

/-!
# Interrupts around a wrapped value

`Interrupt` implements the traits of what it wraps.  A call of one of their methods
reads the stop flag of its shard before it passes the call on; the polls of a future
and of a stream read it again when the wrapped value is pending.

The wrapped value is an arbitrary state machine, seen through the methods it is
called by.  `ι` is what such a call reads from outside.

## Main definitions

* `Method`, `Wrapped` — the methods, and a value that has them.
* `pollStopped` — the second check of a poll.
* `InterruptOf` — the interrupt around a value, with its methods under their own names.
* `InterruptOf.call` — the method that a call names.
-/

namespace Swansong

/-- `std::task::Poll`. -/
inductive Poll (α : Type) where
  | ready (value : α)
  | pending
  deriving DecidableEq, Repr

def Poll.map {α β : Type} (f : α → β) : Poll α → Poll β
  | .ready a => .ready (f a)
  | .pending => .pending

@[simp] theorem Poll.map_ready {α β : Type} (f : α → β) (a : α) :
    (Poll.ready a).map f = .ready (f a) := rfl
@[simp] theorem Poll.map_pending {α β : Type} (f : α → β) : (Poll.pending).map f = .pending := rfl

@[simp] theorem Poll.map_id {α : Type} (p : Poll α) : p.map id = p := by cases p <;> rfl

/-- The types that a wrapped value answers with: `Future::Output`, `Stream::Item`,
`Iterator::Item`, and the errors of reads and writes. -/
structure Outputs where
  output : Type
  streamItem : Type
  item : Type
  error : Type

/-- `tokio::io::ReadBuf`. -/
structure ReadBuf where
  buf : List UInt8
  filled : ℕ
  initialized : ℕ
  deriving DecidableEq, Repr

/-- The two families of I/O traits. -/
inductive Io where
  | futures
  | tokio
  deriving DecidableEq, Repr

/-- The methods that advance a wrapped value: of `Future`, `Stream`, `Iterator`, and of
`AsyncRead` and `AsyncWrite` of either family.  A poll brings the waker of its context. -/
inductive Method where
  | poll (w : Waker)
  | pollNext (w : Waker)
  | next
  | pollRead (w : Waker) (buf : List UInt8)
  | pollReadVectored (w : Waker) (bufs : List (List UInt8))
  /-- `poll_read` of `tokio`. -/
  | pollReadBuf (w : Waker) (buf : ReadBuf)
  | pollWrite (io : Io) (w : Waker) (buf : List UInt8)
  | pollWriteVectored (io : Io) (w : Waker) (bufs : List (List UInt8))
  | pollFlush (io : Io) (w : Waker)
  /-- `poll_close` of `futures_io`. -/
  | pollClose (w : Waker)
  /-- `poll_shutdown` of `tokio`. -/
  | pollShutdown (w : Waker)
  deriving DecidableEq, Repr

namespace Method

/-- What the wrapped value returns.  A read also returns the caller's buffers, as it
left them. -/
def Result (ω : Outputs) : Method → Type
  | poll _ => Poll ω.output
  | pollNext _ => Poll (Option ω.streamItem)
  | next => Option ω.item
  | pollRead _ _ => List UInt8 × Poll (Except ω.error ℕ)
  | pollReadVectored _ _ => List (List UInt8) × Poll (Except ω.error ℕ)
  | pollReadBuf _ _ => ReadBuf × Poll (Except ω.error Unit)
  | pollWrite _ _ _ | pollWriteVectored _ _ _ => Poll (Except ω.error ℕ)
  | pollFlush _ _ | pollClose _ | pollShutdown _ => Poll (Except ω.error Unit)

/-- What the interrupt returns: the output of a future in an `Option`. -/
def Reply (ω : Outputs) : Method → Type
  | poll _ => Poll (Option ω.output)
  | m => m.Result ω

end Method

/-- A value an interrupt can wrap: what each method does to its state and returns. -/
structure Wrapped (τ ι : Type) (ω : Outputs) where
  call : (m : Method) → ι → τ → τ × m.Result ω
  /-- `size_hint` of `Stream` and of `Iterator`. -/
  streamSizeHint : τ → ℕ × Option ℕ
  sizeHint : τ → ℕ × Option ℕ
  isWriteVectored : τ → Bool

/-- `StopListener::poll_stopped`.  Both of its paths load the stop flag once; `h` is the
memory then. -/
def pollStopped (h : Heap) (i : Interrupt) (w : Waker) : Heap × Interrupt × Poll Unit :=
  if i.confirms w then (h, i, if (h.shard i.shard).stopped then .ready () else .pending)
  else if (h.shard i.shard).stopped then (h, i, .ready ())
  else
    let r := (i.unregister (h.waiters i.shard)).insert w
    ({ h with waiters := Function.update h.waiters i.shard r.1 },
      { i with registration := some ⟨r.2, w⟩ }, .pending)

/-- An interrupt's `stop_listener` and `wrapped_type`. -/
structure InterruptOf (τ : Type) where
  stopListener : Interrupt
  wrapped : τ

/-- When a call is made: what it reads from outside, and the memory at its check of the
stop flag and, if the wrapped value is pending, at the second. -/
structure Moment (ι : Type) where
  world : ι
  check : Heap
  recheck : Heap

namespace InterruptOf

variable {τ ι ρ α β : Type} {ω : Outputs}

/-- `Interrupt::is_stopped`. -/
def isStopped (i : InterruptOf τ) (h : Heap) : Bool := (h.shard i.stopListener.shard).stopped

/-- Pass a call on to the wrapped value. -/
def delegate (i : InterruptOf τ) (inner : τ → τ × ρ) : InterruptOf τ × ρ :=
  ({ i with wrapped := (inner i.wrapped).1 }, (inner i.wrapped).2)

/-- `if self.is_stopped() { terminal } else { self.wrapped_type.inner() }`. -/
def checked (i : InterruptOf τ) (h : Heap) (terminal : ρ) (inner : τ → τ × ρ) :
    InterruptOf τ × ρ :=
  if i.isStopped h then (i, terminal) else i.delegate inner

/-- Check the stop flag, poll the wrapped value, and check again if it is pending. -/
def listening (i : InterruptOf τ) (m : Moment ι) (w : Waker) (answer : α → Option β)
    (inner : τ → τ × Poll α) : InterruptOf τ × Poll (Option β) :=
  if i.isStopped m.check then (i, .ready none)
  else
    match inner i.wrapped with
    | (t, .ready output) => ({ i with wrapped := t }, .ready (answer output))
    | (t, .pending) =>
      let r := pollStopped m.recheck i.stopListener w
      (⟨r.2.1, t⟩, r.2.2.map fun _ => none)

variable (W : Wrapped τ ι ω) (m : Moment ι) (i : InterruptOf τ)

/-! ## `Future`, `Stream` and `Iterator` -/

def poll (w : Waker) : InterruptOf τ × Poll (Option ω.output) :=
  i.listening m w some (W.call (.poll w) m.world)

def pollNext (w : Waker) : InterruptOf τ × Poll (Option ω.streamItem) :=
  i.listening m w id (W.call (.pollNext w) m.world)

def next : InterruptOf τ × Option ω.item :=
  i.checked m.check none (W.call .next m.world)

/-- `Stream::size_hint`. -/
def streamSizeHint : ℕ × Option ℕ := (0, (W.streamSizeHint i.wrapped).2)

/-- `Iterator::size_hint`. -/
def sizeHint : ℕ × Option ℕ := (0, (W.sizeHint i.wrapped).2)

/-! ## `AsyncRead` -/

def pollRead (w : Waker) (buf : List UInt8) :
    InterruptOf τ × List UInt8 × Poll (Except ω.error ℕ) :=
  i.checked m.check (buf, .ready (.ok 0)) (W.call (.pollRead w buf) m.world)

def pollReadVectored (w : Waker) (bufs : List (List UInt8)) :
    InterruptOf τ × List (List UInt8) × Poll (Except ω.error ℕ) :=
  i.checked m.check (bufs, .ready (.ok 0)) (W.call (.pollReadVectored w bufs) m.world)

def pollReadBuf (w : Waker) (buf : ReadBuf) : InterruptOf τ × ReadBuf × Poll (Except ω.error Unit) :=
  i.checked m.check (buf, .ready (.ok ())) (W.call (.pollReadBuf w buf) m.world)

/-! ## `AsyncWrite` -/

def pollWrite (io : Io) (w : Waker) (buf : List UInt8) :
    InterruptOf τ × Poll (Except ω.error ℕ) :=
  i.checked m.check (.ready (.ok 0)) (W.call (.pollWrite io w buf) m.world)

def pollWriteVectored (io : Io) (w : Waker) (bufs : List (List UInt8)) :
    InterruptOf τ × Poll (Except ω.error ℕ) :=
  i.checked m.check (.ready (.ok 0)) (W.call (.pollWriteVectored io w bufs) m.world)

def pollFlush (io : Io) (w : Waker) : InterruptOf τ × Poll (Except ω.error Unit) :=
  i.delegate (W.call (.pollFlush io w) m.world)

def pollClose (w : Waker) : InterruptOf τ × Poll (Except ω.error Unit) :=
  i.delegate (W.call (.pollClose w) m.world)

def pollShutdown (w : Waker) : InterruptOf τ × Poll (Except ω.error Unit) :=
  i.delegate (W.call (.pollShutdown w) m.world)

def isWriteVectored : Bool := W.isWriteVectored i.wrapped

/-- A call of a method. -/
def call : (method : Method) → InterruptOf τ × method.Reply ω
  | .poll w => i.poll W m w
  | .pollNext w => i.pollNext W m w
  | .next => i.next W m
  | .pollRead w buf => i.pollRead W m w buf
  | .pollReadVectored w bufs => i.pollReadVectored W m w bufs
  | .pollReadBuf w buf => i.pollReadBuf W m w buf
  | .pollWrite io w buf => i.pollWrite W m io w buf
  | .pollWriteVectored io w bufs => i.pollWriteVectored W m io w bufs
  | .pollFlush io w => i.pollFlush W m io w
  | .pollClose w => i.pollClose W m w
  | .pollShutdown w => i.pollShutdown W m w

end InterruptOf

/-! ## The second check -/

variable {h : Heap} {choice : Bool} {i : Interrupt} {w : Waker}

/-- The step of a poll after the wrapped value was pending is its second check. -/
theorem execPoll_pollStopped :
    execPoll choice h (if i.confirms w then .registered i w else .register i w) =
      pollReturn (pollStopped h i w).1 (pollStopped h i w).2.1
        (if (pollStopped h i w).2.2 = .pending then some w else none) := by
  by_cases hconf : i.confirms w = true
  · by_cases hst : (h.shard i.shard).stopped = true
    · simp [execPoll, pollStopped, hconf, hst]
    · simp [execPoll, pollStopped, hconf, hst]
  · by_cases hst : (h.shard i.shard).stopped = true
    · simp [execPoll, pollStopped, hconf, hst]
    · simp [execPoll, pollStopped, hconf, hst]

/-- The second check is ready exactly if the shard is stopped. -/
theorem pollStopped_poll : (pollStopped h i w).2.2 =
    if (h.shard i.shard).stopped then .ready () else .pending := by
  unfold pollStopped
  split
  · rfl
  · split <;> simp_all

/-- A listener keeps its shard. -/
@[simp] theorem pollStopped_shard : (pollStopped h i w).2.1.shard = i.shard := by
  unfold pollStopped
  split
  · rfl
  · split <;> rfl

end Swansong
