import Swansong.Frame

/-!
# The atomic steps

The step of a frame reads and writes the heap once (a load, a read-modify-write, a
compare-and-swap, or a critical section under a shard's lock) and yields the frames
that remain to be run in its place.  Local computation between two atomic steps is
part of the first of them.

`index` is the thread's index, which selects its shard of a node.  `choice` is what
the code leaves open: a weak compare-and-swap that fails spuriously, or a wrapped
value that is ready.
-/

namespace Swansong

variable (index : ℕ) (choice : Bool) (h : Heap)

/-! ## Arrivals -/

/-- The loop body of `Shard::arrive`, after `state` was loaded. -/
def arriveNext (sh : ShardId) (unit : CountUnit) (state : ShardWord) : List Frame :=
  if state.arrived then [.arrive (.shardAdd sh unit state)]
  else [.arrive (.node sh.node), .arrive (.shardCas sh unit state)]

/-- The loop body of `Inner::arrive` on a child of `parent`, after `state` was loaded. -/
def nodeArriveNext (n parent : NodeId) (state : NodeWord) : List Frame :=
  if state.arrived then [.arrive (.nodeAdd n parent state)]
  else
    let up : ShardId := ⟨parent, h.shardIndex index parent⟩
    [.arrive (.shard up .kidsOne), .arrive (.nodeCas n up state)]

def execArrive : ArriveFrame → Heap × List Frame
  | .shard sh unit => (h, arriveNext sh unit (h.shard sh))
  | .shardAdd sh unit state =>
    if h.shard sh = state ∧ !choice then (h.setShard sh (state.add unit), [])
    else (h, arriveNext sh unit (h.shard sh))
  | .shardCas sh unit state =>
    if h.shard sh = state then (h.setShard sh (state.arrive unit), [])
    else
      -- another arrival won; take the node arrival back
      (h, .depart (.node sh.node) :: arriveNext sh unit (h.shard sh))
  | .node n =>
    match h.parent n with
    | none => (h.setState n (h.state n).add, [])
    | some p => (h, nodeArriveNext index h n p.node (h.state n))
  | .nodeAdd n parent state =>
    if h.state n = state ∧ !choice then (h.setState n state.add, [])
    else (h, nodeArriveNext index h n parent (h.state n))
  | .nodeCas n up state =>
    if h.state n = state then (h.setState n (state.arriveAt up.index), [])
    else
      -- another arrival won; take the arrival at the parent shard back
      (h, .depart (.shard up .kidsOne) :: nodeArriveNext index h n up.node (h.state n))

/-! ## Departures -/

def execDepart : DepartFrame → Heap × List Frame
  | .shard sh unit =>
    let state := (h.shard sh).sub unit
    (h.setShard sh state, if state = .emptied then [.depart (.flush sh)] else [])
  | .flush sh =>
    if h.shard sh = .emptied then (h.setShard sh .flushed, [.depart (.node sh.node)]) else (h, [])
  | .node n =>
    let state := (h.state n).sub
    (h.setState n state,
      if state.shards ≠ 0 then []
      else
        (if state.stopped then [.notify .zero n] else []) ++
        match h.parent n with
        | none => []
        | some p => [.depart (.nodeCas n p.node state)])
  | .nodeCas n parent state =>
    if h.state n = state then
      (h.setState n state.depart, [.depart (.shard ⟨parent, state.parentShard⟩ .kidsOne)])
    else (h, [])

/-- `Event::notify(usize::MAX)`.  The events are those of the `event_listener` crate, whose
part is assumed: every listener of the event that was created before the call is notified. -/
def execNotify (event : Event) (n : NodeId) : Heap × List Frame :=
  ({ h with listeners := fun l =>
      if (h.listeners l).event = event ∧ (h.listeners l).node = n
      then { h.listeners l with notified := true } else h.listeners l }, [])

/-! ## Stopping -/

/-- `for shard in self.shards.iter() { shard.stop(self); }` -/
def stopShards (n : NodeId) : List Frame := (h.shards n).map fun sh => .stop (.shard sh)

/-- `Shard::children`: the registered children whose `Weak` upgrades. -/
def shardChildren (sh : ShardId) : List NodeId :=
  (h.children sh).values.filter fun c => 0 < h.strong c

/-- Upgrading every `Weak` of the list. -/
def upgradeAll (cs : List NodeId) : Heap :=
  { h with strong := fun c => h.strong c + cs.count c }

def execStop : StopFrame → Heap × List Frame
  | .node n =>
    let previous := h.state n
    (h.setState n previous.stop,
      if previous.stopped then []
      else
        stopShards h n ++ [.notify .stop n, .stop (.liveChildren n 0 [])] ++
        -- empty when stopped; otherwise the departure that empties the node notifies
        if previous.shards = 0 then [.notify .zero n] else [])
  | .shard sh =>
    let previous := h.shard sh
    (h.setShard sh previous.stop, [.stop (.drain sh previous.idle)])
  | .drain sh empty =>
    ({ h with
        waiters := Function.update h.waiters sh .empty
        drained := Function.update h.drained sh true },
      ((h.waiters sh).values.map fun w => .stop (.wake sh w)) ++
        if empty then [.depart (.flush sh)] else [])
  | .wake sh w => ({ h with woken := Function.update h.woken sh (w :: h.woken sh) }, [])
  | .liveChildren n i acc =>
    if i < h.shardCount n then
      let live := shardChildren h ⟨n, i⟩
      (upgradeAll h live, [.stop (.liveChildren n (i + 1) (acc ++ live))])
    else (h, acc.flatMap fun c => [.stop (.node c), .life (.dropArc c)])

/-! ## Handles and references -/

/-- `Inner::drop`, then the drop of the node's fields: the last is its parent's `Arc`. -/
def collect (n : NodeId) : List Frame :=
  stopShards h n ++
  match h.parent n with
  | none => []
  | some p => [.life (.deregister n), .life (.dropArc p.node)]

def execLife : LifeFrame → Heap × List Frame
  | .dropArc n =>
    ({ h with strong := Function.update h.strong n (h.strong n - 1) },
      if h.strong n = 1 then collect h n else [])
  | .deregister n =>
    match h.parent n, h.key n with
    | some p, some key =>
      let sh : ShardId := ⟨p.node, p.shard⟩
      ({ h with children := Function.update h.children sh ((h.children sh).remove key).1 }, [])
    | _, _ => (h, [])
  | .cloneHandle n =>
    ({ h with swansongCount := Function.update h.swansongCount n (h.swansongCount n + 1) },
      [.life (.cloneArc n)])
  | .cloneArc n =>
    ({ h.cloneArc n with handles := Function.update h.handles n (h.handles n + 1) }, [])
  | .dropHandle n =>
    let last := h.swansongCount n = 1 ∧ h.isRoot n
    ({ h with
        swansongCount := Function.update h.swansongCount n (h.swansongCount n - 1)
        abandoned := if last then Function.update h.abandoned n true else h.abandoned },
      (if last then [.stop (.node n)] else []) ++ [.life (.dropArc n)])
  | .release _ => (h, [])
  | .shutDownReturn n => ({ h with returned := Function.update h.returned n true }, [])

/-! ## Children -/

def execChild : ChildFrame → Heap × List Frame
  | .new parent =>
    (h.cloneArc parent, [.child (.alloc parent (h.shardIndex index parent))])
  | .alloc parent shard =>
    -- locations that were never allocated hold what `Inner::new` puts there
    let c := h.size
    ({ h with
        size := c + 1
        parent := Function.update h.parent c (some ⟨parent, shard⟩)
        shardCount := Function.update h.shardCount c 1
        guardReport := Function.update h.guardReport c (h.guardReport parent)
        swansongCount := Function.update h.swansongCount c 1
        strong := Function.update h.strong c 1 },
      [.child (.register c)])
  | .register c =>
    match h.parent c with
    | none => (h, [])
    | some p =>
      let sh : ShardId := ⟨p.node, p.shard⟩
      let r := (h.children sh).insert c
      ({ h with children := Function.update h.children sh r.1 }, [.child (.storeKey c r.2)])
  | .storeKey c key =>
    ({ h with key := Function.update h.key c (some key) }, [.child (.check c)])
  | .check c =>
    match h.parent c with
    | none => (h, [])
    | some p =>
      (h, (if (h.state p.node).stopped then [.stop (.node c)] else []) ++ [.child (.done c)])
  | .done c => ({ h with handles := Function.update h.handles c (h.handles c + 1) }, [])

/-! ## Guards -/

/-- `Shard::provenance`. -/
def provenance (sh : ShardId) (location : Location) : Heap × Option InfoId :=
  if h.guardReport sh.node then
    let id := h.nextInfo
    ({ h with
        infoLocation := Function.update h.infoLocation id location
        infoStrong := Function.update h.infoStrong id 1
        nextInfo := id + 1
        registry := Function.update h.registry sh ((h.registry sh).register h.infoAlive id) },
      some id)
  else (h, none)

/-- A new `Guard` value goes to the client. -/
def returnGuard (sh : ShardId) (pin : Bool) (location : Location) (info : Option InfoId) : Heap :=
  { h with
    guards := ⟨h.nextGuard, sh, pin, location, info⟩ :: h.guards
    nextGuard := h.nextGuard + 1 }

/-- The loop body of `Shard::arrive_if_arrived`, after `state` was loaded. -/
def forShardNext (sh : ShardId) (location : Location) (state : ShardWord) : List Frame :=
  if state.arrived then [.guard (.forShardAdd sh location state)]
  else [.guard (.upgrade sh location)]

def execGuard : GuardFrame → Heap × List Frame
  | .new n location =>
    let sh : ShardId := ⟨n, h.shardIndex index n⟩
    let r := provenance h sh location
    (r.1, [.arrive (.shard sh .localOne), .guard (.finish sh (!h.isRoot n) location r.2)])
  | .finish sh pin location info =>
    (returnGuard (if pin then h.cloneArc sh.node else h) sh pin location info, [])
  | .forShard sh location =>
    (h, if h.isRoot sh.node then forShardNext sh location (h.shard sh)
      else [.guard (.upgrade sh location)])
  | .forShardAdd sh location state =>
    if h.shard sh = state ∧ !choice then
      (h.setShard sh (state.add .localOne), [.guard (.forShardFinish sh location)])
    else (h, forShardNext sh location (h.shard sh))
  | .forShardFinish sh location =>
    let r := provenance h sh location
    (returnGuard r.1 sh false location r.2, [])
  | .upgrade sh location =>
    -- a collected node yields no guard
    if h.Live sh.node then
      (h.cloneArc sh.node, [.guard (.new sh.node location), .life (.dropArc sh.node)])
    else (h, [])
  | .clone g =>
    let r := provenance h g.shard g.location
    (r.1, [.guard (.cloneAdd g r.2)])
  | .cloneAdd g info =>
    (h.setShard g.shard ((h.shard g.shard).add .localOne),
      [.guard (.finish g.shard g.pin g.location info)])
  | .release _ => (h, [])
  | .drop g =>
    let state := (h.shard g.shard).sub .localOne
    (h.setShard g.shard state,
      (if state = .emptied then
        if g.pin then [.depart (.flush g.shard)] else [.guard (.flushUpgrade g.shard)]
      else []) ++
      (if g.pin then [.life (.dropArc g.shard.node)] else []) ++
      match g.info with
      | none => []
      | some id => [.guard (.dropInfo id)])
  | .flushUpgrade sh =>
    if h.Live sh.node then
      (h.cloneArc sh.node, [.depart (.flush sh), .life (.dropArc sh.node)])
    else (h, [])
  | .dropInfo id =>
    ({ h with infoStrong := Function.update h.infoStrong id (h.infoStrong id - 1) }, [])
  | .dropValue _ _ => (h, [])

/-! ## Waiting for shutdown -/

/-- A `poll` returns Ready and gives the observer back; a `block` returns, dropping it. -/
def waitReady (o : Observer) (blocking : Bool) : Heap × List Frame :=
  if blocking then (h, [.life (.dropArc o.node)])
  else ({ h with observers := { o with pending := false, resolved := true } :: h.observers }, [])

/-- The loop goes on after a failed first check: to the stored listener, or a new one. -/
def waitNext (o : Observer) (blocking : Bool) : List Frame :=
  match o.listener with
  | none => [.wait (.listen o blocking)]
  | some l => [.wait (.park o l blocking)]

def execWait : WaitFrame → Heap × List Frame
  | .create event n blocking =>
    let o : Observer := ⟨event, n, none, false, false⟩
    if blocking then (h.cloneArc n, [.wait (.stopped o true)])
    else ({ h.cloneArc n with observers := o :: h.observers }, [])
  | .stopped o blocking =>
    if (h.state o.node).stopped then
      match o.event with
      | .zero => (h, [.wait (.zero o blocking)])
      | .stop => waitReady h o blocking
    else (h, waitNext o blocking)
  | .zero o blocking =>
    if (h.state o.node).shards = 0 then waitReady h o blocking else (h, waitNext o blocking)
  | .listen o blocking =>
    let l := h.nextListener
    ({ h with
        listeners := Function.update h.listeners l ⟨o.event, o.node, false⟩
        nextListener := l + 1 },
      [.wait (.stoppedAgain o l blocking)])
  | .stoppedAgain o l blocking =>
    if (h.state o.node).stopped then
      match o.event with
      | .zero => (h, [.wait (.zeroAgain o l blocking)])
      | .stop => waitReady h { o with listener := some l } blocking
    else (h, [.wait (.park o l blocking)])
  | .zeroAgain o l blocking =>
    if (h.state o.node).shards = 0 then waitReady h { o with listener := some l } blocking
    else (h, [.wait (.park o l blocking)])
  | .park o l blocking =>
    if (h.listeners l).notified then (h, [.wait (.stopped { o with listener := none } blocking)])
    else if blocking then (h, [.wait (.park o l true)])
    else
      ({ h with
          observers := { o with listener := some l, pending := true } :: h.observers }, [])

/-! ## The state of a node -/

inductive ShutdownState where
  | running
  | shuttingDown
  | complete
  deriving DecidableEq, Repr

/-- `Inner::is_stopped`. -/
def isStopped (n : NodeId) : Bool := (h.state n).stopped

/-- `Inner::is_zero`. -/
def isZero (n : NodeId) : Bool := (h.state n).shards = 0

/-- `Swansong::state`, when both of its loads read the same memory. -/
def shutdownState (n : NodeId) : ShutdownState :=
  let stopped := isStopped h n
  let complete := stopped && isZero h n
  if complete then .complete else if stopped then .shuttingDown else .running

/-! ## Interrupts -/

/-- A poll returns and gives the interrupt back. -/
def pollReturn (i : Interrupt) (pending : Option Waker) : Heap × List Frame :=
  ({ h with interrupts := { i with pending := pending } :: h.interrupts }, [])

/-- Whether the interrupt's registration is for this waker. -/
def Interrupt.confirms (i : Interrupt) (w : Waker) : Bool :=
  match i.registration with
  | none => false
  | some r => r.waker.willWake w

/-- The waiters of a shard without an interrupt's registration. -/
def Interrupt.unregister (i : Interrupt) (waiters : Slab Waker) : Slab Waker :=
  match i.registration with
  | none => waiters
  | some r => (waiters.remove r.key).1

def execPoll : PollFrame → Heap × List Frame
  | .poll i w =>
    if (h.shard i.shard).stopped then pollReturn h i none else (h, [.poll (.wrapped i w)])
  | .wrapped i w =>
    if choice then pollReturn h i none
    else (h, [.poll (if i.confirms w then .registered i w else .register i w)])
  | .registered i w =>
    pollReturn h i (if (h.shard i.shard).stopped then none else some w)
  | .register i w =>
    if (h.shard i.shard).stopped then pollReturn h i none
    else
      let r := (i.unregister (h.waiters i.shard)).insert w
      pollReturn { h with waiters := Function.update h.waiters i.shard r.1 }
        { i with registration := some ⟨r.2, w⟩ } (some w)
  | .drop i =>
    ({ h with
        waiters := Function.update h.waiters i.shard (i.unregister (h.waiters i.shard)) }, [])

/-! ## Walks over a subtree -/

/-- What visiting a child snapshot leaves to do: `guard_count` drops the children
after the last visit, `guard_report` drops each after its own. -/
def visitAll (report : Bool) (cs : List NodeId) : List WalkItem :=
  if report then cs.flatMap fun c => [.node c, .release c]
  else cs.map .node ++ cs.map .release

def execWalk (report : Bool) (total : ℕ) (out : List InfoId) : List WalkItem → Heap × List Frame
  | [] => (h, if report then out.map fun id => .guard (.dropInfo id) else [])
  | .node n :: todo =>
    (h, [.walk report ((h.shards n).map .shard ++ .children n 0 [] :: todo) total out])
  | .shard sh :: todo =>
    if report then
      let swept := (h.registry sh).sweep h.infoAlive
      let live := swept.live h.infoAlive
      ({ h with
          registry := Function.update h.registry sh swept
          infoStrong := fun id => h.infoStrong id + live.count id },
        [.walk report todo total (out ++ live)])
    else (h, [.walk report todo (total + (h.shard sh).locals) out])
  | .children n i acc :: todo =>
    if i < h.shardCount n then
      let live := shardChildren h ⟨n, i⟩
      (upgradeAll h live, [.walk report (.children n (i + 1) (acc ++ live) :: todo) total out])
    else (h, [.walk report (visitAll report acc ++ todo) total out])
  | .release c :: todo => (h, [.life (.dropArc c), .walk report todo total out])

/-- The atomic step of a frame. -/
def exec : Frame → Heap × List Frame
  | .arrive f => execArrive index choice h f
  | .depart f => execDepart h f
  | .stop f => execStop h f
  | .notify event n => execNotify h event n
  | .life f => execLife h f
  | .child f => execChild index h f
  | .guard f => execGuard index choice h f
  | .wait f => execWait h f
  | .poll f => execPoll choice h f
  | .walk report todo total out => execWalk h report total out todo

end Swansong
