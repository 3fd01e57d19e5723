import CacheFs.Library.Transition
import CacheFs.Queue.IoQueue

/-! Clients that queue for a file.

Each client runs `queue_in_wait` and, once it has returned 0, `read_queuue_out` or
`write_queue_out`; the clients take turns at every call to the store, and one that waits
may go on for any number of rounds more. The machine also records what no record has: which clients'
requests are pending, that is enqueued by an `md_put` that was done and not yet taken out
by one, oldest first. -/
namespace CacheFs.Queue
open Interaction Ring Transition

/-! ### Requests -/

/-- How a request leaves the queue. -/
inductive Out where
  | read
  | write (offset : UInt64) (data : List UInt8) (size : UInt64) (ionNext : Key)

structure Request where
  ioType : IoType
  arriveTime : Int64
  out : Out

/-- What the queue has of a request. -/
def Request.node (r : Request) : IoQNode := ⟨r.ioType, r.arriveTime⟩

def Request.enter (r : Request) (f : Filename) (polls : Nat) : Program (Option UInt32) :=
  queueInWait f r.ioType r.arriveTime polls

/-- Round the loop of `queue_in_wait` so many times more. -/
def Request.wait (r : Request) (f : Filename) (polls : Nat) : Program (Option UInt32) :=
  waitHead f r.ioType r.arriveTime polls

def Request.leave (r : Request) (f : Filename) : Program Exit :=
  match r.out with
  | .read => do return .returned (← readQueueOut f r.arriveTime)
  | .write offset data size ionNext => writeQueueOut f r.ioType r.arriveTime offset data size ionNext

/-- Nothing of how the request leaves is undefined: the key of a write fits, and its count is
an `int`. -/
def Request.Defined (r : Request) (f : Filename) : Prop :=
  match r.out with
  | .read => True
  | .write _ _ size _ => (ionKey f r.arriveTime).length < ioNodeKeyLen ∧ size.toUInt32.toNat < intLimit

instance Request.decidableDefined (r : Request) (f : Filename) : Decidable (r.Defined f) :=
  match h : r.out with
  | .read => .isTrue (by unfold Request.Defined; rw [h]; trivial)
  | .write _ _ size _ =>
    decidable_of_iff ((ionKey f r.arriveTime).length < ioNodeKeyLen ∧ size.toUInt32.toNat < intLimit)
      (by unfold Request.Defined; rw [h])

/-- How far a function is with its `md_get` and `md_put`: the metadata it last got, since
its put if it has put, and what the put was answered. -/
structure Pair where
  got : Option MetaData
  put : Option Bool

def Pair.after (p : Pair) : (call : Call) → Answer call → Pair
  | .mdGet _, a => {p with got := a}
  | .mdPut _ _, a => ⟨none, some a⟩
  | .mdOut _, _ | .ionGet _, _ | .ionPut _ _, _ | .iodGet _, _ | .iodPut _ _, _ => p

/-- A client is in `queue_in_wait` or in the function that leaves the queue. -/
inductive Stage where
  | entering (prog : Program (Option UInt32))
  | leaving (prog : Program Exit)

structure Client where
  request : Request
  stage : Stage
  pair : Pair

def Client.enters (c : Client) : Bool :=
  match c.stage with
  | .entering _ => true
  | .leaving _ => false

/-- The client's next call is an `md_put`. -/
def Client.puts (c : Client) : Bool :=
  match c.stage with
  | .entering (.call (.mdPut _ _) _) | .leaving (.call (.mdPut _ _) _) => true
  | _ => false

/-- The function the client is in has returned. -/
def Client.returned (c : Client) : Bool :=
  match c.stage with
  | .entering (.ret _) | .leaving (.ret _) => true
  | _ => false

/-- The client's `queue_in_wait` has returned 0. -/
def Client.admitted (c : Client) : Bool :=
  match c.stage with
  | .entering (.ret r) => r = some 0
  | .entering (.call _ _) => false
  | .leaving _ => true

/-- The client's function has done what C leaves undefined. -/
def Client.undefined (c : Client) : Bool :=
  match c.stage with
  | .leaving (.ret r) => r = .undefined
  | .entering _ | .leaving (.call _ _) => false

/-- The client is between an `md_get` and the `md_put` that goes with it. -/
def Client.inPair (c : Client) : Bool := c.pair.got.isSome && c.pair.put.isNone && !c.returned

/-! ### The machine -/

structure State where
  store : Store
  clients : List Client
  pending : List Nat

inductive Move where
  /-- A client calls `queue_in_wait`, whose loop will go round so many times. -/
  | request (r : Request) (polls : Nat)
  | call (i : Nat) (fails : Bool)
  /-- A client that has gone round its loop so often in vain goes round it again. -/
  | wait (i : Nat) (polls : Nat)
  /-- A client whose `queue_in_wait` has returned 0 calls the function that leaves. -/
  | leave (i : Nat)

/-- An `md_put` that was done. -/
def put : (call : Call) → Answer call → Bool
  | .mdPut _ _, a => a
  | .mdGet _, _ | .mdOut _, _ | .ionGet _, _ | .ionPut _ _, _ | .iodGet _, _ | .iodPut _ _, _ => false

def State.next (f : Filename) (s : State) : Move → Option State
  | .request r polls => some {s with clients := s.clients ++ [⟨r, .entering (r.enter f polls), ⟨none, none⟩⟩]}
  | .call i fails => do
    let c ← s.clients[i]?
    match c.stage with
    | .entering (.call call k) =>
      let x := serve call fails s.store
      let c' := {c with stage := .entering (k x.1), pair := c.pair.after call x.1}
      some ⟨x.2, s.clients.set i c', if put call x.1 then s.pending ++ [i] else s.pending⟩
    | .leaving (.call call k) =>
      let x := serve call fails s.store
      let c' := {c with stage := .leaving (k x.1), pair := c.pair.after call x.1}
      some ⟨x.2, s.clients.set i c', if put call x.1 then s.pending.erase i else s.pending⟩
    | _ => none
  | .wait i polls => do
    let c ← s.clients[i]?
    match c.stage with
    | .entering (.ret none) => some {s with
        clients := s.clients.set i {c with stage := .entering (c.request.wait f polls)}}
    | _ => none
  | .leave i => do
    let c ← s.clients[i]?
    match c.stage with
    | .entering (.ret (some 0)) =>
      let c' := {c with stage := .leaving (c.request.leave f), pair := ⟨none, none⟩}
      some {s with clients := s.clients.set i c'}
    | _ => none

/-- A file whose queue is empty, and no clients yet. -/
structure Quiet (f : Filename) (s : State) : Prop where
  metaData : ∃ m, s.store.md f.chars = some m ∧ m.ioq.head = m.ioq.tail
  clients : s.clients = []
  pending : s.pending = []

def queueMachine (f : Filename) : Machine State Move where
  start := Quiet f
  step := State.next f

/-- What the queue has of the requests of these clients, in their order. -/
def nodesOf (clients : List Client) (pending : List Nat) : List IoQNode :=
  pending.filterMap fun i => clients[i]?.map fun c => c.request.node

def State.nodes (s : State) : List IoQNode := nodesOf s.clients s.pending

/-- A condition on each `md_put` that is done, in the state before it. -/
def atPut (P : State → Nat → Client → Prop) : Rule State Move
  | s, .call i false => ∀ c ∈ s.clients[i]?, c.puts → P s i c
  | _, _ => True

instance (P : State → Nat → Client → Prop) [∀ s i c, Decidable (P s i c)] :
    ∀ (s : State) (mv : Move), Decidable (atPut P s mv)
  | s, .call i false => inferInstanceAs (Decidable (∀ c ∈ s.clients[i]?, c.puts → P s i c))
  | _, .call _ true => isTrue trivial
  | _, .request _ _ => isTrue trivial
  | _, .wait _ _ => isTrue trivial
  | _, .leave _ => isTrue trivial

/-- A client that leaves has nothing undefined to do. -/
def definedLeaves (f : Filename) : Rule State Move
  | s, .leave i => ∀ c ∈ s.clients[i]?, c.request.Defined f
  | _, _ => True

instance (f : Filename) : ∀ (s : State) (mv : Move), Decidable (definedLeaves f s mv)
  | s, .leave i => inferInstanceAs (Decidable (∀ c ∈ s.clients[i]?, c.request.Defined f))
  | _, .call _ _ => isTrue trivial
  | _, .request _ _ => isTrue trivial
  | _, .wait _ _ => isTrue trivial

/-- No client's function has done what C leaves undefined. -/
def State.Defined (s : State) : Prop := ∀ (i : Nat) (c : Client), s.clients[i]? = some c → c.undefined = false

end CacheFs.Queue
