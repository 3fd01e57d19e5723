import CacheFs.Queue.Store

/-! The programs of `io_queue.c`.

Each function is the calls it makes to the store, one after the other. -/
namespace CacheFs.Queue
open Interaction Ring

/-! ### The queue of a file -/

/-- The request at the tail, and the tail one on. -/
def IoQ.enqueue (q : IoQ) (ioType : IoType) (arriveTime : Int64) : IoQ :=
  {q with
    ioQNode := Function.update q.ioQNode q.tail ⟨ioType, arriveTime⟩
    tail := place q.tail 1}

/-- The head one on, whatever request it is at. -/
def IoQ.dequeue (q : IoQ) : IoQ := {q with head := place q.head 1}

/-- The `while` loop of `queue_in_wait`, for so many polls: it returns `some 0` when the
head slot has the request's type and time, and `none` while it has not. -/
def waitHead (f : Filename) (ioType : IoType) (arriveTime : Int64) : Nat → Program (Option UInt32)
  | 0 => return none
  | polls + 1 => do
    match ← mdGet f.chars with
    | some m =>
      let ioQNode := m.ioq.ioQNode m.ioq.head
      if ioQNode.ioType = ioType ∧ ioQNode.arriveTime = arriveTime then return some 0
      else waitHead f ioType arriveTime polls
    | none => return some 1

/-- `queue_in_wait`. -/
def queueInWait (f : Filename) (ioType : IoType) (arriveTime : Int64) (polls : Nat) :
    Program (Option UInt32) := do
  match ← mdGet f.chars with
  | some m =>
    if ← mdPut f.chars {m with ioq := m.ioq.enqueue ioType arriveTime} then
      waitHead f ioType arriveTime polls
    else return some 1
  | none => return some 1

/-- `read_queuue_out`, which does not use its `io_type`. -/
def readQueueOut (f : Filename) (arriveTime : Int64) : Program UInt32 := do
  match ← mdGet f.chars with
  | some m =>
    if ← mdPut f.chars {m with ioq := m.ioq.dequeue, stAtime := arriveTime} then return 0 else return 1
  | none => return 1

/-! ### The write log -/

/-- The `ion_next` of the old tail set to the new key, if there is an old tail. -/
def linkTail (tail path : Key) : Program Bool := do
  if tail.length > 1 then
    match ← ionGet tail with
    | some node => ionPut tail {node with ionNext := path}
    | none => return false
  else return true

/-- The metadata with the new key at the tail, and when the log was empty also at the
head and in every replica. -/
def MetaData.logged (m : MetaData) (path : Key) : MetaData :=
  if m.ioNodeQHead.length = 0 then
    {m with
      ioNodeQHead := path
      myRep := fun i => if i.val < m.replicaNum.val then {m.myRep i with ioNodePtr := path} else m.myRep i
      ioNodeQTail := path}
  else {m with ioNodeQTail := path}

/-- How a call ends: it returns, or it has done what C leaves undefined. -/
inductive Exit where
  | returned (r : UInt32)
  | undefined
  deriving DecidableEq

/-- The `iod_put` of `write_queue_out`. A count of 2³¹ or more is a negative size to `tcrdbput`. -/
def putData (path : Key) (data : List UInt8) (count : UInt32) : Program Exit := do
  if count.toNat < intLimit then
    if ← iodPut path data count then return .returned 0 else return .returned 1
  else return .undefined

/-- `write_queue_out` once it has printed its key. `ionNext` is what `malloc` left in the new
node's `ion_next`. -/
def writeUnder (path : Key) (f : Filename) (ioType : IoType) (arriveTime : Int64) (offset : UInt64)
    (data : List UInt8) (size : UInt64) (ionNext : Key) : Program Exit := do
  match ← mdGet f.chars with
  | some m =>
    if ← ionPut path ⟨ioType, offset, arriveTime, m.ioNodeQTail, ionNext⟩ then
      if ← linkTail m.ioNodeQTail path then
        if ← mdPut f.chars ({m with ioq := m.ioq.dequeue}.logged path) then
          putData path data size.toUInt32
        else return .returned 1
      else return .returned 1
    else return .returned 1
  | none => return .returned 1

/-- `write_queue_out`. A key that does not fit, with its terminator, overruns `path`. -/
def writeQueueOut (f : Filename) (ioType : IoType) (arriveTime : Int64) (offset : UInt64)
    (data : List UInt8) (size : UInt64) (ionNext : Key) : Program Exit :=
  if (ionKey f arriveTime).length < ioNodeKeyLen then
    writeUnder (ionKey f arriveTime) f ioType arriveTime offset data size ionNext
  else return .undefined

/-- `remove_queuue_out`. -/
def removeQueueOut (f : Filename) : Program UInt32 := do
  if ← mdOut f.chars then return 0 else return 1

/-! ### Replicas -/

/-- What `replica_update` has of a write when it comes to apply it. -/
structure Applied where
  key : Key
  offset : UInt64
  realData : Option (List UInt8)
  deriving DecidableEq

/-- The memory that `replica_update` uses without seeing to it. -/
structure Scratch where
  /-- What `malloc(sizeof(IO_Node*))` gave has room for the `IO_Node` that `ion_get` writes. -/
  ioNode : Bool
  /-- The uninitialised `data_size`, which `iod_get` is given, points to a `u32`. -/
  dataSize : Bool
  deriving DecidableEq

/-- The memory is as the code needs it. -/
def Scratch.Fits (scratch : Scratch) : Prop := scratch.ioNode = true ∧ scratch.dataSize = true

instance (scratch : Scratch) : Decidable scratch.Fits := inferInstanceAs (Decidable (_ ∧ _))

inductive Walk where
  | failed
  | running
  | undefined
  | ended (applied : List Applied)

/-- The `while` loop of `replica_update` from `io_node_ptr`, for so many nodes. -/
def walkLog (scratch : Scratch) : Nat → Key → Program Walk
  | _, [] => return .ended []
  | 0, _ :: _ => return .running
  | nodes + 1, ioNodePtr => do
    match ← ionGet ioNodePtr with
    | some ioNode =>
      if scratch.Fits then
        let realData ← iodGet ioNodePtr
        match ← walkLog scratch nodes ioNode.ionNext with
        | .ended applied => return .ended (⟨ioNodePtr, ioNode.offset, realData⟩ :: applied)
        | other => return other
      else return .undefined
    | none => return .failed

/-- The search for a host among the registered replicas: the index it stops at and
the last replica it looked at, which is the host's if the host is registered. -/
def findReplica (hostIp : List Char) : List Replica → Nat → Option Replica → Nat × Option Replica
  | [], i, last => (i, last)
  | replica :: rest, i, _ =>
    if replica.hostIp = hostIp then (i, some replica) else findReplica hostIp rest (i + 1) (some replica)

/-- How `replica_update` ends: it returns 1, or falls off its end having applied some
writes, or has done what C leaves undefined; or it is still in its loop. -/
inductive Update where
  | failed
  | running
  | done (applied : List Applied)
  | undefined
  deriving DecidableEq

/-- `replica_update`. With no replica registered it reads `replica` uninitialised, and the
`bzero` may be outside `my_rep`. -/
def replicaUpdate (scratch : Scratch) (f : Filename) (hostIp : List Char) (nodes : Nat) : Program Update := do
  match ← mdGet f.chars with
  | some m =>
    match findReplica hostIp ((List.ofFn m.myRep).take m.replicaNum) 0 none with
    | (_, none) => return .undefined
    | (i, some replica) =>
      if replica.ioNodePtr.length ≠ 0 then
        match ← walkLog scratch nodes replica.ioNodePtr with
        | .failed => return .failed
        | .running => return .running
        | .undefined => return .undefined
        | .ended applied =>
          if h : i < maxReplicas then
            let myRep := Function.update m.myRep ⟨i, h⟩ {m.myRep ⟨i, h⟩ with ioNodePtr := []}
            if ← mdPut f.chars {m with myRep := myRep} then return .done applied else return .failed
          else return .undefined
      else if ← mdPut f.chars m then return .done [] else return .failed
  | none => return .failed

end CacheFs.Queue
