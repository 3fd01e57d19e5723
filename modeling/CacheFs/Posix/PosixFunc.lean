import CacheFs.Library.Descriptors
import CacheFs.Library.Transition
import CacheFs.Xml.Encode

/-! The functions that an application calls (`posix_func.c`).

Each sends one message to the super node and waits for the reply, over a connection that
`_CreateFile` and `_OpenFile` make and return and `_RemoveFile` makes for itself. The
functions of `sock_msg.h`, which is not there, and its constants are parameters. Threads
of an application may call them at the same time, and share its descriptors. -/
namespace CacheFs.Posix
open Interaction Descriptors Transition
open CacheFs.Namespace (CString)
open CacheFs.Xml (Field filePathLen readInto)

/-- The constants of `sock_msg.h`. -/
structure SockMsgH where
  ocrCreat : UInt8
  ocrRemove : UInt8
  ioRead : UInt8
  ioClose : UInt8
  rplOk : UInt32
  rplErrCreat : UInt32

/-- `OCR_MSG`. -/
structure OcrMsg where
  ocrType : UInt8
  fileName : Field filePathLen
  perm : UInt32
  mode : Int32

/-- `IO_MSG`. -/
structure IoMsg where
  ioType : UInt8
  count : UInt32
  offset : UInt64

/-- `RPL_MSG`. -/
structure RplMsg where
  errno : UInt32
  count : UInt32

/-- What a function finds in its variables before it sets them. -/
structure Stack where
  fileName : Field filePathLen
  rplMsg : RplMsg
  err : Int32

/-! ### Calls -/

inductive Call where
  | socket
  /-- `connect`, to the super node; -1 is no descriptor. -/
  | connect (fd : Option Nat)
  | close (fd : Option Nat)
  | sendOcrMsg (fd : Nat) (msg : OcrMsg)
  | recvRplMsg (fd : Nat) (rplMsg : RplMsg)
  | sendIoMsg (fd : Nat) (msg : IoMsg)
  | recvBufMsg (fd : Nat) (count : UInt32)
  | sendBufMsg (fd : Nat) (buf : List UInt8) (count : UInt32)

@[reducible] def Answer : Call → Type
  | .socket => Option Nat
  | .connect _ | .sendOcrMsg _ _ | .sendIoMsg _ _ => Bool
  | .close _ => Unit
  | .recvRplMsg _ _ => Bool × RplMsg
  | .recvBufMsg _ _ => Int32 × List UInt8
  | .sendBufMsg _ _ _ => Int32

@[reducible] def sockets : Interface := ⟨Call, Answer⟩

abbrev Program := Prog sockets

def socket : Program (Option Nat) := Prog.ask (I := sockets) .socket
def connect (fd : Option Nat) : Program Bool := Prog.ask (I := sockets) (.connect fd)
def close (fd : Option Nat) : Program Unit := Prog.ask (I := sockets) (.close fd)
def sendOcrMsg (fd : Nat) (msg : OcrMsg) : Program Bool := Prog.ask (I := sockets) (.sendOcrMsg fd msg)
def recvRplMsg (fd : Nat) (rplMsg : RplMsg) : Program (Bool × RplMsg) := Prog.ask (I := sockets) (.recvRplMsg fd rplMsg)
def sendIoMsg (fd : Nat) (msg : IoMsg) : Program Bool := Prog.ask (I := sockets) (.sendIoMsg fd msg)
def recvBufMsg (fd : Nat) (count : UInt32) : Program (Int32 × List UInt8) := Prog.ask (I := sockets) (.recvBufMsg fd count)
def sendBufMsg (fd : Nat) (buf : List UInt8) (count : UInt32) : Program Int32 :=
  Prog.ask (I := sockets) (.sendBufMsg fd buf count)

/-! ### The functions of the program -/

/-- `connect_super_node`, which goes on without a socket. -/
def connectSuperNode : Program (Option Nat) := do
  let fd ← socket
  if ← connect fd then return fd else return none

/-- `_CreateFile`: the descriptor that it returns. The name is copied without its terminator. -/
def createFile (h : SockMsgH) (stack : Stack) (path : CString) (perm : UInt32) (mode : Int32) : Program (Option Nat) := do
  if filePathLen < path.bytes.length then return none
  let ocrMsg : OcrMsg := ⟨h.ocrCreat, readInto stack.fileName path.bytes, perm, mode⟩
  let rplMsg : RplMsg := ⟨h.rplErrCreat, 0⟩
  match ← connectSuperNode with
  | none => return none
  | some fd =>
    if ← sendOcrMsg fd ocrMsg then
      let (received, rplMsg) ← recvRplMsg fd rplMsg
      if received then
        if rplMsg.errno ≠ h.rplOk then
          close (some fd)
          return none
        return some fd
      else
        close (some fd)
        return none
    else
      close (some fd)
      return none

/-- `_OpenFile`, whose message is one to create the file. -/
def openFile (h : SockMsgH) (stack : Stack) (path : CString) (mode : Int32) : Program (Option Nat) :=
  createFile h stack path 0 mode

/-- `_CloseFile`, which closes nothing. -/
def closeFile (h : SockMsgH) (fd : Nat) : Program Int32 := do
  let ioMsg : IoMsg := ⟨h.ioClose, 0, 0⟩
  if ← sendIoMsg fd ioMsg then return 0 else return 1

/-- The end of `_RemoveFile`, under the label `op_over`. -/
def removeOver (h : SockMsgH) (rplMsg : RplMsg) (fd : Option Nat) (err : Int32) : Program Int32 := do
  let err := if rplMsg.errno ≠ h.rplOk then 4 else err
  if fd ≠ some 0 then
    close fd
    return err
  else return err

/-- `_RemoveFile`. -/
def removeFile (h : SockMsgH) (stack : Stack) (path : CString) : Program Int32 := do
  if filePathLen < path.bytes.length then return -1
  let ocrMsg : OcrMsg := ⟨h.ocrRemove, readInto stack.fileName path.bytes, 0, 0⟩
  match ← connectSuperNode with
  | none => removeOver h stack.rplMsg none 1
  | some fd =>
    if ← sendOcrMsg fd ocrMsg then
      let (received, rplMsg) ← recvRplMsg fd stack.rplMsg
      removeOver h rplMsg (some fd) (if received then 0 else 3)
    else removeOver h stack.rplMsg (some fd) 2

/-- `_ReadFile`, with what it reads. -/
def readFile (h : SockMsgH) (stack : Stack) (fd : Nat) (count : UInt32) (offset : UInt64) :
    Program (Int32 × List UInt8) := do
  let ioMsg : IoMsg := ⟨h.ioRead, count, offset⟩
  if ← sendIoMsg fd ioMsg then
    let (received, rplMsg) ← recvRplMsg fd stack.rplMsg
    if received then
      if rplMsg.errno = h.rplOk then recvBufMsg fd count else return (stack.err, [])
    else return (-1, [])
  else return (-1, [])

/-- `_WriteFile`, whose message is one to read the file. -/
def writeFile (h : SockMsgH) (stack : Stack) (fd : Nat) (buf : List UInt8) (count : UInt32) (offset : UInt64) :
    Program Int32 := do
  let ioMsg : IoMsg := ⟨h.ioRead, count, offset⟩
  if ← sendIoMsg fd ioMsg then
    if (← sendBufMsg fd buf count) ≤ 0 then return -1
    let (received, rplMsg) ← recvRplMsg fd stack.rplMsg
    if received then
      return if rplMsg.errno = h.rplOk then rplMsg.count.toInt32 else stack.err
    else return -1
  else return -1

/-! ### Threads -/

/-- A call of the library. -/
inductive Request where
  | createFile (path : CString) (perm : UInt32) (mode : Int32)
  | openFile (path : CString) (mode : Int32)
  | closeFile (fd : Nat)
  | removeFile (path : CString)
  | readFile (fd : Nat) (count : UInt32) (offset : UInt64)
  | writeFile (fd : Nat) (buf : List UInt8) (count : UInt32) (offset : UInt64)

/-- What it returns: a descriptor, with -1 as none, or a code. -/
inductive Result where
  | fd (fd : Option Nat)
  | err (err : Int32)

def Request.program (h : SockMsgH) (stack : Stack) : Request → Program Result
  | .createFile path perm mode => Posix.createFile h stack path perm mode >>= fun r => .ret (.fd r)
  | .openFile path mode => Posix.openFile h stack path mode >>= fun r => .ret (.fd r)
  | .closeFile fd => Posix.closeFile h fd >>= fun r => .ret (.err r)
  | .removeFile path => Posix.removeFile h stack path >>= fun r => .ret (.err r)
  | .readFile fd count offset => Posix.readFile h stack fd count offset >>= fun r => .ret (.err r.1)
  | .writeFile fd buf count offset => Posix.writeFile h stack fd buf count offset >>= fun r => .ret (.err r)

/-- What a call is answered, where that is not settled by the descriptors. -/
structure Luck where
  ok : Bool
  socket : Nat
  rplMsg : RplMsg
  count : Int32
  buf : List UInt8

/-- The functions of `sock_msg.h`: what they return, and the descriptors after it. -/
structure Messages where
  sendOcrMsg (fd : Nat) (msg : OcrMsg) (e : Luck) (t : Table) : Bool × Table
  recvRplMsg (fd : Nat) (rplMsg : RplMsg) (e : Luck) (t : Table) : (Bool × RplMsg) × Table
  sendIoMsg (fd : Nat) (msg : IoMsg) (e : Luck) (t : Table) : Bool × Table
  recvBufMsg (fd : Nat) (count : UInt32) (e : Luck) (t : Table) : (Int32 × List UInt8) × Table
  sendBufMsg (fd : Nat) (buf : List UInt8) (count : UInt32) (e : Luck) (t : Table) : Int32 × Table

/-- They send and receive over the descriptor that they are given, and leave all open that was, and
nothing else. -/
structure Messages.KeepDescriptors (m : Messages) : Prop where
  sendOcrMsg : ∀ fd msg e t, (m.sendOcrMsg fd msg e t).2 = t
  recvRplMsg : ∀ fd rplMsg e t, (m.recvRplMsg fd rplMsg e t).2 = t
  sendIoMsg : ∀ fd msg e t, (m.sendIoMsg fd msg e t).2 = t
  recvBufMsg : ∀ fd count e t, (m.recvBufMsg fd count e t).2 = t
  sendBufMsg : ∀ fd buf count e t, (m.sendBufMsg fd buf count e t).2 = t

/-- What a call does to the descriptors of the process; no socket is connected through -1. -/
def serve (m : Messages) : (c : Call) → Luck → Table → Answer c × Table
  | .socket, e, t => if e.ok then (some t.lowest, t.set t.lowest (some (.other e.socket))) else (none, t)
  | .connect fd, e, t => (e.ok && fd.isSome, t)
  | .close fd, _, t => ((), t.close fd)
  | .sendOcrMsg fd msg, e, t => m.sendOcrMsg fd msg e t
  | .recvRplMsg fd rplMsg, e, t => m.recvRplMsg fd rplMsg e t
  | .sendIoMsg fd msg, e, t => m.sendIoMsg fd msg e t
  | .recvBufMsg fd count, e, t => m.recvBufMsg fd count e t
  | .sendBufMsg fd buf count, e, t => m.sendBufMsg fd buf count e t

/-- A thread in a call of the library: what it was answered for a socket, and whether its
connection was refused. -/
structure Thread where
  prog : Program Result
  socket : Option Nat
  refused : Bool

/-- What a thread has seen of its connection after a call. -/
def seen : (c : Call) → Answer c → Option Nat × Bool → Option Nat × Bool
  | .socket, a, (_, refused) => (a, refused)
  | .connect _, a, (socket, _) => (socket, !a)
  | .close _, _, x | .sendOcrMsg _ _, _, x | .recvRplMsg _ _, _, x | .sendIoMsg _ _, _, x | .recvBufMsg _ _, _, x
  | .sendBufMsg _ _ _, _, x => x

/-- A process whose threads call the library. -/
structure State where
  table : Table
  threads : List Thread

inductive Move where
  | start (r : Request) (stack : Stack)
  /-- The thread at place `i` makes its next call. -/
  | call (i : Nat) (e : Luck)

def Thread.call (m : Messages) (e : Luck) (t : Table) (th : Thread) : Option (Thread × Table) :=
  match th.prog with
  | .ret _ => none
  | .call c next =>
    let (a, t) := serve m c e t
    let (socket, refused) := seen c a (th.socket, th.refused)
    some (⟨next a, socket, refused⟩, t)

def next (h : SockMsgH) (m : Messages) (s : State) : Move → Option State
  | .start r stack => some {s with threads := s.threads ++ [⟨r.program h stack, none, false⟩]}
  | .call i e => do
    let th ← s.threads[i]?
    let (th, table) ← th.call m e s.table
    return ⟨table, s.threads.set i th⟩

/-- An application, with its descriptors before its first call. -/
def application (h : SockMsgH) (m : Messages) (t₀ : Table) : Machine State Move where
  start := (· = ⟨t₀, []⟩)
  step := next h m

end CacheFs.Posix
