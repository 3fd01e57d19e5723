import CacheFs.Library.Transition
import CacheFs.Xml.ReplyRoundTrip

/-! The super node and its clients (`sn_main.c` and `sn_cli.c`).

A client encodes its message, sends it from a socket of its own and waits for the
reply. The super node receives a message, forks and receives the next; the child
decodes its copy, answers the address it came from and exits. `sig_chld` collects the
children that have exited, as many as there are for one signal. SCTP keeps messages
whole; messages of different sockets may pass each other, and any call of the system
may fail where the code looks for it. Each call has a socket, and an address, of its own. -/
namespace CacheFs.SuperNode
open Transition
open CacheFs.Xml

/-- A message on its way, with the socket it comes from or goes to. -/
structure Packet where
  addr : Nat
  bytes : List UInt8

/-- What a function finds in its variables before it sets them. -/
structure Stack where
  sockMsg : SockMsg
  rplMsg : RplMsg
  buf : Field xmlBufsz

/-! ### The client -/

/-- Where a call of `sctp_send_sock_recv_rpl` is. -/
inductive Stage where
  | start
  /-- In `sctp_recvmsg`. -/
  | waiting
  | returned (ret : UInt32)
  deriving DecidableEq

/-- A call of `sctp_send_sock_recv_rpl`. -/
structure Call where
  sockMsg : SockMsg
  rplMsg : RplMsg
  stage : Stage

/-- Whether `pipe`, the `read` or `write` of it and the SCTP call succeed, and what was printed and is
still in the buffer of the standard output. -/
structure Luck where
  pipe : Bool
  io : Bool
  sctp : Bool
  stdout : List UInt8
  deriving DecidableEq

/-- All succeed, and what was printed is out. -/
def Luck.good : Luck := ⟨true, true, true, []⟩

/-- `sctp_send_sock_recv_rpl` up to its `sctp_recvmsg`, with what it sends. -/
def Call.send (lib : Libxml2) (stack : Stack) (luck : Luck) (c : Call) : Option (Call × Option (List UInt8)) := do
  let (r, buf) ← sockMsgToBuf lib luck.stdout luck.pipe luck.io c.sockMsg stack.buf
  if r ≠ 0 then return ({c with stage := .returned 1}, none)
  let xml ← string buf.bytes
  if !luck.sctp then return ({c with stage := .returned 2}, none)
  return ({c with stage := .waiting}, some xml.bytes)

/-- The rest of it, with what `sctp_recvmsg` has put in the buffer. -/
def Call.recv (lib : Libxml2) (luck : Luck) (bytes : List UInt8) (c : Call) : Option Call := do
  let (r, rplMsg) ← bufToRplMsgParseFromFd lib luck.pipe luck.io c.rplMsg (readInto (bzero xmlBufsz) bytes)
  return {c with rplMsg, stage := .returned (if r ≠ 0 then 4 else 0)}

/-! ### The super node -/

/-- `do_sock_msg`. -/
def doSockMsg (_ : SockMsg) (rplMsg : RplMsg) : UInt32 × RplMsg := (0, {rplMsg with err := rplOk})

/-- How a child has exited: the message it has decoded, and what it has sent. -/
structure Outcome where
  decoded : Option SockMsg
  sent : Option (List UInt8)

/-- A child, with its copies of `cliaddr`, `buf` and `xml_msg_sz`; a size of -1 is none. -/
structure Child where
  cliaddr : Option Nat
  buf : Field xmlBufsz
  xmlMsgSz : Option Nat
  outcome : Option Outcome
  reaped : Bool

/-- Whether the calls of a child succeed: the pipe to decode from, and the one to encode to; and what
it has printed that is still in the buffer. -/
structure ChildLuck where
  decode : Bool × Bool
  encode : Bool × Bool
  sctp : Bool
  stdout : List UInt8
  deriving DecidableEq

/-- All succeed, and what it has printed is out. -/
def ChildLuck.good : ChildLuck := ⟨(true, true), (true, true), true, []⟩

/-- What a child does until it exits. -/
def Child.run (lib : Libxml2) (stack : Stack) (luck : ChildLuck) (ch : Child) : Option Outcome := do
  let (r, sockMsg) ← bufToSockMsgParseFromFd lib luck.decode.1 luck.decode.2 stack.sockMsg ch.buf
  if r ≠ 0 then return ⟨none, none⟩
  let (_, rplMsg) := doSockMsg sockMsg stack.rplMsg
  let (r, buf) := rplMsgToBuf lib luck.stdout luck.encode.1 luck.encode.2 rplMsg ch.buf
  if r ≠ 0 then return ⟨some sockMsg, none⟩
  let xml ← string buf.bytes
  return ⟨some sockMsg, if luck.sctp then some xml.bytes else none⟩

/-! ### Both at work -/

structure State where
  calls : List Call
  /-- The messages on their way to the super node. -/
  inbox : List Packet
  /-- `cliaddr` of `main`. -/
  cliaddr : Option Nat
  children : List Child
  /-- The replies on their way to the clients. -/
  replies : List Packet
  /-- `SIGCHLD` is to be delivered. -/
  pending : Bool
  /-- `main` is in `sig_chld`. -/
  handler : Bool

inductive Move where
  | send (i : Nat) (luck : Luck)
  /-- The call gets the reply at place `k`, if it is its own. -/
  | recv (i k : Nat) (luck : Luck)
  | recvFail (i : Nat)
  /-- `main` receives the message at place `k` and forks. -/
  | receive (k : Nat) (fork : Bool)
  /-- `sctp_recvmsg` fails, other than by an interrupt, and `main` forks all the same. -/
  | receiveFail (fork : Bool)
  | child (j : Nat) (luck : ChildLuck)
  | signal
  /-- `waitpid` gives the child at place `j`. -/
  | waitpid (j : Nat)
  /-- `waitpid` gives none, and `sig_chld` returns. -/
  | waitpidNone

/-- The child has exited and is not collected. -/
def Child.zombie (ch : Child) : Bool := ch.outcome.isSome && !ch.reaped

/-- `fork`, with what `main` has received. -/
def State.fork (s : State) (fork : Bool) (buf : Field xmlBufsz) (xmlMsgSz : Option Nat) : State :=
  if fork then {s with children := s.children ++ [⟨s.cliaddr, buf, xmlMsgSz, none, false⟩]} else s

def next (lib : Libxml2) (stack : Stack) (s : State) : Move → Option State
  | .send i luck => do
    let c ← s.calls[i]?
    if c.stage = .start then do
      let (c', sent) ← c.send lib stack luck
      some {s with calls := s.calls.set i c', inbox := s.inbox ++ (sent.map (Packet.mk i)).toList}
    else none
  | .recv i k luck => do
    let c ← s.calls[i]?
    let p ← s.replies[k]?
    if c.stage = .waiting ∧ p.addr = i then do
      let c' ← c.recv lib luck p.bytes
      some {s with calls := s.calls.set i c', replies := s.replies.eraseIdx k}
    else none
  | .recvFail i => do
    let c ← s.calls[i]?
    if c.stage = .waiting then some {s with calls := s.calls.set i {c with stage := .returned 3}} else none
  | .receive k fork => do
    let p ← s.inbox[k]?
    if s.handler then none
    else
      let s' := {s with inbox := s.inbox.eraseIdx k, cliaddr := some p.addr}
      some (s'.fork fork (readInto (bzero xmlBufsz) p.bytes) (some (min p.bytes.length xmlBufsz)))
  | .receiveFail fork =>
    if s.handler then none else some (s.fork fork (bzero xmlBufsz) none)
  | .child j luck => do
    let ch ← s.children[j]?
    if ch.outcome.isSome then none
    else do
      let o ← ch.run lib stack luck
      let s' := {s with children := s.children.set j {ch with outcome := some o}, pending := true}
      match o.sent with
      | none => some s'
      | some bytes => ch.cliaddr.map fun addr => {s' with replies := s.replies ++ [⟨addr, bytes⟩]}
  | .signal => if s.pending && !s.handler then some {s with pending := false, handler := true} else none
  | .waitpid j => do
    let ch ← s.children[j]?
    if s.handler && ch.zombie then some {s with children := s.children.set j {ch with reaped := true}} else none
  | .waitpidNone => if s.handler && !s.children.any Child.zombie then some {s with handler := false} else none

/-- The calls, none of them begun, and the super node before its first message. -/
def superNode (lib : Libxml2) (stack : Stack) : Machine State Move where
  start := fun s => (∀ c ∈ s.calls, c.stage = .start) ∧ s.inbox = [] ∧ s.cliaddr = none ∧ s.children = [] ∧
    s.replies = [] ∧ s.pending = false ∧ s.handler = false
  step := next lib stack

/-- The rule of runs in which nothing that was printed is still in the buffer of the standard output
when a message is encoded, as on a terminal. -/
def flushed : Rule State Move
  | _, .send _ luck => luck.stdout = []
  | _, .child _ luck => luck.stdout = []
  | _, .recv _ _ _ | _, .recvFail _ | _, .receive _ _ | _, .receiveFail _ | _, .signal | _, .waitpid _
  | _, .waitpidNone => True

instance (s : State) : ∀ mv, Decidable (flushed s mv)
  | .send _ _ | .child _ _ => inferInstanceAs (Decidable (_ = _))
  | .recv _ _ _ | .recvFail _ | .receive _ _ | .receiveFail _ | .signal | .waitpid _ | .waitpidNone => isTrue trivial

/-! ### What a move does -/

section Cases
variable {lib : Libxml2} {stack : Stack} {s s' : State}

theorem next_send {i : Nat} {luck : Luck} (h : next lib stack s (.send i luck) = some s') :
    ∃ c c' sent, s.calls[i]? = some c ∧ c.stage = .start ∧ c.send lib stack luck = some (c', sent) ∧
      s' = {s with calls := s.calls.set i c', inbox := s.inbox ++ (sent.map (Packet.mk i)).toList} := by
  simp only [next, Option.bind_eq_bind, Option.bind_eq_some_iff] at h
  obtain ⟨c, hc, h⟩ := h
  split at h
  · rename_i hstage
    obtain ⟨⟨c', sent⟩, hsend, hs⟩ := Option.bind_eq_some_iff.mp h
    exact ⟨c, c', sent, hc, hstage, hsend, (Option.some.inj hs).symm⟩
  · cases h

theorem next_recv {i k : Nat} {luck : Luck} (h : next lib stack s (.recv i k luck) = some s') :
    ∃ c p c', s.calls[i]? = some c ∧ s.replies[k]? = some p ∧ c.stage = .waiting ∧ p.addr = i ∧
      c.recv lib luck p.bytes = some c' ∧
      s' = {s with calls := s.calls.set i c', replies := s.replies.eraseIdx k} := by
  simp only [next, Option.bind_eq_bind, Option.bind_eq_some_iff] at h
  obtain ⟨c, hc, p, hp, h⟩ := h
  split at h
  · rename_i hready
    obtain ⟨c', hrecv, hs⟩ := Option.bind_eq_some_iff.mp h
    exact ⟨c, p, c', hc, hp, hready.1, hready.2, hrecv, (Option.some.inj hs).symm⟩
  · cases h

theorem next_recvFail {i : Nat} (h : next lib stack s (.recvFail i) = some s') :
    ∃ c, s.calls[i]? = some c ∧ c.stage = .waiting ∧
      s' = {s with calls := s.calls.set i {c with stage := .returned 3}} := by
  simp only [next, Option.bind_eq_bind, Option.bind_eq_some_iff] at h
  obtain ⟨c, hc, h⟩ := h
  split at h
  · exact ⟨c, hc, ‹_›, (Option.some.inj h).symm⟩
  · cases h

theorem next_receive {k : Nat} {fork : Bool} (h : next lib stack s (.receive k fork) = some s') :
    ∃ p, s.inbox[k]? = some p ∧ s.handler = false ∧
      s' = State.fork {s with inbox := s.inbox.eraseIdx k, cliaddr := some p.addr} fork
        (readInto (bzero xmlBufsz) p.bytes) (some (min p.bytes.length xmlBufsz)) := by
  simp only [next, Option.bind_eq_bind, Option.bind_eq_some_iff] at h
  obtain ⟨p, hp, h⟩ := h
  split at h
  · cases h
  · rename_i hidle
    exact ⟨p, hp, by simpa using hidle, (Option.some.inj h).symm⟩

theorem next_receiveFail {fork : Bool} (h : next lib stack s (.receiveFail fork) = some s') :
    s.handler = false ∧ s' = s.fork fork (bzero xmlBufsz) none := by
  simp only [next] at h
  split at h
  · cases h
  · rename_i hidle
    exact ⟨by simpa using hidle, (Option.some.inj h).symm⟩

/-- A child that runs to its exit sends to the address it has, or sends nothing. -/
theorem next_child {j : Nat} {luck : ChildLuck} (h : next lib stack s (.child j luck) = some s') :
    ∃ ch o, s.children[j]? = some ch ∧ ch.outcome = none ∧ ch.run lib stack luck = some o ∧
      ((o.sent = none ∧ s' = {s with children := s.children.set j {ch with outcome := some o}, pending := true}) ∨
       ∃ bytes addr, o.sent = some bytes ∧ ch.cliaddr = some addr ∧
        s' = {s with
          children := s.children.set j {ch with outcome := some o}
          pending := true
          replies := s.replies ++ [⟨addr, bytes⟩]}) := by
  simp only [next, Option.bind_eq_bind, Option.bind_eq_some_iff] at h
  obtain ⟨ch, hch, h⟩ := h
  split at h
  · cases h
  · rename_i hrunning
    obtain ⟨o, ho, h⟩ := Option.bind_eq_some_iff.mp h
    refine ⟨ch, o, hch, by simpa using hrunning, ho, ?_⟩
    cases hsent : o.sent with
    | none =>
      simp only [hsent] at h
      exact .inl ⟨rfl, (Option.some.inj h).symm⟩
    | some bytes =>
      simp only [hsent] at h
      obtain ⟨addr, haddr, hs⟩ := Option.map_eq_some_iff.mp h
      exact .inr ⟨bytes, addr, rfl, haddr, hs.symm⟩

theorem next_signal (h : next lib stack s .signal = some s') :
    s.pending = true ∧ s.handler = false ∧ s' = {s with pending := false, handler := true} := by
  simp only [next] at h
  split at h
  · rename_i hready
    simp only [Bool.and_eq_true, Bool.not_eq_true'] at hready
    exact ⟨hready.1, hready.2, (Option.some.inj h).symm⟩
  · cases h

theorem next_waitpid {j : Nat} (h : next lib stack s (.waitpid j) = some s') :
    ∃ ch, s.children[j]? = some ch ∧ s.handler = true ∧ ch.zombie = true ∧
      s' = {s with children := s.children.set j {ch with reaped := true}} := by
  simp only [next, Option.bind_eq_bind, Option.bind_eq_some_iff] at h
  obtain ⟨ch, hch, h⟩ := h
  split at h
  · rename_i hready
    simp only [Bool.and_eq_true] at hready
    exact ⟨ch, hch, hready.1, hready.2, (Option.some.inj h).symm⟩
  · cases h

theorem next_waitpidNone (h : next lib stack s .waitpidNone = some s') :
    s.handler = true ∧ (∀ ch ∈ s.children, ch.zombie = false) ∧ s' = {s with handler := false} := by
  simp only [next] at h
  split at h
  · rename_i hready
    simp only [Bool.and_eq_true, Bool.not_eq_true', List.any_eq_false, Bool.not_eq_true] at hready
    exact ⟨hready.1, hready.2, (Option.some.inj h).symm⟩
  · cases h

end Cases

end CacheFs.SuperNode
