import CacheFs.Library.Members
import CacheFs.SuperNode.Protocol

/-! Every message is answered once at most, and by the child that has decoded it.

What a call has sent is in one place at a time: on its way, or with one child. A
child knows the address its message came from, and one that was forked after an error
decodes nothing, so no reply goes astray. So a call that returns 0 has been told
`RPL_OK` by the only child that had its message, and that child has decoded what the
call was given (`answer_is_own`). -/
namespace CacheFs.SuperNode
open Transition Members
open CacheFs.Xml

/-! ### What is sent and decoded -/

/-- The bytes that a call sends for its message. -/
def Sends (lib : Libxml2) (stack : Stack) (msg : SockMsg) (bytes : List UInt8) : Prop :=
  ∃ buf, sockMsgToBuf lib [] true true msg stack.buf = some (0, buf) ∧
    (string buf.bytes).map CacheFs.Namespace.CString.bytes = some bytes

/-- An empty document is no message. -/
def EmptyRefused (lib : Libxml2) : Prop := ∀ root, lib.readFd [] = some (some root) → root.name ≠ xmlSockMsgRoot

section Functions
variable {lib : Libxml2} {stack : Stack}

/-- A message is encoded when the pipe and the read succeed, and just then. -/
theorem sockMsgToBuf_zero {pending : List UInt8} {pipe read : Bool} {msg : SockMsg} {buf buf' : Field xmlBufsz}
    {r : UInt32} (h : sockMsgToBuf lib pending pipe read msg buf = some (r, buf')) : r = 0 ↔ pipe = true ∧ read = true := by
  cases pipe
  · simp only [sockMsgToBuf, Bool.not_false, if_true, Option.some.injEq, Prod.mk.injEq] at h
    simp [← h.1]
  · simp only [sockMsgToBuf, Bool.not_true, Bool.false_eq_true, if_false, Option.bind_eq_bind,
      Option.bind_eq_some_iff] at h
    obtain ⟨_, _, h⟩ := h
    cases read
    · simp only [Bool.not_false, if_true, Option.pure_def, Option.some.injEq, Prod.mk.injEq] at h
      simp [← h.1]
    · simp only [Bool.not_true, Bool.false_eq_true, if_false, Option.pure_def, Option.some.injEq,
        Prod.mk.injEq] at h
      simp [← h.1]

theorem rplMsgToBuf_zero {pending : List UInt8} {p r : Bool} {rplMsg : RplMsg} {buf : Field xmlBufsz} :
    (rplMsgToBuf lib pending p r rplMsg buf).1 = 0 ↔ p = true ∧ r = true := by
  cases p <;> cases r <;> simp [rplMsgToBuf]

/-- A call sends its own message and waits, or a failure makes it return 1 or 2. -/
theorem Call.send_cases {luck : Luck} {c c' : Call} {sent : Option (List UInt8)}
    (hflushed : luck.stdout = []) (h : c.send lib stack luck = some (c', sent)) :
    (luck ≠ .good ∧ ∃ r, (r = 1 ∨ r = 2) ∧ c' = {c with stage := .returned r} ∧ sent = none) ∨
    ∃ bytes, Sends lib stack c.sockMsg bytes ∧ c' = {c with stage := .waiting} ∧ sent = some bytes := by
  obtain ⟨pipe, io, sctp, stdout⟩ := luck
  obtain rfl : stdout = [] := hflushed
  simp only [Call.send, Option.bind_eq_bind, Option.bind_eq_some_iff] at h
  obtain ⟨⟨r, buf⟩, hbuf, h⟩ := h
  have hzero := sockMsgToBuf_zero hbuf
  split at h
  · rename_i hr
    simp only [Option.pure_def, Option.some.injEq, Prod.mk.injEq] at h
    refine .inl ⟨fun hluck => ?_, 1, .inl rfl, h.1.symm, h.2.symm⟩
    cases hluck
    exact hr (hzero.mpr ⟨rfl, rfl⟩)
  · rename_i hr
    obtain ⟨xml, hxml, hsent⟩ := Option.bind_eq_some_iff.mp h
    cases sctp
    · simp only [Bool.not_false, if_true, Option.pure_def, Option.some.injEq, Prod.mk.injEq] at hsent
      exact .inl ⟨by simp [Luck.good], 2, .inr rfl, hsent.1.symm, hsent.2.symm⟩
    · simp only [Bool.not_true, Bool.false_eq_true, if_false, Option.pure_def, Option.some.injEq,
        Prod.mk.injEq] at hsent
      simp only [ne_eq, Decidable.not_not] at hr
      obtain ⟨rfl, rfl⟩ := hzero.mp hr
      simp only at hr hxml
      subst hr
      exact .inr ⟨xml.bytes, ⟨buf, hbuf, by rw [hxml]; rfl⟩, hsent.1.symm, hsent.2.symm⟩

/-- The reply of every child: `RPL_OK`. -/
def okXml (lib : Libxml2) : List UInt8 := rplMsgToXml lib ⟨rplOk⟩

theorem okLetter : Letter rplOk ∧ rplOk ≠ 38 := by decide

/-- It fits a buffer. -/
theorem string_okXml (hlib : lib.Documented) : ∃ s, string (readInto (bzero xmlBufsz) (okXml lib)).bytes = some s ∧
    s.bytes = okXml lib := by
  obtain ⟨buf, hbuf, hstring, _⟩ := replyRoundTrip hlib okLetter.1 okLetter.2 (bzero xmlBufsz) ⟨0⟩
  have heq : readInto (bzero xmlBufsz) (okXml lib) = buf := congrArg Prod.snd hbuf
  rw [heq]
  exact Option.map_eq_some_iff.mp hstring

/-- The client makes `RPL_OK` of it. -/
theorem reply_decoded (hlib : lib.Documented) (old : RplMsg) :
    bufToRplMsgParseFromFd lib true true old (readInto (bzero xmlBufsz) (okXml lib)) = some (0, ⟨rplOk⟩) := by
  obtain ⟨buf, hbuf, _, hdecode⟩ := replyRoundTrip hlib okLetter.1 okLetter.2 (bzero xmlBufsz) old
  have heq : readInto (bzero xmlBufsz) (okXml lib) = buf := congrArg Prod.snd hbuf
  rw [heq]
  exact hdecode

/-- A call that gets the reply returns 4 after a failure, and else 0 with `RPL_OK`. -/
theorem Call.recv_cases (hlib : lib.Documented) {luck : Luck} {c c' : Call}
    (h : c.recv lib luck (okXml lib) = some c') :
    c'.sockMsg = c.sockMsg ∧ ((c'.stage = .returned 0 ∧ c'.rplMsg.err = rplOk) ∨
      c'.stage = .returned 4 ∧ ¬ (luck.pipe = true ∧ luck.io = true)) := by
  obtain ⟨pipe, io, sctp, stdout⟩ := luck
  simp only [Call.recv, Option.bind_eq_bind, Option.bind_eq_some_iff] at h
  obtain ⟨⟨r, rplMsg⟩, hr, h⟩ := h
  cases pipe
  · simp only [bufToRplMsgParseFromFd, Bool.not_false, if_true, Option.some.injEq, Prod.mk.injEq] at hr
    simp only [← hr.1, Option.pure_def, Option.some.injEq] at h
    subst h
    simp
  cases io
  · obtain ⟨s, hs, _⟩ := string_okXml hlib
    simp only [bufToRplMsgParseFromFd, hs, Bool.not_true, Bool.false_eq_true, if_false, Bool.not_false, if_true,
      Option.bind_eq_bind, Option.bind_some, Option.pure_def, Option.some.injEq, Prod.mk.injEq] at hr
    simp only [← hr.1, Option.pure_def, Option.some.injEq] at h
    subst h
    simp
  · rw [reply_decoded hlib] at hr
    simp only [Option.some.injEq, Prod.mk.injEq] at hr
    simp only [← hr.1, ← hr.2, Option.pure_def, Option.some.injEq] at h
    subst h
    simp

/-- The child makes this message of its buffer. -/
def Decodes (lib : Libxml2) (stack : Stack) (buf : Field xmlBufsz) (msg : SockMsg) : Prop :=
  bufToSockMsgParseFromFd lib true true stack.sockMsg buf = some (0, msg)

/-- A decoder that returns 0 has had its pipe and its write. -/
theorem decodes_of_zero {pipe write : Bool} {buf : Field xmlBufsz} {msg : SockMsg}
    (h : bufToSockMsgParseFromFd lib pipe write stack.sockMsg buf = some (0, msg)) : Decodes lib stack buf msg := by
  cases pipe
  · simp [bufToSockMsgParseFromFd] at h
  · cases write
    · simp only [bufToSockMsgParseFromFd, Bool.not_true, Bool.false_eq_true, if_false, Bool.not_false, if_true,
        Option.bind_eq_bind, Option.bind_eq_some_iff] at h
      obtain ⟨_, _, h⟩ := h
      simp at h
    · exact h

/-- A child sends `RPL_OK`, or nothing after a failure, once it has decoded its message;
else it exits at once. -/
theorem Child.run_cases (hlib : lib.Documented) {luck : ChildLuck} {ch : Child} {o : Outcome}
    (hflushed : luck.stdout = []) (h : ch.run lib stack luck = some o) :
    (o = ⟨none, none⟩ ∧ (luck = .good → ∀ msg, ¬ Decodes lib stack ch.buf msg)) ∨
    ∃ msg, Decodes lib stack ch.buf msg ∧ o.decoded = some msg ∧
      (o.sent = some (okXml lib) ∨ o.sent = none ∧ luck ≠ .good) := by
  obtain ⟨⟨pipe, write⟩, ⟨pipe', read⟩, sctp, stdout⟩ := luck
  obtain rfl : stdout = [] := hflushed
  simp only [Child.run, Option.bind_eq_bind, Option.bind_eq_some_iff] at h
  obtain ⟨⟨r, sockMsg⟩, hdecode, h⟩ := h
  simp only at hdecode h
  split at h
  · rename_i hr
    refine .inl ⟨(Option.some.inj h).symm, fun hluck msg hmsg => ?_⟩
    cases hluck
    rw [Decodes, hdecode] at hmsg
    cases hmsg
    exact hr rfl
  · rename_i hr
    simp only [ne_eq, Decidable.not_not] at hr
    subst hr
    refine .inr ⟨sockMsg, decodes_of_zero hdecode, ?_⟩
    have hzero : (rplMsgToBuf lib [] pipe' read (doSockMsg sockMsg stack.rplMsg).2 ch.buf).1 = 0 ↔ _ :=
      rplMsgToBuf_zero
    split at h
    · rename_i hencode
      refine ⟨by simp [← Option.some.inj h], .inr ⟨by simp [← Option.some.inj h], fun hluck => ?_⟩⟩
      cases hluck
      exact hencode (hzero.mpr ⟨rfl, rfl⟩)
    · rename_i hencode
      obtain ⟨rfl, rfl⟩ := hzero.mp (by simpa using hencode)
      obtain ⟨s, hs, hbytes⟩ := string_okXml hlib
      rw [okXml] at hs
      simp only [rplMsgToBuf, Bool.not_true, Bool.false_eq_true, if_false, doSockMsg, List.nil_append, hs,
        Option.bind_some, hbytes] at h
      cases sctp <;> simp [← Option.some.inj h, ChildLuck.good]

/-- A child whose message is decoded runs to its exit. -/
theorem Child.run_good (hlib : lib.Documented) {ch : Child} {msg : SockMsg}
    (h : Decodes lib stack ch.buf msg) : ch.run lib stack .good = some ⟨some msg, some (okXml lib)⟩ := by
  obtain ⟨s, hs, hbytes⟩ := string_okXml hlib
  rw [okXml] at hs
  rw [Decodes] at h
  simp [Child.run, ChildLuck.good, h, rplMsgToBuf, doSockMsg, hs, hbytes]

/-- A child that was forked after an error decodes nothing. -/
theorem not_decodes_zero (hempty : EmptyRefused lib) {msg : SockMsg} :
    ¬ Decodes lib stack (bzero xmlBufsz) msg := by
  intro h
  have hstring : (string (bzero xmlBufsz).bytes).map CacheFs.Namespace.CString.bytes = some [] := by
    have hread : string (readInto (bzero xmlBufsz) []).bytes = some ⟨[], List.not_mem_nil⟩ :=
      string_readInto List.not_mem_nil (by decide)
    have hsame : readInto (bzero xmlBufsz) [] = bzero xmlBufsz := by simp [readInto, bzero]
    rw [hsame] at hread
    rw [hread]
    rfl
  obtain ⟨s, hs, hbytes⟩ := Option.map_eq_some_iff.mp hstring
  have hfour : ∃ m, parseDoc (lib.readFd []) stack.sockMsg = some (4, m) := by
    have hnone : (0 : UInt8) ≠ sockmsgParseOk := by decide
    cases hdoc : lib.readFd [] with
    | none => exact ⟨stack.sockMsg, rfl⟩
    | some doc =>
      cases doc with
      | none => exact ⟨stack.sockMsg, rfl⟩
      | some root => exact ⟨stack.sockMsg, by simp [parseDoc, hempty root hdoc, hnone]⟩
  obtain ⟨m, hm⟩ := hfour
  simp [Decodes, bufToSockMsgParseFromFd, hs, hbytes, xmlToSockMsgParseFromFd, hm] at h

end Functions

/-! ### Where messages and replies are -/

/-- The call has sent its message. -/
def Call.sent (c : Call) : Bool :=
  match c.stage with
  | .start => false
  | .waiting => true
  | .returned ret => ret == 0 || ret == 3 || ret == 4

/-- The call has got its reply. -/
def Call.answered (c : Call) : Bool :=
  match c.stage with
  | .returned ret => ret == 0 || ret == 4
  | _ => false

/-- The packet comes from the socket of call `i`, or goes there. -/
def Packet.of (i : Nat) (p : Packet) : Bool := p.addr == i

/-- The child has the message of call `i`. -/
def Child.has (i : Nat) (ch : Child) : Bool := ch.cliaddr == some i && ch.xmlMsgSz.isSome

/-- The child has sent a reply to call `i`. -/
def Child.answers (i : Nat) (ch : Child) : Bool := ch.has i && ch.outcome.any (·.sent.isSome)

/-- How many messages call `i` has sent, and how many replies it has got. -/
def sentBy (s : State) (i : Nat) : Nat := ((s.calls[i]?).any Call.sent).toNat
def answersTo (s : State) (i : Nat) : Nat := ((s.calls[i]?).any Call.answered).toNat

/-- What a child that has exited has done with its message. -/
def Child.Exited (lib : Libxml2) (stack : Stack) (ch : Child) (o : Outcome) : Prop :=
  o = ⟨none, none⟩ ∨ ∃ msg, Decodes lib stack ch.buf msg ∧ o.decoded = some msg

structure Inv (lib : Libxml2) (stack : Stack) (s : State) : Prop where
  /-- What was sent is on its way or with one child, if it is not lost. -/
  places : ∀ i, s.inbox.countP (Packet.of i) + s.children.countP (Child.has i) ≤ sentBy s i
  /-- A child sends one reply. -/
  replies : ∀ i, s.replies.countP (Packet.of i) + answersTo s i ≤ s.children.countP (Child.answers i)
  inbox : ∀ p ∈ s.inbox, ∃ c, s.calls[p.addr]? = some c ∧ Sends lib stack c.sockMsg p.bytes
  children : ∀ ch ∈ s.children, ∀ i, ch.has i = true → ∃ c bytes, s.calls[i]? = some c ∧
    Sends lib stack c.sockMsg bytes ∧ ch.buf = readInto (bzero xmlBufsz) bytes
  /-- A child without a message has the empty buffer. -/
  empty : ∀ ch ∈ s.children, ch.xmlMsgSz = none → ch.buf = bzero xmlBufsz
  outcomes : ∀ ch ∈ s.children, ∀ o, ch.outcome = some o → ch.Exited lib stack o
  contents : ∀ p ∈ s.replies, p.bytes = okXml lib
  told : ∀ c ∈ s.calls, c.stage = .returned 0 → c.rplMsg.err = rplOk

section Step
variable {lib : Libxml2} {stack : Stack} {s : State}

/-- A call whose stage changes keeps its message. -/
theorem exists_call_set {calls : List Call} {i a : Nat} {c c' d : Call} (hc : calls[i]? = some c)
    (hmsg : c'.sockMsg = c.sockMsg) (hd : calls[a]? = some d) :
    ∃ d', (calls.set i c')[a]? = some d' ∧ d'.sockMsg = d.sockMsg := by
  by_cases hia : i = a
  · subst hia
    rw [hc] at hd
    cases hd
    exact ⟨c', getElem?_set_same hc c', hmsg⟩
  · exact ⟨d, by rw [List.getElem?_set_ne hia, hd], rfl⟩

theorem any_set {calls : List Call} {i : Nat} {c : Call} (hc : calls[i]? = some c) (c' : Call) (g : Call → Bool)
    (a : Nat) : ((calls.set i c')[a]?).any g = if a = i then g c' else (calls[a]?).any g := by
  split
  · rename_i hai
    subst hai
    rw [getElem?_set_same hc c', Option.any_some]
  · rename_i hai
    rw [List.getElem?_set_ne (Ne.symm hai)]

/-- A move that changes the stage of one call, and what it sends and what it gets. -/
theorem Inv.call (h : Inv lib stack s) {i : Nat} {c : Call} (hc : s.calls[i]? = some c) (c' : Call)
    (hmsg : c'.sockMsg = c.sockMsg) {inbox replies : List Packet}
    (hplaces : ∀ a, inbox.countP (Packet.of a) + s.children.countP (Child.has a) ≤
      (if a = i then c'.sent else (s.calls[a]?).any Call.sent).toNat)
    (hreplies : ∀ a, replies.countP (Packet.of a) + (if a = i then c'.answered else (s.calls[a]?).any Call.answered).toNat ≤
      s.children.countP (Child.answers a))
    (hinbox : ∀ p ∈ inbox, p ∈ s.inbox ∨ p.addr = i ∧ Sends lib stack c.sockMsg p.bytes)
    (hcontents : ∀ p ∈ replies, p ∈ s.replies) (htold : c'.stage = .returned 0 → c'.rplMsg.err = rplOk) :
    Inv lib stack {s with calls := s.calls.set i c', inbox := inbox, replies := replies} where
  places := fun a => by
    simp only [sentBy, any_set hc]
    exact hplaces a
  replies := fun a => by
    simp only [answersTo, any_set hc]
    exact hreplies a
  inbox := fun p hp => by
    obtain hp | ⟨rfl, hsends⟩ := hinbox p hp
    · obtain ⟨d, hd, hsends⟩ := h.inbox p hp
      obtain ⟨d', hd', hsame⟩ := exists_call_set hc hmsg hd
      exact ⟨d', hd', hsame ▸ hsends⟩
    · exact ⟨c', getElem?_set_same hc c', hmsg ▸ hsends⟩
  children := fun ch hch a ha => by
    obtain ⟨d, bytes, hd, hsends, hbuf⟩ := h.children ch hch a ha
    obtain ⟨d', hd', hsame⟩ := exists_call_set hc hmsg hd
    exact ⟨d', bytes, hd', hsame ▸ hsends, hbuf⟩
  empty := h.empty
  outcomes := h.outcomes
  contents := fun p hp => h.contents p (hcontents p hp)
  told := fun d hd hret => by
    obtain hd | rfl := List.mem_or_eq_of_mem_set hd
    · exact h.told d hd hret
    · exact htold hret

theorem Inv.send (h : Inv lib stack s) {i : Nat} {luck : Luck} {c c' : Call} {sent : Option (List UInt8)}
    (hc : s.calls[i]? = some c) (hstart : c.stage = .start) (hflushed : luck.stdout = [])
    (hsend : c.send lib stack luck = some (c', sent)) :
    Inv lib stack {s with calls := s.calls.set i c', inbox := s.inbox ++ (sent.map (Packet.mk i)).toList} := by
  have hquiet : c.sent = false ∧ c.answered = false := by simp [Call.sent, Call.answered, hstart]
  have hplaces := h.places
  have hreplies := h.replies
  simp only [sentBy, answersTo] at hplaces hreplies
  obtain ⟨_, r, hr, rfl, rfl⟩ | ⟨bytes, hsends, rfl, rfl⟩ := Call.send_cases hflushed hsend
  · have hstill : Call.sent {c with stage := .returned r} = false ∧
        Call.answered {c with stage := .returned r} = false := by
      obtain rfl | rfl := hr <;> simp [Call.sent, Call.answered]
    have hret : r ≠ 0 := by
      obtain rfl | rfl := hr <;> decide
    refine h.call hc {c with stage := .returned r} rfl (fun a => ?_) (fun a => ?_) (fun p hp => .inl (by simpa using hp)) (fun _ hp => hp)
      (fun hzero => absurd (by simpa using hzero) hret)
    · have := hplaces a
      split
      · rename_i hai
        subst hai
        simpa [hc, hquiet, hstill] using this
      · simpa using this
    · have := hreplies a
      split
      · rename_i hai
        subst hai
        simpa [hc, hquiet, hstill] using this
      · exact this
  · refine h.call hc {c with stage := .waiting} rfl (fun a => ?_) (fun a => ?_) (fun p hp => ?_) (fun _ hp => hp)
      (fun hzero => by cases hzero)
    · have := hplaces a
      simp only [Option.map_some, Option.toList_some, countP_append_one, Packet.of]
      split
      · rename_i hai
        subst hai
        simp only [hc, Option.any_some, hquiet.1, Bool.toNat_false] at this
        simp only [Call.sent, beq_self_eq_true, Bool.toNat_true]
        omega
      · rename_i hai
        have hne : (i == a) = false := by simpa using Ne.symm hai
        simp only [hne, Bool.toNat_false]
        exact this
    · have := hreplies a
      split
      · rename_i hai
        subst hai
        simp only [hc, Option.any_some, hquiet.2] at this
        simpa [Call.answered] using this
      · exact this
    · obtain hp | hp := List.mem_append.mp hp
      · exact .inl hp
      · simp only [Option.map_some, Option.toList_some, List.mem_singleton] at hp
        subst hp
        exact .inr ⟨rfl, hsends⟩

theorem Inv.recv (hlib : lib.Documented) (h : Inv lib stack s) {i k : Nat} {luck : Luck} {c c' : Call} {p : Packet}
    (hc : s.calls[i]? = some c) (hp : s.replies[k]? = some p) (hwait : c.stage = .waiting) (haddr : p.addr = i)
    (hrecv : c.recv lib luck p.bytes = some c') :
    Inv lib stack {s with calls := s.calls.set i c', replies := s.replies.eraseIdx k} := by
  rw [h.contents p (List.mem_of_getElem? hp)] at hrecv
  obtain ⟨hmsg, hret⟩ := Call.recv_cases hlib hrecv
  have hbefore : c.sent = true ∧ c.answered = false := by simp [Call.sent, Call.answered, hwait]
  have hafter : c'.sent = true ∧ c'.answered = true := by
    obtain ⟨hs, _⟩ | ⟨hs, _⟩ := hret <;> simp [Call.sent, Call.answered, hs]
  have hplaces := h.places
  have hreplies := h.replies
  simp only [sentBy, answersTo] at hplaces hreplies
  refine h.call hc c' hmsg (fun a => ?_) (fun a => ?_) (fun q (hq : q ∈ s.inbox) => .inl hq)
    (fun _ hq => List.mem_of_mem_eraseIdx hq) (fun hzero => ?_)
  · have := hplaces a
    split
    · rename_i hai
      subst hai
      simpa [hc, hbefore, hafter] using this
    · exact this
  · have := hreplies a
    have herase := countP_eraseIdx_add (Packet.of a) hp
    split
    · rename_i hai
      subst hai
      simp only [hc, Option.any_some, hbefore.2, Bool.toNat_false] at this
      simp only [Packet.of, haddr, beq_self_eq_true, Bool.toNat_true] at herase
      simp only [hafter.2, Bool.toNat_true]
      omega
    · omega
  · obtain ⟨_, hok⟩ | ⟨hs, _⟩ := hret
    · exact hok
    · rw [hs] at hzero
      exact absurd hzero (by decide)

theorem Inv.recvFail (h : Inv lib stack s) {i : Nat} {c : Call} (hc : s.calls[i]? = some c)
    (hwait : c.stage = .waiting) :
    Inv lib stack {s with calls := s.calls.set i {c with stage := .returned 3}} := by
  have hbefore : c.sent = true ∧ c.answered = false := by simp [Call.sent, Call.answered, hwait]
  have hafter : Call.sent {c with stage := .returned 3} = true ∧
      Call.answered {c with stage := .returned 3} = false := by simp [Call.sent, Call.answered]
  refine h.call hc {c with stage := .returned 3} rfl (fun a => ?_) (fun a => ?_)
    (fun p (hp : p ∈ s.inbox) => .inl hp) (fun p (hp : p ∈ s.replies) => hp) (fun hzero => absurd hzero (by simp))
  · have := h.places a
    simp only [sentBy] at this
    split
    · rename_i hai
      subst hai
      simpa [hc, hbefore, hafter] using this
    · exact this
  · have := h.replies a
    simp only [answersTo] at this
    split
    · rename_i hai
      subst hai
      simpa [hc, hbefore, hafter] using this
    · exact this

/-- The main process takes a message and gives it to a child, or loses it. -/
theorem Inv.receive (h : Inv lib stack s) {k : Nat} {p : Packet} (hp : s.inbox[k]? = some p) (fork : Bool) :
    Inv lib stack (State.fork {s with inbox := s.inbox.eraseIdx k, cliaddr := some p.addr} fork
      (readInto (bzero xmlBufsz) p.bytes) (some (min p.bytes.length xmlBufsz))) := by
  have hcount (i : Nat) := countP_eraseIdx_add (Packet.of i) hp
  cases fork with
  | false =>
    refine ⟨fun i => ?_, h.replies, fun q hq => h.inbox q (List.mem_of_mem_eraseIdx hq), h.children, h.empty,
      h.outcomes, h.contents, h.told⟩
    have := h.places i
    have := hcount i
    show (s.inbox.eraseIdx k).countP _ + s.children.countP _ ≤ sentBy s i
    omega
  | true =>
    have hnew (i : Nat) : Child.has i ⟨some p.addr, readInto (bzero xmlBufsz) p.bytes,
        some (min p.bytes.length xmlBufsz), none, false⟩ = Packet.of i p := by
      simp [Child.has, Packet.of]
    refine ⟨fun i => ?_, fun i => ?_, fun q hq => h.inbox q (List.mem_of_mem_eraseIdx hq), fun ch hch i hi => ?_,
      fun ch hch hnone => ?_, fun ch hch o ho => ?_, h.contents, h.told⟩
    · have := h.places i
      have := hcount i
      show (s.inbox.eraseIdx k).countP _ + (s.children ++ [_]).countP _ ≤ sentBy s i
      rw [countP_append_one, hnew]
      omega
    · have := h.replies i
      show s.replies.countP _ + answersTo s i ≤ (s.children ++ [_]).countP _
      rw [countP_append_one]
      omega
    · obtain hch | hch := List.mem_append.mp hch
      · exact h.children ch hch i hi
      · rw [List.mem_singleton.mp hch] at hi ⊢
        rw [hnew] at hi
        obtain ⟨c, hc, hsends⟩ := h.inbox p (List.mem_of_getElem? hp)
        simp only [Packet.of, beq_iff_eq] at hi
        exact ⟨c, p.bytes, hi ▸ hc, hsends, rfl⟩
    · obtain hch | hch := List.mem_append.mp hch
      · exact h.empty ch hch hnone
      · rw [List.mem_singleton.mp hch] at hnone
        cases hnone
    · obtain hch | hch := List.mem_append.mp hch
      · exact h.outcomes ch hch o ho
      · rw [List.mem_singleton.mp hch] at ho
        cases ho

/-- After an error the child that is forked has no message. -/
theorem Inv.receiveFail (h : Inv lib stack s) (fork : Bool) :
    Inv lib stack (s.fork fork (bzero xmlBufsz) none) := by
  cases fork with
  | false => exact h
  | true =>
    refine ⟨fun i => ?_, fun i => ?_, h.inbox, fun ch hch i hi => ?_, fun ch hch hnone => ?_, fun ch hch o ho => ?_,
      h.contents, h.told⟩
    · have := h.places i
      show s.inbox.countP _ + (s.children ++ [_]).countP _ ≤ sentBy s i
      rw [countP_append_one]
      simpa [Child.has] using this
    · have := h.replies i
      show s.replies.countP _ + answersTo s i ≤ (s.children ++ [_]).countP _
      rw [countP_append_one]
      omega
    · obtain hch | hch := List.mem_append.mp hch
      · exact h.children ch hch i hi
      · rw [List.mem_singleton.mp hch] at hi
        simp [Child.has] at hi
    · obtain hch | hch := List.mem_append.mp hch
      · exact h.empty ch hch hnone
      · rw [List.mem_singleton.mp hch]
    · obtain hch | hch := List.mem_append.mp hch
      · exact h.outcomes ch hch o ho
      · rw [List.mem_singleton.mp hch] at ho
        cases ho

/-- A child changes, and what it has and where it came from do not. -/
theorem Inv.child_set (h : Inv lib stack s) {j : Nat} {ch : Child} (hch : s.children[j]? = some ch) (ch' : Child)
    (haddr : ch'.cliaddr = ch.cliaddr) (hsz : ch'.xmlMsgSz = ch.xmlMsgSz) (hbuf : ch'.buf = ch.buf)
    (hexited : ∀ o, ch'.outcome = some o → ch'.Exited lib stack o) {replies : List Packet}
    (hreplies : ∀ i, replies.countP (Packet.of i) + answersTo s i ≤
      (s.children.set j ch').countP (Child.answers i))
    (hcontents : ∀ p ∈ replies, p.bytes = okXml lib) (pending : Bool) :
    Inv lib stack {s with children := s.children.set j ch', replies := replies, pending := pending} := by
  have hhas (i : Nat) : ch'.has i = ch.has i := by simp [Child.has, haddr, hsz]
  have hmem := List.mem_of_getElem? hch
  refine ⟨fun i => ?_, hreplies, h.inbox, fun x hx i hi => ?_, fun x hx hnone => ?_, fun x hx o ho => ?_, hcontents,
    h.told⟩
  · have := h.places i
    show s.inbox.countP _ + (s.children.set j ch').countP _ ≤ sentBy s i
    rw [countP_set_same (Child.has i) hch (hhas i)]
    exact this
  · obtain hx | rfl := List.mem_or_eq_of_mem_set hx
    · exact h.children x hx i hi
    · rw [hhas] at hi
      rw [hbuf]
      exact h.children ch hmem i hi
  · obtain hx | rfl := List.mem_or_eq_of_mem_set hx
    · exact h.empty x hx hnone
    · rw [hbuf]
      exact h.empty ch hmem (hsz ▸ hnone)
  · obtain hx | rfl := List.mem_or_eq_of_mem_set hx
    · exact h.outcomes x hx o ho
    · exact hexited o ho

/-- A child that runs to its exit answers the call whose message it has, or none. -/
theorem Inv.child (hlib : lib.Documented) (hempty : EmptyRefused lib) (h : Inv lib stack s) {j : Nat}
    {luck : ChildLuck} {ch : Child} {o : Outcome} (hch : s.children[j]? = some ch) (hrunning : ch.outcome = none)
    (hflushed : luck.stdout = []) (ho : ch.run lib stack luck = some o) :
    (o.sent = none → Inv lib stack {s with children := s.children.set j {ch with outcome := some o}, pending := true}) ∧
    ∀ bytes addr, o.sent = some bytes → ch.cliaddr = some addr → Inv lib stack {s with
      children := s.children.set j {ch with outcome := some o}
      pending := true
      replies := s.replies ++ [⟨addr, bytes⟩]} := by
  have hcases := Child.run_cases hlib hflushed ho
  have hexited : Child.Exited lib stack {ch with outcome := some o} o := by
    obtain ⟨rfl, _⟩ | ⟨msg, hmsg, hdecoded, _⟩ := hcases
    · exact .inl rfl
    · exact .inr ⟨msg, hmsg, hdecoded⟩
  have hstays : ∀ o', Child.outcome {ch with outcome := some o} = some o' →
      Child.Exited lib stack {ch with outcome := some o} o' := by
    intro o' ho'
    cases ho'
    exact hexited
  have hcount (i : Nat) := countP_set_add (Child.answers i) hch {ch with outcome := some o}
  have hbefore (i : Nat) : ch.answers i = false := by simp [Child.answers, hrunning]
  refine ⟨fun hnone => ?_, fun bytes addr hsome haddr => ?_⟩
  · refine h.child_set hch {ch with outcome := some o} rfl rfl rfl hstays (fun i => ?_) h.contents true
    have := h.replies i
    have := hcount i
    rw [hbefore, Bool.toNat_false] at this
    omega
  · obtain ⟨rfl, _⟩ | ⟨msg, hmsg, _, hsent | ⟨hsent, _⟩⟩ := hcases
    · cases hsome
    · rw [hsent, Option.some.injEq] at hsome
      -- a child that decodes something has a message
      have hsize : ch.xmlMsgSz.isSome = true := by
        by_contra hnone
        rw [h.empty ch (List.mem_of_getElem? hch) (by simpa using hnone)] at hmsg
        exact not_decodes_zero hempty hmsg
      have hafter (i : Nat) : Child.answers i {ch with outcome := some o} = (addr == i) := by
        simp [Child.answers, Child.has, haddr, hsize, hsent]
      refine h.child_set hch {ch with outcome := some o} rfl rfl rfl hstays (fun i => ?_) (fun p hp => ?_) true
      · have := h.replies i
        have := hcount i
        rw [hbefore, hafter, Bool.toNat_false] at this
        have hnew : Packet.of i ⟨addr, bytes⟩ = (addr == i) := rfl
        rw [countP_append_one, hnew]
        omega
      · obtain hp | hp := List.mem_append.mp hp
        · exact h.contents p hp
        · rw [List.mem_singleton.mp hp, ← hsome]
    · rw [hsent] at hsome
      cases hsome

theorem Inv.preserved (hlib : lib.Documented) (hempty : EmptyRefused lib) (h : Inv lib stack s) {mv : Move} {s' : State}
    (hflushed : flushed s mv) (hnext : next lib stack s mv = some s') : Inv lib stack s' := by
  cases mv with
  | send i luck =>
    obtain ⟨c, c', sent, hc, hstart, hsend, rfl⟩ := next_send hnext
    exact h.send hc hstart hflushed hsend
  | recv i k luck =>
    obtain ⟨c, p, c', hc, hp, hwait, haddr, hrecv, rfl⟩ := next_recv hnext
    exact h.recv hlib hc hp hwait haddr hrecv
  | recvFail i =>
    obtain ⟨c, hc, hwait, rfl⟩ := next_recvFail hnext
    exact h.recvFail hc hwait
  | receive k fork =>
    obtain ⟨p, hp, _, rfl⟩ := next_receive hnext
    exact h.receive hp fork
  | receiveFail fork =>
    obtain ⟨_, rfl⟩ := next_receiveFail hnext
    exact h.receiveFail fork
  | child j luck =>
    obtain ⟨ch, o, hch, hrunning, ho, ⟨hsent, rfl⟩ | ⟨bytes, addr, hsent, haddr, rfl⟩⟩ := next_child hnext
    · exact (h.child hlib hempty hch hrunning hflushed ho).1 hsent
    · exact (h.child hlib hempty hch hrunning hflushed ho).2 bytes addr hsent haddr
  | signal =>
    obtain ⟨_, _, rfl⟩ := next_signal hnext
    exact ⟨h.places, h.replies, h.inbox, h.children, h.empty, h.outcomes, h.contents, h.told⟩
  | waitpid j =>
    obtain ⟨ch, hch, _, _, rfl⟩ := next_waitpid hnext
    refine h.child_set hch {ch with reaped := true} rfl rfl rfl (fun o ho => h.outcomes ch (List.mem_of_getElem? hch) o ho)
      (fun i => ?_) h.contents s.pending
    rw [countP_set_same (Child.answers i) hch (by rfl)]
    exact h.replies i
  | waitpidNone =>
    obtain ⟨_, _, rfl⟩ := next_waitpidNone hnext
    exact ⟨h.places, h.replies, h.inbox, h.children, h.empty, h.outcomes, h.contents, h.told⟩

end Step

theorem inv {lib : Libxml2} {stack : Stack} (hlib : lib.Documented) (hempty : EmptyRefused lib) {s : State}
    (h : Reach (superNode lib stack) flushed s) : Inv lib stack s := by
  refine h.invariant ?_ fun s mv s' hinv hflushed hnext => hinv.preserved hlib hempty hflushed hnext
  intro s h
  obtain ⟨hstart, hinbox, _, hchildren, hreplies, _, _⟩ := h
  have hnone (i : Nat) : answersTo s i = 0 := by
    rw [answersTo]
    cases hc : s.calls[i]? with
    | none => rfl
    | some c => simp [Call.answered, hstart c (List.mem_of_getElem? hc)]
  refine ⟨fun i => by simp [hinbox, hchildren], fun i => by simp [hreplies, hchildren, hnone], by simp [hinbox],
    by simp [hchildren], by simp [hchildren], by simp [hchildren], by simp [hreplies], fun c hc hret => ?_⟩
  rw [hstart c hc] at hret
  cases hret

/-! ### What a call is told -/

/-- What a message sends is what the child has, and the decoder makes the same message of it
when it comes back at all. -/
theorem decodes_of_roundTrip {lib : Libxml2} {stack : Stack} {msg : SockMsg} {bytes : List UInt8}
    (htrip : RoundTrip lib [] msg) (hsends : Sends lib stack msg bytes) :
    ∃ msg', Decodes lib stack (readInto (bzero xmlBufsz) bytes) msg' ∧ ∀ t, msg'.value t = msg.value t := by
  obtain ⟨buf, hbuf, hstring⟩ := hsends
  obtain ⟨xml, buf', msg', hxml, hbuf', hstring', hdecode, hvalue⟩ := htrip stack.buf stack.sockMsg
  rw [hbuf] at hbuf'
  cases hbuf'
  rw [hstring] at hstring'
  cases hstring'
  refine ⟨msg', ?_, hvalue⟩
  simp only [sockMsgToBuf, hxml, Bool.not_true, Bool.false_eq_true, if_false, Option.bind_eq_bind,
    Option.bind_some, Option.pure_def, Option.some.injEq, Prod.mk.injEq, true_and, List.nil_append] at hbuf
  rw [Decodes, hbuf]
  exact hdecode

/-- The child at place `j`, and no other, has had the message of call `i`. -/
def OnlyChild (s : State) (i j : Nat) (ch : Child) : Prop :=
  s.children[j]? = some ch ∧ ch.has i = true ∧
    ∀ (j' : Nat) (ch' : Child), s.children[j']? = some ch' → ch'.has i = true → j' = j

/-- Where a child has the message of a call, no other has. -/
theorem Inv.onlyChild {lib : Libxml2} {stack : Stack} {s : State} (h : Inv lib stack s) {i j : Nat} {ch : Child}
    (hch : s.children[j]? = some ch) (hhas : ch.has i = true) : OnlyChild s i j ch := by
  refine ⟨hch, hhas, fun j' ch' hch' hhas' => ?_⟩
  by_contra hne
  have htwo := two_le_countP (Child.has i) hne hch' hch hhas' hhas
  have hone := h.places i
  have hle : sentBy s i ≤ 1 := Bool.toNat_le _
  omega

/-! ### One message on its way -/

/-- The library that reads lines takes an empty document for none. -/
theorem linesLib_emptyRefused : EmptyRefused linesLib := by
  intro root h
  have hnone : linesLib.readFd [] = none := by
    simp [linesLib, readPieces, List.splitOn]
  rw [hnone] at h
  cases h

/-- A write to the file `a`. -/
theorem exists_roundTrip : ∃ msg : SockMsg, RoundTrip linesLib [] msg := by
  have hholds : ∃ msg : SockMsg, msg.Holds 77 ⟨ascii "1", by decide⟩ ⟨ascii "a", by decide⟩ :=
    exists_holds.mpr ⟨by decide, by decide⟩
  obtain ⟨msg, hmsg⟩ := hholds
  have htrip : RoundTrip linesLib (CacheFs.Namespace.CString.mk [] List.not_mem_nil).bytes msg :=
    (roundTrip_iff linesLib_documented hmsg (by decide) (printable_of_all (by decide)) (printable_of_all (by decide))).mpr
      ⟨by decide, by decide, by decide, rfl⟩
  exact ⟨msg, htrip⟩

/-- What comes back has been sent and is decoded. -/
theorem exists_sends {lib : Libxml2} {msg : SockMsg} (stack : Stack) (htrip : RoundTrip lib [] msg) :
    ∃ bytes, Sends lib stack msg bytes := by
  obtain ⟨xml, buf, _, _, hbuf, hstring, _⟩ := htrip stack.buf stack.sockMsg
  exact ⟨xml, buf, hbuf, hstring⟩

/-- One call, before it has begun. -/
def oneCall (msg : SockMsg) : State := ⟨[⟨msg, ⟨0⟩, .start⟩], [], none, [], [], false, false⟩

theorem oneCall_start {lib : Libxml2} {stack : Stack} (msg : SockMsg) : (superNode lib stack).start (oneCall msg) := by
  simp [superNode, oneCall]

/-- It is sent, received, answered by a child, and told. -/
theorem oneCall_answered {lib : Libxml2} (hlib : lib.Documented) (stack : Stack) {msg : SockMsg}
    (htrip : RoundTrip lib [] msg) :
    ∃ s c, Reach (superNode lib stack) flushed s ∧ s.calls = [c] ∧ c.sockMsg = msg ∧ c.stage = .returned 0 := by
  obtain ⟨bytes, hsends⟩ := exists_sends stack htrip
  obtain ⟨msg', hmsg', _⟩ := decodes_of_roundTrip htrip hsends
  obtain ⟨buf, hbuf, hstring⟩ := hsends
  obtain ⟨xml, hxml, hbytes⟩ := Option.map_eq_some_iff.mp hstring
  have hreply := reply_decoded hlib ⟨0⟩
  have hrun : Child.run lib stack .good ⟨some 0, readInto (bzero xmlBufsz) bytes, some (min bytes.length xmlBufsz), none,
      false⟩ = some ⟨some msg', some (okXml lib)⟩ := Child.run_good hlib hmsg'
  have hout : ChildLuck.good.stdout = [] := rfl
  have hmoves : ((superNode lib stack).run flushed (oneCall msg)
      [.send 0 .good, .receive 0 true, .child 0 .good, .recv 0 0 .good]).map State.calls =
        some [⟨msg, ⟨rplOk⟩, .returned 0⟩] := by
    simp [Machine.run, flushed, superNode, oneCall, next, Luck.good, hout, Call.send, hbuf, hxml, hbytes, State.fork, hrun,
      Call.recv, hreply]
  obtain ⟨s, hs, hcalls⟩ := Option.map_eq_some_iff.mp hmoves
  exact ⟨s, _, (Reach.start (oneCall_start msg)).run _ hs, hcalls, rfl, rfl⟩

/-- **An answer is the call's own**, when what was printed is out before a message is encoded, and no
two calls have one address. Whatever fails on the way, at most one reply is ever
sent to a call, and only by a child that has decoded its message; and a call that returns
0 has been told `RPL_OK` by the only child that had its message, and that child has
decoded what the call was given, if it can come back from its document at all. -/
theorem answer_is_own {lib : Libxml2} {stack : Stack} (hlib : lib.Documented) (hempty : EmptyRefused lib) {s : State}
    (h : Reach (superNode lib stack) flushed s) {i : Nat} {c : Call} (hc : s.calls[i]? = some c) :
    s.replies.countP (Packet.of i) + answersTo s i ≤ 1 ∧
    (0 < s.replies.countP (Packet.of i) ∨ c.stage = .returned 0 → ∃ j ch o msg, OnlyChild s i j ch ∧
      ch.outcome = some o ∧ o.decoded = some msg ∧
      (RoundTrip lib [] c.sockMsg → ∀ t, msg.value t = c.sockMsg.value t)) ∧
    (c.stage = .returned 0 → c.rplMsg.err = rplOk) := by
  have hinv := inv hlib hempty h
  have hplaces := hinv.places i
  have hreplies := hinv.replies i
  have hle : sentBy s i ≤ 1 := Bool.toNat_le _
  have hanswers : s.children.countP (Child.answers i) ≤ s.children.countP (Child.has i) :=
    List.countP_mono_left fun ch _ hch => (Bool.and_eq_true_iff.mp hch).1
  refine ⟨by omega, fun hany => ?_, hinv.told c (List.mem_of_getElem? hc)⟩
  have hpos : 0 < s.children.countP (Child.answers i) := by
    obtain hway | hret := hany
    · omega
    · have hone : answersTo s i = 1 := by simp [answersTo, hc, Call.answered, hret]
      omega
  obtain ⟨ch, hch, hans⟩ := List.countP_pos_iff.mp hpos
  obtain ⟨hhas, hsent⟩ := Bool.and_eq_true_iff.mp hans
  obtain ⟨o, ho, hsent⟩ := Option.any_eq_true _ _ |>.mp hsent
  obtain ⟨j, hj⟩ := List.getElem?_of_mem hch
  obtain ⟨d, bytes, hd, hsends, hbuf⟩ := hinv.children ch hch i hhas
  rw [hc] at hd
  cases hd
  obtain rfl | ⟨msg, hmsg, hdecoded⟩ := hinv.outcomes ch hch o ho
  · cases hsent
  · refine ⟨j, ch, o, msg, hinv.onlyChild hj hhas, ho, hdecoded, fun htrip => ?_⟩
    obtain ⟨msg', hmsg', hvalue⟩ := decodes_of_roundTrip htrip hsends
    rw [← hbuf, Decodes, hmsg] at hmsg'
    cases hmsg'
    exact hvalue

/-- A call that is answered. -/
theorem answer_is_own_one : ∃ (lib : Libxml2) (stack : Stack) (s : State) (c : Call) (j : Nat) (ch : Child)
    (o : Outcome) (msg : SockMsg), lib.Documented ∧ Reach (superNode lib stack) flushed s ∧ s.calls = [c] ∧
      c.rplMsg.err = rplOk ∧ OnlyChild s 0 j ch ∧ ch.outcome = some o ∧ o.decoded = some msg ∧ ∀ t, msg.value t = c.sockMsg.value t := by
  obtain ⟨msg, htrip⟩ := exists_roundTrip
  let stack : Stack := ⟨msg, ⟨0⟩, bzero xmlBufsz⟩
  obtain ⟨s, c, hreach, hcalls, hmsg, hret⟩ := oneCall_answered linesLib_documented stack htrip
  have hc : s.calls[0]? = some c := by simp [hcalls]
  obtain ⟨_, hanswer, hok⟩ := answer_is_own linesLib_documented linesLib_emptyRefused hreach hc
  obtain ⟨j, ch, o, msg', honly, ho, hdecoded, hvalue⟩ := hanswer (.inr hret)
  exact ⟨linesLib, stack, s, c, j, ch, o, msg', linesLib_documented, hreach, hcalls, hok hret, honly, ho, hdecoded,
    hvalue (hmsg ▸ htrip)⟩

end CacheFs.SuperNode
