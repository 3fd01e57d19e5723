import CacheFs.Library.Settling
import CacheFs.SuperNode.Delivery

/-! While no call of the system fails every message that can be decoded is answered.

Nothing is lost then: what a call waits for is its message, or a child that has it, or
its reply. Each call and its child take seven moves at most, and when none is left the
calls have returned, but for those whose message the child could not decode: they wait
for ever (`calls_answered`). No child that has exited is left over, although one
`SIGCHLD` may stand for several. -/
namespace CacheFs.SuperNode
open Transition Members
open CacheFs.Xml

/-- The rule of runs in which no call of the system fails, and what was printed is out before a
message is encoded. -/
def lucky : Rule State Move
  | _, .send _ luck => luck = .good
  | _, .recv _ _ luck => luck = .good
  | _, .recvFail _ => False
  | _, .receive _ fork => fork = true
  | _, .receiveFail _ => False
  | _, .child _ luck => luck = .good
  | _, .signal => True
  | _, .waitpid _ => True
  | _, .waitpidNone => True

instance (s : State) : ∀ mv, Decidable (lucky s mv)
  | .send _ _ | .recv _ _ _ | .receive _ _ | .child _ _ => inferInstanceAs (Decidable (_ = _))
  | .recvFail _ | .receiveFail _ => isFalse id
  | .signal | .waitpid _ | .waitpidNone => isTrue trivial

theorem lucky_flushed {s : State} {mv : Move} (h : lucky s mv) : flushed s mv := by
  cases mv with
  | send i luck =>
    obtain rfl : luck = .good := h
    rfl
  | child j luck =>
    obtain rfl : luck = .good := h
    rfl
  | recv | recvFail | receive | receiveFail | signal | waitpid | waitpidNone => trivial

/-! ### The moves that are left -/

def Call.movesLeft (c : Call) : Nat := if c.stage = .start then 7 else 0

def Child.movesLeft (ch : Child) : Nat := if ch.outcome.isNone then 5 else if ch.reaped then 0 else 1

/-- The moves of a run from this state: a message takes one to be sent, one to be received,
one of its child, three for the signal that the child gives, and one for its reply. -/
def movesLeft (s : State) : Nat :=
  (s.calls.map Call.movesLeft).sum + 6 * s.inbox.length + (s.children.map Child.movesLeft).sum + s.replies.length +
    2 * s.pending.toNat + s.handler.toNat

section Moves
variable {lib : Libxml2} {stack : Stack} {s s' : State}

theorem length_eraseIdx_add {α : Type} {l : List α} {k : Nat} {x : α} (h : l[k]? = some x) :
    (l.eraseIdx k).length + 1 = l.length := by
  obtain ⟨hk, _⟩ := List.getElem?_eq_some_iff.mp h
  rw [List.length_eraseIdx_of_lt hk]
  omega

theorem next_movesLeft {mv : Move} (hlucky : lucky s mv) (h : next lib stack s mv = some s') :
    movesLeft s' < movesLeft s := by
  cases mv with
  | send i luck =>
    obtain ⟨c, c', sent, hc, hstart, hsend, rfl⟩ := next_send h
    have hset := sum_map_set Call.movesLeft (y := c') hc
    have hseven : c.movesLeft = 7 := by simp [Call.movesLeft, hstart]
    obtain ⟨hbad, _⟩ | ⟨bytes, _, rfl, rfl⟩ := Call.send_cases (lucky_flushed hlucky) hsend
    · exact absurd hlucky hbad
    · have hzero : Call.movesLeft {c with stage := .waiting} = 0 := by simp [Call.movesLeft]
      simp only [movesLeft, Option.map_some, Option.toList_some, List.length_append, List.length_singleton]
      omega
  | recv i k luck =>
    obtain ⟨c, p, c', hc, hp, hwait, _, hrecv, rfl⟩ := next_recv h
    have hset := sum_map_set Call.movesLeft (y := c') hc
    have herase := length_eraseIdx_add hp
    have hafter : c'.movesLeft = 0 := by
      simp only [Call.recv, Option.bind_eq_bind, Option.bind_eq_some_iff] at hrecv
      obtain ⟨_, _, hc'⟩ := hrecv
      simp [← Option.some.inj hc', Call.movesLeft]
    simp only [movesLeft]
    omega
  | recvFail i => exact absurd hlucky id
  | receive k fork =>
    obtain ⟨p, hp, _, rfl⟩ := next_receive h
    have herase := length_eraseIdx_add hp
    simp only [lucky] at hlucky
    subst hlucky
    simp only [movesLeft, State.fork, if_true, List.map_append, List.sum_append, List.map_cons, List.map_nil,
      List.sum_cons, List.sum_nil, Child.movesLeft, Option.isNone_none]
    omega
  | receiveFail fork => exact absurd hlucky id
  | child j luck =>
    obtain ⟨ch, o, hch, hrunning, _, hs⟩ := next_child h
    have hset := sum_map_set Child.movesLeft (y := {ch with outcome := some o}) hch
    have hfive : ch.movesLeft = 5 := by simp [Child.movesLeft, hrunning]
    have hone : Child.movesLeft {ch with outcome := some o} ≤ 1 := by
      simp only [Child.movesLeft, Option.isNone_some, Bool.false_eq_true, if_false]
      split <;> omega
    obtain ⟨_, rfl⟩ | ⟨bytes, addr, _, _, rfl⟩ := hs
    · simp only [movesLeft, Bool.toNat_true]
      omega
    · simp only [movesLeft, Bool.toNat_true, List.length_append, List.length_singleton]
      omega
  | signal =>
    obtain ⟨hpending, hhandler, rfl⟩ := next_signal h
    simp [movesLeft, hpending, hhandler]
  | waitpid j =>
    obtain ⟨ch, hch, _, hzombie, rfl⟩ := next_waitpid h
    have hset := sum_map_set Child.movesLeft (y := {ch with reaped := true}) hch
    simp only [Child.zombie, Bool.and_eq_true, Bool.not_eq_true'] at hzombie
    obtain ⟨o, ho⟩ := Option.isSome_iff_exists.mp hzombie.1
    have hone : ch.movesLeft = 1 := by simp [Child.movesLeft, ho, hzombie.2]
    have hzero : Child.movesLeft {ch with reaped := true} = 0 := by simp [Child.movesLeft, ho]
    simp only [movesLeft]
    omega
  | waitpidNone =>
    obtain ⟨hhandler, _, rfl⟩ := next_waitpidNone h
    simp [movesLeft, hhandler]

theorem movesLeft_start (h : (superNode lib stack).start s) : movesLeft s = 7 * s.calls.length := by
  obtain ⟨hstart, hinbox, _, hchildren, hreplies, hpending, hhandler⟩ := h
  have hmap : s.calls.map Call.movesLeft = s.calls.map fun _ => 7 :=
    List.map_congr_left fun c hc => by simp [Call.movesLeft, hstart c hc]
  simp [movesLeft, hmap, hinbox, hchildren, hreplies, hpending, hhandler, List.map_const', Nat.mul_comm]

end Moves

/-! ### What a call waits for -/

/-- The message of call `i` is on its way or with a child that has not answered it, or its
reply is on its way. -/
def Owed (s : State) (i : Nat) : Prop :=
  (∃ p ∈ s.inbox, p.addr = i) ∨
  (∃ ch ∈ s.children, ch.has i = true ∧ ∀ o, ch.outcome = some o → o.sent = none) ∨
  ∃ p ∈ s.replies, p.addr = i

/-- What is kept while nothing fails. -/
structure Kept (lib : Libxml2) (stack : Stack) (s : State) : Prop where
  owed : ∀ i c, s.calls[i]? = some c → c.stage = .waiting → Owed s i
  returned : ∀ c ∈ s.calls, ∀ ret, c.stage = .returned ret → ret = 0
  silent : ∀ ch ∈ s.children, ∀ o, ch.outcome = some o → o.sent = none → ∀ msg, ¬ Decodes lib stack ch.buf msg
  /-- A child that has exited is collected after the signal that it gave. -/
  zombies : (∃ ch ∈ s.children, ch.zombie = true) → s.pending = true ∨ s.handler = true

section Kept
variable {lib : Libxml2} {stack : Stack} {s : State}

/-- A packet to or from another socket stays where it is. -/
theorem mem_eraseIdx_of_addr {l : List Packet} {k : Nat} {p q : Packet} (hp : l[k]? = some p) (hq : q ∈ l)
    (hne : q.addr ≠ p.addr) : q ∈ l.eraseIdx k := by
  obtain ⟨n, hn⟩ := List.getElem?_of_mem hq
  refine List.mem_eraseIdx_iff_getElem?.mpr ⟨n, ?_, hn⟩
  intro hnk
  rw [hnk, hp] at hn
  cases hn
  exact hne rfl

/-- A call whose stage changes leaves the others waiting for what they did. -/
theorem owed_set {calls : List Call} {i a : Nat} {c' d : Call} (hd : (calls.set i c')[a]? = some d)
    (hwait : d.stage = .waiting) (hstage : c'.stage ≠ .waiting) : a ≠ i ∧ calls[a]? = some d := by
  obtain ⟨rfl, rfl⟩ | ⟨hne, hd⟩ := getElem?_set_cases hd
  · exact absurd hwait hstage
  · exact ⟨Ne.symm hne, hd⟩

theorem Kept.send (h : Kept lib stack s) {i : Nat} {c c' : Call} {sent : Option (List UInt8)}
    (hsend : c.send lib stack .good = some (c', sent)) :
    Kept lib stack {s with calls := s.calls.set i c', inbox := s.inbox ++ (sent.map (Packet.mk i)).toList} := by
  obtain ⟨hbad, _⟩ | ⟨bytes, _, rfl, rfl⟩ := Call.send_cases rfl hsend
  · exact absurd rfl hbad
  · refine ⟨fun a d hd hwait => ?_, fun d hd ret hret => ?_, h.silent, h.zombies⟩
    · obtain ⟨rfl, _⟩ | ⟨_, hd⟩ := getElem?_set_cases hd
      · exact .inl ⟨⟨i, bytes⟩, by simp, rfl⟩
      · exact (h.owed a d hd hwait).imp_left fun ⟨p, hp, haddr⟩ => ⟨p, List.mem_append_left _ hp, haddr⟩
    · obtain hd | rfl := List.mem_or_eq_of_mem_set hd
      · exact h.returned d hd ret hret
      · cases hret

theorem Kept.recv (hlib : lib.Documented) (hinv : Inv lib stack s) (h : Kept lib stack s) {i k : Nat} {c c' : Call}
    {p : Packet} (hp : s.replies[k]? = some p) (haddr : p.addr = i)
    (hrecv : c.recv lib .good p.bytes = some c') :
    Kept lib stack {s with calls := s.calls.set i c', replies := s.replies.eraseIdx k} := by
  rw [hinv.contents p (List.mem_of_getElem? hp)] at hrecv
  obtain ⟨_, ⟨hret, _⟩ | ⟨_, hbad⟩⟩ := Call.recv_cases hlib hrecv
  · refine ⟨fun a d hd hwait => ?_, fun d hd ret hd' => ?_, h.silent, h.zombies⟩
    · obtain ⟨hne, hd⟩ := owed_set hd hwait (by simp [hret])
      refine (h.owed a d hd hwait).imp_right (Or.imp_right fun ⟨q, hq, hqa⟩ => ⟨q, ?_, hqa⟩)
      exact mem_eraseIdx_of_addr hp hq (by rw [hqa, haddr]; exact hne)
    · obtain hd | rfl := List.mem_or_eq_of_mem_set hd
      · exact h.returned d hd ret hd'
      · rw [hret] at hd'
        cases hd'
        rfl
  · exact absurd ⟨rfl, rfl⟩ hbad

theorem Kept.receive (h : Kept lib stack s) {k : Nat} {p : Packet} (hp : s.inbox[k]? = some p) :
    Kept lib stack (State.fork {s with inbox := s.inbox.eraseIdx k, cliaddr := some p.addr} true
      (readInto (bzero xmlBufsz) p.bytes) (some (min p.bytes.length xmlBufsz))) := by
  refine ⟨fun a d hd hwait => ?_, h.returned, fun ch hch o ho => ?_, fun hz => ?_⟩
  · by_cases hpa : p.addr = a
    · exact .inr (.inl ⟨_, List.mem_append_right _ List.mem_cons_self, by simp [Child.has, hpa], nofun⟩)
    · obtain ⟨q, hq, hqa⟩ | ⟨ch, hch, hcase⟩ | hreply := h.owed a d hd hwait
      · exact .inl ⟨q, mem_eraseIdx_of_addr hp hq (by rw [hqa]; exact Ne.symm hpa), hqa⟩
      · exact .inr (.inl ⟨ch, List.mem_append_left _ hch, hcase⟩)
      · exact .inr (.inr hreply)
  · obtain hch | hch := List.mem_append.mp hch
    · exact h.silent ch hch o ho
    · rw [List.mem_singleton.mp hch] at ho
      cases ho
  · obtain ⟨ch, hch, hzombie⟩ := hz
    obtain hch | hch := List.mem_append.mp hch
    · exact h.zombies ⟨ch, hch, hzombie⟩
    · rw [List.mem_singleton.mp hch] at hzombie
      cases hzombie

theorem Kept.child (hlib : lib.Documented) (h : Kept lib stack s) {j : Nat} {ch : Child} {o : Outcome}
    (hch : s.children[j]? = some ch) (ho : ch.run lib stack .good = some o)
    {replies : List Packet} (hold : ∀ p ∈ s.replies, p ∈ replies)
    (hnew : ∀ i bytes, ch.has i = true → o.sent = some bytes → ∃ p ∈ replies, p.addr = i) :
    Kept lib stack {s with
      children := s.children.set j {ch with outcome := some o}
      pending := true
      replies := replies} := by
  refine ⟨fun a d hd hwait => ?_, h.returned, fun x hx o' ho' hsilent msg hmsg => ?_, fun _ => .inl rfl⟩
  · obtain hin | ⟨x, hx, hhas, hnone⟩ | ⟨p, hp, haddr⟩ := h.owed a d hd hwait
    · exact .inl hin
    · obtain ⟨n, hn⟩ := List.getElem?_of_mem hx
      by_cases hnj : j = n
      · -- the child that ran had its message
        subst hnj
        rw [hch] at hn
        cases hn
        cases hsent : o.sent with
        | some bytes => exact .inr (.inr (hnew a bytes hhas hsent))
        | none =>
          refine .inr (.inl ⟨_, List.mem_of_getElem? (getElem?_set_same hch _), hhas, fun o' ho' => ?_⟩)
          cases ho'
          exact hsent
      · have hkept : (s.children.set j {ch with outcome := some o})[n]? = some x := by
          rw [List.getElem?_set_ne hnj, hn]
        exact .inr (.inl ⟨x, List.mem_of_getElem? hkept, hhas, hnone⟩)
    · exact .inr (.inr ⟨p, hold p hp, haddr⟩)
  · obtain hx | rfl := List.mem_or_eq_of_mem_set hx
    · exact h.silent x hx o' ho' hsilent msg hmsg
    · cases ho'
      obtain ⟨_, hbad⟩ | ⟨_, _, _, hsent | ⟨_, hbad⟩⟩ := Child.run_cases hlib rfl ho
      · exact hbad rfl msg hmsg
      · rw [hsent] at hsilent
        cases hsilent
      · exact hbad rfl

/-- Collecting a child changes nothing for the calls. -/
theorem Kept.reap (h : Kept lib stack s) {j : Nat} {ch : Child} (hch : s.children[j]? = some ch)
    (hhandler : s.handler = true) :
    Kept lib stack {s with children := s.children.set j {ch with reaped := true}} := by
  refine ⟨fun a d hd hwait => ?_, h.returned, fun x hx o ho => ?_, fun _ => .inr hhandler⟩
  · obtain hin | ⟨x, hx, hhas, hnone⟩ | hreply := h.owed a d hd hwait
    · exact .inl hin
    · obtain ⟨n, hn⟩ := List.getElem?_of_mem hx
      by_cases hnj : j = n
      · subst hnj
        rw [hch] at hn
        cases hn
        exact .inr (.inl ⟨_, List.mem_of_getElem? (getElem?_set_same hch _), hhas, hnone⟩)
      · have hkept : (s.children.set j {ch with reaped := true})[n]? = some x := by
          rw [List.getElem?_set_ne hnj, hn]
        exact .inr (.inl ⟨x, List.mem_of_getElem? hkept, hhas, hnone⟩)
    · exact .inr (.inr hreply)
  · obtain hx | rfl := List.mem_or_eq_of_mem_set hx
    · exact h.silent x hx o ho
    · exact h.silent ch (List.mem_of_getElem? hch) o ho

theorem Kept.preserved (hlib : lib.Documented) (hinv : Inv lib stack s) (h : Kept lib stack s) {mv : Move} {s' : State}
    (hlucky : lucky s mv) (hnext : next lib stack s mv = some s') : Kept lib stack s' := by
  cases mv with
  | send i luck =>
    obtain ⟨c, c', sent, _, _, hsend, rfl⟩ := next_send hnext
    obtain rfl : luck = _ := hlucky
    exact h.send hsend
  | recv i k luck =>
    obtain ⟨c, p, c', _, hp, _, haddr, hrecv, rfl⟩ := next_recv hnext
    obtain rfl : luck = _ := hlucky
    exact h.recv hlib hinv hp haddr hrecv
  | recvFail i => exact absurd hlucky id
  | receive k fork =>
    obtain ⟨p, hp, _, rfl⟩ := next_receive hnext
    obtain rfl : fork = _ := hlucky
    exact h.receive hp
  | receiveFail fork => exact absurd hlucky id
  | child j luck =>
    obtain ⟨ch, o, hch, _, ho, hs⟩ := next_child hnext
    obtain rfl : luck = _ := hlucky
    obtain ⟨hnone, rfl⟩ | ⟨bytes, addr, _, haddr, rfl⟩ := hs
    · exact h.child hlib hch ho (fun _ hp => hp) fun i bytes _ hsome => by
        rw [hnone] at hsome
        cases hsome
    · refine h.child hlib hch ho (fun _ hp => List.mem_append_left _ hp) fun i _ hhas _ => ?_
      refine ⟨_, List.mem_append_right _ List.mem_cons_self, ?_⟩
      simpa [Child.has, haddr] using (Bool.and_eq_true_iff.mp hhas).1
  | signal =>
    obtain ⟨_, _, rfl⟩ := next_signal hnext
    exact ⟨h.owed, h.returned, h.silent, fun _ => .inr rfl⟩
  | waitpid j =>
    obtain ⟨ch, hch, hhandler, _, rfl⟩ := next_waitpid hnext
    exact h.reap hch hhandler
  | waitpidNone =>
    obtain ⟨_, hnone, rfl⟩ := next_waitpidNone hnext
    refine ⟨h.owed, h.returned, h.silent, fun hz => ?_⟩
    obtain ⟨ch, hch, hzombie⟩ := hz
    rw [hnone ch hch] at hzombie
    cases hzombie

end Kept

theorem kept {lib : Libxml2} {stack : Stack} (hlib : lib.Documented) (hempty : EmptyRefused lib) {s : State}
    (h : Reach (superNode lib stack) lucky s) : Kept lib stack s := by
  induction h with
  | start hs =>
    obtain ⟨hstart, _, _, hchildren, _⟩ := hs
    refine ⟨fun i c hc hwait => ?_, fun c hc ret hret => ?_, by simp [hchildren], by simp [hchildren]⟩
    · rw [hstart c (List.mem_of_getElem? hc)] at hwait
      cases hwait
    · rw [hstart c hc] at hret
      cases hret
  | step hreach hlucky hstep ih =>
    have hinv := inv hlib hempty (hreach.mono fun _ _ _ _ => lucky_flushed)
    exact ih.preserved hlib hinv hlucky hstep

/-! ### When no move is left -/

/-- A message is encoded in one way only. -/
theorem Sends.unique {lib : Libxml2} {stack : Stack} {msg : SockMsg} {bytes bytes' : List UInt8}
    (h : Sends lib stack msg bytes) (h' : Sends lib stack msg bytes') : bytes = bytes' := by
  obtain ⟨buf, hbuf, hstring⟩ := h
  obtain ⟨buf', hbuf', hstring'⟩ := h'
  rw [hbuf] at hbuf'
  cases hbuf'
  rw [hstring] at hstring'
  exact Option.some.inj hstring'

/-- No move changes the message of a call. -/
theorem next_sockMsgs {lib : Libxml2} {stack : Stack} {s s' : State} {mv : Move}
    (hflushed : flushed s mv) (h : next lib stack s mv = some s') :
    s'.calls.map Call.sockMsg = s.calls.map Call.sockMsg := by
  cases mv with
  | send i luck =>
    obtain ⟨c, c', sent, hc, _, hsend, rfl⟩ := next_send h
    refine map_set_same hc ?_
    obtain ⟨_, _, _, rfl, _⟩ | ⟨_, _, rfl, _⟩ := Call.send_cases hflushed hsend <;> rfl
  | recv i k luck =>
    obtain ⟨c, p, c', hc, _, _, _, hrecv, rfl⟩ := next_recv h
    refine map_set_same hc ?_
    simp only [Call.recv, Option.bind_eq_bind, Option.bind_eq_some_iff] at hrecv
    obtain ⟨_, _, hc'⟩ := hrecv
    rw [← Option.some.inj hc']
  | recvFail i =>
    obtain ⟨c, hc, _, rfl⟩ := next_recvFail h
    exact map_set_same hc rfl
  | receive k fork =>
    obtain ⟨p, _, _, rfl⟩ := next_receive h
    cases fork <;> rfl
  | receiveFail fork =>
    obtain ⟨_, rfl⟩ := next_receiveFail h
    cases fork <;> rfl
  | child j luck =>
    obtain ⟨_, _, _, _, _, ⟨_, rfl⟩ | ⟨_, _, _, _, rfl⟩⟩ := next_child h <;> rfl
  | signal =>
    obtain ⟨_, _, rfl⟩ := next_signal h
    rfl
  | waitpid j =>
    obtain ⟨_, _, _, _, rfl⟩ := next_waitpid h
    rfl
  | waitpidNone =>
    obtain ⟨_, _, rfl⟩ := next_waitpidNone h
    rfl

theorem run_sockMsgs {lib : Libxml2} {stack : Stack} {moves : List Move} {s s' : State}
    (h : (superNode lib stack).run lucky s moves = some s') :
    s'.calls.map Call.sockMsg = s.calls.map Call.sockMsg := by
  induction moves generalizing s with
  | nil =>
    simp only [Machine.run, Option.some.injEq] at h
    rw [h]
  | cons mv rest ih =>
    obtain ⟨hlucky, s₁, hstep, hrest⟩ := Machine.run_cons h
    rw [ih hrest, next_sockMsgs (lucky_flushed hlucky) hstep]

section Settled
variable {lib : Libxml2} {stack : Stack} {s : State}

/-- The main process is not in its handler: it would collect a child, or leave. -/
theorem handler_of_settled (h : Settled (superNode lib stack) lucky s) : s.handler = false := by
  by_contra hhandler
  simp only [Bool.not_eq_false] at hhandler
  by_cases hzombie : ∃ ch ∈ s.children, ch.zombie = true
  · obtain ⟨ch, hch, hz⟩ := hzombie
    obtain ⟨j, hj⟩ := List.getElem?_of_mem hch
    have hnone := h (.waitpid j) trivial
    simp [superNode, next, hj, hhandler, hz] at hnone
  · have hnone := h .waitpidNone trivial
    have hany : s.children.any Child.zombie = false := by simpa using hzombie
    simp [superNode, next, hhandler, hany] at hnone

/-- Every child that has exited is collected. -/
theorem zombie_of_settled (hkept : Kept lib stack s) (h : Settled (superNode lib stack) lucky s) :
    ∀ ch ∈ s.children, ch.zombie = false := by
  intro ch hch
  by_contra hz
  have hhandler := handler_of_settled h
  obtain hpending | hin := hkept.zombies ⟨ch, hch, by simpa using hz⟩
  · have hnone := h .signal trivial
    simp [superNode, next, hpending, hhandler] at hnone
  · rw [hhandler] at hin
    cases hin

theorem inbox_of_settled (h : Settled (superNode lib stack) lucky s) : s.inbox = [] := by
  cases hinbox : s.inbox with
  | nil => rfl
  | cons p rest =>
    have hnone := h (.receive 0 true) rfl
    simp [superNode, next, hinbox, handler_of_settled h] at hnone

/-- A call that can be sent has been sent. -/
theorem stage_of_settled (h : Settled (superNode lib stack) lucky s) {i : Nat} {c : Call} (hc : s.calls[i]? = some c)
    {bytes : List UInt8} (hsends : Sends lib stack c.sockMsg bytes) : c.stage ≠ .start := by
  intro hstart
  obtain ⟨buf, hbuf, hstring⟩ := hsends
  obtain ⟨xml, hxml, _⟩ := Option.map_eq_some_iff.mp hstring
  have hnone := h (.send i .good) rfl
  simp [superNode, next, hc, hstart, Call.send, Luck.good, hbuf, hxml] at hnone

/-- A call with a reply on its way takes it. -/
theorem reply_of_settled (hlib : lib.Documented) (hinv : Inv lib stack s)
    (h : Settled (superNode lib stack) lucky s) {i : Nat} {c : Call} (hc : s.calls[i]? = some c)
    (hwait : c.stage = .waiting) : ∀ p ∈ s.replies, p.addr ≠ i := by
  intro p hp haddr
  obtain ⟨k, hk⟩ := List.getElem?_of_mem hp
  have hnone := h (.recv i k .good) rfl
  simp [superNode, next, hc, hk, hwait, haddr, Call.recv, Luck.good, hinv.contents p hp, reply_decoded hlib] at hnone

/-- A child with a message that can be decoded has exited. -/
theorem child_of_settled (hlib : lib.Documented) (h : Settled (superNode lib stack) lucky s) {ch : Child} {i : Nat}
    (hch : ch ∈ s.children) (hhas : ch.has i = true) {msg : SockMsg} (hmsg : Decodes lib stack ch.buf msg) :
    ch.outcome.isSome = true := by
  by_contra hrunning
  obtain ⟨j, hj⟩ := List.getElem?_of_mem hch
  have haddr : ch.cliaddr = some i := by simpa using (Bool.and_eq_true_iff.mp hhas).1
  have hnone := h (.child j .good) rfl
  simp [superNode, next, hj, hrunning, Child.run_good hlib hmsg, haddr] at hnone

/-- A call whose message can be decoded does not wait. -/
theorem not_waiting_of_settled (hlib : lib.Documented) (hinv : Inv lib stack s) (hkept : Kept lib stack s)
    (h : Settled (superNode lib stack) lucky s) {i : Nat} {c : Call} (hc : s.calls[i]? = some c)
    {bytes : List UInt8} (hsends : Sends lib stack c.sockMsg bytes) {msg : SockMsg}
    (hmsg : Decodes lib stack (readInto (bzero xmlBufsz) bytes) msg) : c.stage ≠ .waiting := by
  intro hwait
  obtain ⟨p, hp, _⟩ | ⟨ch, hch, hhas, hsilent⟩ | ⟨p, hp, haddr⟩ := hkept.owed i c hc hwait
  · rw [inbox_of_settled h] at hp
    cases hp
  · obtain ⟨d, bytes', hd, hsends', hbuf⟩ := hinv.children ch hch i hhas
    rw [hc] at hd
    cases hd
    rw [hsends.unique hsends', ← hbuf] at hmsg
    obtain ⟨o, ho⟩ := Option.isSome_iff_exists.mp (child_of_settled hlib h hch hhas hmsg)
    exact hkept.silent ch hch o ho (hsilent o ho) msg hmsg
  · exact reply_of_settled hlib hinv h hc hwait p hp haddr

/-- A call whose message cannot be decoded is not answered. -/
theorem not_returned_of_silent (hinv : Inv lib stack s) {i : Nat} {c : Call} (hc : s.calls[i]? = some c)
    {bytes : List UInt8} (hsends : Sends lib stack c.sockMsg bytes)
    (hnot : ∀ msg, ¬ Decodes lib stack (readInto (bzero xmlBufsz) bytes) msg) : c.stage ≠ .returned 0 := by
  intro hret
  have hreplies := hinv.replies i
  have hone : answersTo s i = 1 := by simp [answersTo, hc, Call.answered, hret]
  obtain ⟨ch, hch, hans⟩ := List.countP_pos_iff.mp (show 0 < s.children.countP (Child.answers i) by omega)
  obtain ⟨hhas, hsent⟩ := Bool.and_eq_true_iff.mp hans
  obtain ⟨o, ho, hsent⟩ := Option.any_eq_true _ _ |>.mp hsent
  obtain ⟨d, bytes', hd, hsends', hbuf⟩ := hinv.children ch hch i hhas
  rw [hc] at hd
  cases hd
  obtain rfl | ⟨msg, hmsg, _⟩ := hinv.outcomes ch hch o ho
  · cases hsent
  · rw [hbuf, ← hsends.unique hsends'] at hmsg
    exact hnot msg hmsg

end Settled

/-- **While no call of the system fails the calls are answered**, when what was printed is out
before a message is encoded. A run takes seven moves
for each call at most, and when no move is left a call that was given a message that can
be encoded has returned 0 with `RPL_OK`, or waits for ever, just as a child can decode
what it was sent or cannot; and every child is collected. -/
theorem calls_answered {lib : Libxml2} {stack : Stack} (hlib : lib.Documented) (hempty : EmptyRefused lib)
    {s₀ s : State} {moves : List Move} (hstart : (superNode lib stack).start s₀)
    (hrun : (superNode lib stack).run lucky s₀ moves = some s) :
    moves.length ≤ 7 * s₀.calls.length ∧ (Settled (superNode lib stack) lucky s →
      (∀ (i : Nat) c₀ bytes, s₀.calls[i]? = some c₀ → Sends lib stack c₀.sockMsg bytes → ∃ c, s.calls[i]? = some c ∧
        c.sockMsg = c₀.sockMsg ∧
        ((∃ msg, Decodes lib stack (readInto (bzero xmlBufsz) bytes) msg) → c.stage = .returned 0 ∧ c.rplMsg.err = rplOk) ∧
        ((∀ msg, ¬ Decodes lib stack (readInto (bzero xmlBufsz) bytes) msg) → c.stage = .waiting)) ∧
      ∀ ch ∈ s.children, ch.zombie = false) := by
  have hreach := (Reach.start hstart).run moves hrun
  have hinv := inv hlib hempty (hreach.mono fun _ _ _ _ => lucky_flushed)
  have hkept := kept hlib hempty hreach
  refine ⟨?_, fun hsettled => ⟨fun i c₀ bytes hc₀ hsends => ?_, zombie_of_settled hkept hsettled⟩⟩
  · rw [← movesLeft_start hstart]
    exact Machine.run_length_le_measure (R := lucky) movesLeft (fun _ _ _ hlucky hstep => next_movesLeft hlucky hstep) moves hrun
  · have hmsgs := congrArg (fun l => l[i]?) (run_sockMsgs hrun)
    simp only [List.getElem?_map, hc₀, Option.map_some, Option.map_eq_some_iff] at hmsgs
    obtain ⟨c, hc, hmsg⟩ := hmsgs
    rw [← hmsg] at hsends
    have hnotStart := stage_of_settled hsettled hc hsends
    have hmem := List.mem_of_getElem? hc
    refine ⟨c, hc, hmsg, fun ⟨msg, hdecodes⟩ => ?_, fun hnot => ?_⟩
    · have hnotWaiting := not_waiting_of_settled hlib hinv hkept hsettled hc hsends hdecodes
      cases hstage : c.stage with
      | start => exact absurd hstage hnotStart
      | waiting => exact absurd hstage hnotWaiting
      | returned ret =>
        have hzero := hkept.returned c hmem ret hstage
        subst hzero
        exact ⟨rfl, hinv.told c hmem hstage⟩
    · have hnotReturned := not_returned_of_silent hinv hc hsends hnot
      cases hstage : c.stage with
      | start => exact absurd hstage hnotStart
      | waiting => rfl
      | returned ret =>
        have hzero := hkept.returned c hmem ret hstage
        subst hzero
        exact absurd hstage hnotReturned

/-- A call that is answered when no move is left. -/
theorem calls_answered_one : ∃ (lib : Libxml2) (stack : Stack) (s₀ s : State) (moves : List Move) (c : Call),
    (superNode lib stack).start s₀ ∧ (superNode lib stack).run lucky s₀ moves = some s ∧ s₀.calls.length = 1 ∧
      moves.length ≤ 7 ∧ s.calls[0]? = some c ∧ c.stage = .returned 0 ∧ c.rplMsg.err = rplOk := by
  obtain ⟨msg, htrip⟩ := exists_roundTrip
  let stack : Stack := ⟨msg, ⟨0⟩, bzero xmlBufsz⟩
  obtain ⟨moves, s, hrun, hsettled⟩ := Machine.exists_settled (M := superNode linesLib stack) (R := lucky)
    (fun _ _ _ hlucky hstep => next_movesLeft hlucky hstep) (oneCall msg)
  obtain ⟨hlength, hanswered⟩ := calls_answered linesLib_documented linesLib_emptyRefused (oneCall_start msg) hrun
  obtain ⟨bytes, hsends⟩ := exists_sends stack htrip
  obtain ⟨msg', hmsg', _⟩ := decodes_of_roundTrip htrip hsends
  obtain ⟨c, hc, _, hdecoded, _⟩ := (hanswered hsettled).1 0 _ bytes rfl hsends
  obtain ⟨hret, hok⟩ := hdecoded ⟨msg', hmsg'⟩
  exact ⟨linesLib, stack, oneCall msg, s, moves, c, oneCall_start msg, hrun, rfl, hlength, hc, hret, hok⟩

end CacheFs.SuperNode
