import CacheFs.Mutex.AnyClients
import CacheFs.Mutex.HashServer
import CacheFs.Mutex.ModifyMd
import CacheFs.Mutex.Packets

/-! The lock servers and their callers, down to the bytes between them.

Any number of processes call `md_mutex_lock`, `md_mutex_try_lock` and `md_mutex_unlock`,
each call on a connection of its own. What goes over it is bytes: one `read` of `main`
brings as much of the packet as has come, and one `read` of the caller as much of the
answer, of which the server has written one field or two. A caller knows what its function
returned, and nothing else.

Where each read of `main` brings what is not zeros at the packet's end, and an unlock is
called only for a lock that some call has reported, no two calls have reported the lock of
a file with none called to unlock it between (`callers_exclude`). The callers' view is
tied to the server's by clients that exist only in the proof (`granted`): they are granted
a lock when the server answers, and give it back when it accepts the unlock. -/
namespace CacheFs.Mutex
open Transition Registry Members

/-! ### The functions of the program -/

def FailT.code : FailT → UInt32
  | globMutexLockFail => 0
  | globMutexUnlockFail => 1
  | allocMutexFail => 2
  | lockFail => 3
  | tryLockFail => 4
  | unlockFail => 5
  | unrecognizedOpType => 6

/-- `md_mutex_res_packet` in memory. The bytes between its fields are as `malloc` left them,
and so is `why_fail` where the server does not refuse. -/
def ResPacket.bytes (order : ByteOrder) (left : Vector UInt8 7) (res : ResPacket) : List UInt8 :=
  res.okOrNot :: (left.toList.take 3 ++
    match res.whyFail with
    | some why => wordBytes order why.code
    | none => left.toList.drop 3)

/-- `res_pkt` after the `read`: what was read, and behind it what `bzero` left. -/
def resPkt (received : List UInt8) : List UInt8 := received.take 8 ++ List.replicate (8 - received.length) 0

/-- What `md_mutex_func` returns with what it has read of the answer. -/
def mdMutexRes (received : List UInt8) : Int := Table.mdMutexFunc ⟨(resPkt received).headD 0, none⟩

namespace Wire

/-! ### Calls and the server -/

/-- How far a call of `md_mutex_func` is. -/
inductive Stage where
  /-- The packet is written, and the connection not yet accepted. -/
  | sent
  /-- A thread has been started with what was read of the packet. -/
  | served (thread : Nat)
  /-- The thread has written its answer. -/
  | answered (bytes : List UInt8)
  | returned (res : Int)
  deriving DecidableEq

structure Call where
  fileName : FileName
  opType : OpT
  stage : Stage
  deriving DecidableEq

/-- The server, and the calls in the order they were made. The connection of each is its
place. -/
structure System (S P L : Type) where
  server : State S P L Unit
  calls : List Call

inductive Event (A : Type) where
  /-- A process calls `md_mutex_func`, which connects and writes its packet. -/
  | call (fileName : FileName) (opType : OpT)
  /-- `main` accepts the connection and reads so many bytes. -/
  | accept (i n : Nat)
  /-- The next step of a thread before its reply. -/
  | step (j : Nat) (a : A)
  /-- A thread writes its answer over what `malloc` left, and exits. -/
  | reply (j : Nat) (left : Vector UInt8 7)
  /-- `md_mutex_func` reads so many bytes of the answer and returns. -/
  | read (i n : Nat)

section System
variable {S P L A : Type} (V : Server S P L A) (order : ByteOrder)

def next (s : System S P L) : Event A → Option (System S P L)
  | .call f op => some {s with calls := s.calls ++ [⟨f, op, .sent⟩]}
  | .accept i n =>
    match s.calls[i]? with
    | some ⟨f, op, .sent⟩ => do
      let args ← mainTurn order i ((mdMutexFunc order f op).take n)
      let server ← args.foldlM (fun server arg => Mutex.next V Table.anyone server (.accept arg)) s.server
      some ⟨server, s.calls.set i ⟨f, op, .served s.server.threads.length⟩⟩
    | _ => none
  | .step j a => (Mutex.next V Table.anyone s.server (.step j a)).map fun server => {s with server := server}
  | .reply j left =>
    match s.server.threads[j]? with
    | some ⟨arg, _, .reply res⟩ => do
      let server ← Mutex.next V Table.anyone s.server (.reply j)
      let c ← s.calls[arg.client]?
      some ⟨server, s.calls.set arg.client {c with stage := .answered (res.bytes order left)}⟩
    | _ => none
  | .read i n =>
    match s.calls[i]? with
    | some ⟨f, op, .answered bytes⟩ =>
      some {s with calls := s.calls.set i ⟨f, op, .returned (mdMutexRes (bytes.take n))⟩}
    | _ => none

def machine (empty : S) : Machine (System S P L) (Event A) where
  start := fun s => s.server = ⟨empty, [], ()⟩ ∧ s.calls = []
  step := next V order

end System

/-! ### What the callers know -/

/-- The function has returned 0. -/
def Stage.reported : Stage → Bool
  | .returned res => res == 0
  | .sent | .served _ | .answered _ => false

/-- The call has reported the lock of `f`. -/
def Call.told (f : FileName) (c : Call) : Bool := c.fileName == f && (c.opType != .unlock && c.stage.reported)

/-- The call is to give back the lock of `f`. -/
def Call.unlocks (f : FileName) (c : Call) : Bool := c.fileName == f && c.opType == .unlock

section Callers
variable {S P L A : Type}

def System.told (s : System S P L) (f : FileName) : Nat := s.calls.countP (Call.told f)

def System.unlocks (s : System S P L) (f : FileName) : Nat := s.calls.countP (Call.unlocks f)

/-- What a lookup has read before `glob_mutex`. -/
def seen {P L : Type} : Pc P L → Option L
  | .get seen => seen
  | .call _ | .put _ _ | .reply _ | .exited => none

/-- An unlock is called only for a lock that a call has reported; `main` reads all that is
not zeros at a packet's end; and what a lookup has read before `glob_mutex` is still current
when it goes on. -/
def Careful (order : ByteOrder) (current : S → FileName → L → Prop) : Rule (System S P L) (Event A)
  | s, .call f op => op = .unlock → s.unlocks f < s.told f
  | s, .accept i n => ∀ c ∈ s.calls[i]?, needed order c.fileName c.opType ≤ n
  | s, .step j _ => ∀ th ∈ s.server.threads[j]?, ∀ l ∈ seen th.pc, current s.server.store th.arg.fileName l
  | _, _ => True

instance {order : ByteOrder} {current : S → FileName → L → Prop} [∀ s f l, Decidable (current s f l)] :
    ∀ (s : System S P L) (e : Event A), Decidable (Careful order current s e)
  | s, .call f op => inferInstanceAs (Decidable (op = .unlock → s.unlocks f < s.told f))
  | s, .accept i n => inferInstanceAs (Decidable (∀ c ∈ s.calls[i]?, needed order c.fileName c.opType ≤ n))
  | s, .step j _ => inferInstanceAs (Decidable (∀ th ∈ s.server.threads[j]?, ∀ l ∈ seen th.pc,
      current s.server.store th.arg.fileName l))
  | _, .reply _ _ => isTrue trivial
  | _, .read _ _ => isTrue trivial

end Callers

/-! ### What one read brings -/

/-- A read that brings enough starts a thread with the request that was sent. -/
theorem mainTurn_needed {order : ByteOrder} {f : FileName} {op : OpT} {n : Nat} (i : Nat) (h : needed order f op ≤ n) :
    mainTurn order i ((mdMutexFunc order f op).take n) = some [⟨op.code.toUInt8, i, f⟩] := by
  obtain ⟨f', hf', hturn⟩ := mainTurn_eq i (List.take_prefix n (mdMutexFunc order f op))
  rw [List.length_take, length_mdMutexFunc] at hf' hturn
  have hfits := f.fits
  -- the name is there, and the code
  have hboth : f.bytes.length ≤ min n (4 + maxPath) - 4 ∧
      needed order ⟨[], by decide, by decide⟩ op ≤ min n (4 + maxPath) := by
    have hop : needed order ⟨[], by decide, by decide⟩ op ≤ 4 := by
      cases order <;> cases op <;> decide
    by_cases hempty : f.bytes = []
    · have hsmall : needed order f op = needed order ⟨[], by decide, by decide⟩ op := by simp [needed, hempty]
      have hnone : f.bytes.length = 0 := by rw [hempty, List.length_nil]
      omega
    · have hneeded : needed order f op = 4 + f.bytes.length := if_pos hempty
      omega
  have hsame : f' = f := by
    rw [List.take_of_length_le hboth.1] at hf'
    cases f'
    cases f
    congr
  rw [hturn, hsame, ReqPacket.threadArg]
  simp only [(opType_read order op (min n (4 + maxPath))).mpr hboth.2]

/-- A function that returns 0 has read `OK`. -/
theorem mdMutexRes_zero {bytes : List UInt8} {n : Nat} (h : mdMutexRes (bytes.take n) = 0) : bytes.head? = some 1 := by
  rw [mdMutexRes, Table.mdMutexFunc_zero, ResPacket.isOk, beq_iff_eq] at h
  cases bytes with
  | nil => simp [resPkt] at h
  | cons b rest =>
    cases n with
    | zero => simp [resPkt] at h
    | succ n => simpa [resPkt] using h

/-! ### What an event does -/

section Next
variable {S P L A : Type} {V : Server S P L A} {order : ByteOrder} {s s' : System S P L}

theorem next_accept {i n : Nat} (h : next V order s (.accept i n) = some s')
    (hn : ∀ c, s.calls[i]? = some c → needed order c.fileName c.opType ≤ n) :
    ∃ f op, s.calls[i]? = some ⟨f, op, .sent⟩ ∧
      s' = ⟨{s.server with threads := s.server.threads ++ [⟨⟨op.code.toUInt8, i, f⟩, false, .get none⟩]},
        s.calls.set i ⟨f, op, .served s.server.threads.length⟩⟩ := by
  simp only [next] at h
  split at h
  · rename_i f op hc
    rw [mainTurn_needed i (hn _ hc)] at h
    exact ⟨f, op, hc, (Option.some.inj h).symm⟩
  · cases h

theorem next_step {j : Nat} {a : A} (h : next V order s (.step j a) = some s') :
    ∃ th pc store, s.server.threads[j]? = some th ∧
      V.threadFunc flagMutex th.arg a s.server.store th.pc = some (pc, store) ∧
      s' = {s with server := {s.server with store := store, threads := s.server.threads.set j {th with pc := pc}}} := by
  obtain ⟨server, hnext, rfl⟩ := Option.map_eq_some_iff.mp h
  obtain ⟨th, pc, store, hth, hfunc, rfl⟩ := Mutex.next_step hnext
  exact ⟨th, pc, store, hth, hfunc, rfl⟩

theorem next_reply {j : Nat} {left : Vector UInt8 7} (h : next V order s (.reply j left) = some s') :
    ∃ arg holder res c, s.server.threads[j]? = some ⟨arg, holder, .reply res⟩ ∧ s.calls[arg.client]? = some c ∧
      s' = ⟨{s.server with threads := s.server.threads.set j ⟨arg, holder, .exited⟩},
        s.calls.set arg.client {c with stage := .answered (res.bytes order left)}⟩ := by
  simp only [next] at h
  split at h
  · rename_i arg holder res hth
    obtain ⟨server, hnext, h⟩ := Option.bind_eq_some_iff.mp h
    obtain ⟨c, hc, h⟩ := Option.bind_eq_some_iff.mp h
    obtain ⟨_, _, _, hth', rfl⟩ := Mutex.next_reply hnext
    cases hth.symm.trans hth'
    exact ⟨arg, holder, res, c, hth, hc, (Option.some.inj h).symm⟩
  · cases h

theorem next_read {i n : Nat} (h : next V order s (.read i n) = some s') :
    ∃ f op bytes, s.calls[i]? = some ⟨f, op, .answered bytes⟩ ∧
      s' = {s with calls := s.calls.set i ⟨f, op, .returned (mdMutexRes (bytes.take n))⟩} := by
  simp only [next] at h
  split at h
  · rename_i f op bytes hc
    exact ⟨f, op, bytes, hc, (Option.some.inj h).symm⟩
  · cases h

end Next

/-! ### Clients that are granted locks

They send what anyone may, but for each file they have as many grants as the server has
answered and not been asked to take back. -/

def granted : Clients (List FileName) where
  send := fun held arg =>
    if arg.opType = mdUnlock then
      if arg.fileName ∈ held then some (held.erase arg.fileName, true) else none
    else some (held, false)
  receive := fun held arg res => if acquires arg.opType && res.isOk then arg.fileName :: held else held

def grantedLawful : granted.Lawful where
  Fits := fun _ _ => True
  acquired := fun held f => held.count f
  send_fits := fun _ _ => trivial
  send_acquired := by
    intro held held' _ arg holder _ h f
    simp only [granted] at h
    split at h
    · rename_i hop
      split at h
      · rename_i hmem
        cases h
        rw [List.count_erase, hop]
        cases hf : arg.fileName == f
        · simp
        · have hpos : 0 < held.count f := List.count_pos_iff.mpr (beq_iff_eq.mp hf ▸ hmem)
          simp only [if_true, beq_self_eq_true, Bool.and_self, Bool.toNat_true]
          omega
      · cases h
    · cases h
      simp
  receive_fits := fun _ _ _ => trivial
  receive_acquired := by
    intro held _ arg _ res _ _ f
    simp only [granted]
    cases acquires arg.opType && res.isOk <;> cases hf : arg.fileName == f <;> simp [List.count_cons, hf]

theorem granted_fresh (held : List FileName) (h : held = []) : Fresh grantedLawful held := by
  subst h
  exact ⟨trivial, fun _ => rfl⟩

/-- A thread as the server has it, who knows nothing of grants. -/
def unmarked {P L : Type} (th : Thread P L) : Thread P L := {th with holder := false}

/-! ### The callers and the grants -/

/-- The server has answered `OK`, and the function has not returned otherwise. -/
def Stage.ok : Stage → Bool
  | .answered bytes => bytes.head? == some 1
  | .returned res => res == 0
  | .sent | .served _ => false

def Stage.accepted : Stage → Bool
  | .sent => false
  | .served _ | .answered _ | .returned _ => true

/-- The call has been granted the lock of `f`, as far as its caller may be told. -/
def Call.granted (f : FileName) (c : Call) : Bool := c.fileName == f && (c.opType != .unlock && c.stage.ok)

/-- A thread has been started to give back the lock of `f`. -/
def Call.accepted (f : FileName) (c : Call) : Bool := c.unlocks f && c.stage.accepted

theorem Stage.ok_of_reported {stage : Stage} (h : stage.reported = true) : stage.ok = true := by
  cases stage with
  | returned res => exact h
  | sent => cases h
  | served j => cases h
  | answered bytes => cases h

theorem Call.granted_of_told {f : FileName} {c : Call} (h : c.told f = true) : c.granted f = true := by
  simp only [told, Bool.and_eq_true] at h
  simp only [granted, h.1, h.2.1, Stage.ok_of_reported h.2.2, Bool.and_self]

theorem Call.unlocks_of_accepted {f : FileName} {c : Call} (h : c.accepted f = true) : c.unlocks f = true := by
  simp only [accepted, Bool.and_eq_true] at h
  exact h.1

section Linked
variable {S P L A : Type} {V : Server S P L A} {order : ByteOrder} {empty : S} {current : S → FileName → L → Prop}

/-- The system beside a run of the server whose clients are granted locks. -/
structure Linked [DecidableEq P] (W : V.Lawful) (empty : S) (s : System S P L) (t : State S P L (List FileName)) :
    Prop where
  reach : Reach (Mutex.machine V granted empty (· = [])) (Sound W) t
  store : s.server.store = t.store
  threads : s.server.threads = t.threads.map unmarked
  /-- A thread that has not exited serves a call of its own. -/
  serves : ∀ (j : Nat) (th : Thread P L), t.threads[j]? = some th → th.pc ≠ .exited →
    ∃ op : OpT, s.calls[th.arg.client]? = some ⟨th.arg.fileName, op, .served j⟩ ∧ th.arg.opType = op.code.toUInt8
  stray : ∀ th ∈ t.threads, ¬ th.Stray
  told : ∀ f, s.unlocks f ≤ s.told f
  owed : ∀ f, s.calls.countP (Call.granted f) ≤ t.clients.count f + s.calls.countP (Call.accepted f)

variable [DecidableEq P] {W : V.Lawful} {s s' : System S P L} {t : State S P L (List FileName)}

/-- A caller's lock is a grant, or given back by an unlock that has been accepted. -/
theorem Linked.told_le (h : Linked W empty s t) (f : FileName) :
    s.told f ≤ t.clients.count f + s.calls.countP (Call.accepted f) :=
  Nat.le_trans (List.countP_mono_left fun _ _ => Call.granted_of_told) (h.owed f)

theorem Linked.told_le_one (h : Linked W empty s t) (hinv : W.Inv empty) (hempty : ∀ p, W.view empty p = none)
    (f : FileName) : s.told f ≤ s.unlocks f + 1 := by
  obtain ⟨u, hrel, hu⟩ := refines W grantedLawful hinv hempty granted_fresh h.reach
  have hone := hrel.holders_le_one hu f
  have hcount : t.clients.count f ≤ 1 := Nat.le_trans (Nat.le_add_right ..) hone
  have haccepted : s.calls.countP (Call.accepted f) ≤ s.unlocks f :=
    List.countP_mono_left fun _ _ => Call.unlocks_of_accepted
  have := h.told_le f
  omega

/-- A call is one more unlock when the rule allows it. -/
theorem Linked.call (h : Linked W empty s t) {f : FileName} {op : OpT} (hrule : op = .unlock → s.unlocks f < s.told f) :
    Linked W empty {s with calls := s.calls ++ [⟨f, op, .sent⟩]} t := by
  refine ⟨h.reach, h.store, h.threads, ?_, h.stray, ?_, ?_⟩
  · intro j th hth hpc
    obtain ⟨op', hc, hop⟩ := h.serves j th hth hpc
    exact ⟨op', by rw [List.getElem?_append_left (List.getElem?_eq_some_iff.mp hc).1, hc], hop⟩
  · intro g
    have hold := h.told g
    simp only [System.unlocks, System.told, countP_append_one] at hold hrule ⊢
    have hnew : (Call.told g ⟨f, op, .sent⟩).toNat = 0 := by simp [Call.told, Stage.reported]
    cases hu : Call.unlocks g ⟨f, op, .sent⟩
    · rw [Bool.toNat_false]
      omega
    · simp only [Call.unlocks, Bool.and_eq_true, beq_iff_eq] at hu
      have := hrule hu.2
      rw [hu.1] at this
      rw [Bool.toNat_true]
      omega
  · intro g
    have hold := h.owed g
    have hgranted : (Call.granted g ⟨f, op, .sent⟩).toNat = 0 := by simp [Call.granted, Stage.ok]
    simp only [countP_append_one, hgranted]
    omega

/-- A file whose unlock has not been accepted is granted: a call has reported its lock for
each unlock that was called. -/
theorem Linked.mem_clients (h : Linked W empty s t) {i : Nat} {f : FileName}
    (hc : s.calls[i]? = some ⟨f, .unlock, .sent⟩) : f ∈ t.clients := by
  -- accepted unlocks would still be among those called with this one accepted too
  have haccepted := countP_set_add (Call.accepted f) hc ⟨f, .unlock, .served 0⟩
  have hunlocks := countP_set_add (Call.unlocks f) hc ⟨f, .unlock, .served 0⟩
  have hmono : (s.calls.set i ⟨f, .unlock, .served 0⟩).countP (Call.accepted f) ≤
      (s.calls.set i ⟨f, .unlock, .served 0⟩).countP (Call.unlocks f) :=
    List.countP_mono_left fun _ _ => Call.unlocks_of_accepted
  simp [Call.accepted, Call.unlocks, Stage.accepted] at haccepted hunlocks
  have hcalled := h.told f
  have htold := h.told_le f
  simp only [System.unlocks] at hcalled
  apply List.count_pos_iff.mp
  omega

/-- The clients send what a call does. -/
theorem Linked.send (h : Linked W empty s t) {i : Nat} {f : FileName} {op : OpT}
    (hc : s.calls[i]? = some ⟨f, op, .sent⟩) :
    ∃ held holder, granted.send t.clients ⟨op.code.toUInt8, i, f⟩ = some (held, holder) ∧
      (op.code.toUInt8 = mdUnlock → holder = true) ∧
      ∀ g, t.clients.count g = held.count g + (f == g && op == .unlock).toNat := by
  cases op with
  | lock => exact ⟨t.clients, false, rfl, by decide, fun g => by simp⟩
  | tryLock => exact ⟨t.clients, false, rfl, by decide, fun g => by simp⟩
  | unlock =>
    have hsend : granted.send t.clients ⟨OpT.unlock.code.toUInt8, i, f⟩ = some (t.clients.erase f, true) := by
      show (if f ∈ t.clients then _ else none) = _
      rw [if_pos (h.mem_clients hc)]
    have hfits : grantedLawful.Fits t.clients [] := trivial
    exact ⟨t.clients.erase f, true, hsend, fun _ => rfl, grantedLawful.send_acquired hfits hsend⟩

/-- A request is accepted, and one to unlock takes back a grant. -/
theorem Linked.accept (h : Linked W empty s t) {i : Nat} {f : FileName} {op : OpT}
    (hc : s.calls[i]? = some ⟨f, op, .sent⟩) :
    ∃ t', Linked W empty ⟨{s.server with
        threads := s.server.threads ++ [⟨⟨op.code.toUInt8, i, f⟩, false, .get none⟩]},
      s.calls.set i ⟨f, op, .served s.server.threads.length⟩⟩ t' := by
  obtain ⟨held, holder, hsend, hholder, hcount⟩ := h.send hc
  have hlength : s.server.threads.length = t.threads.length := by rw [h.threads, List.length_map]
  refine ⟨{t with threads := t.threads ++ [⟨⟨op.code.toUInt8, i, f⟩, holder, .get none⟩], clients := held},
    .step (a := .accept ⟨op.code.toUInt8, i, f⟩) h.reach trivial ?_, h.store, ?_, ?_, ?_, ?_, ?_⟩
  · show Mutex.next V granted t (.accept _) = _
    simp only [Mutex.next, hsend, Option.map_some]
  · simp [h.threads, unmarked]
  · intro j th hth hpc
    obtain hold | ⟨rfl, rfl⟩ := getElem?_append_one hth
    · obtain ⟨op', hserved, hop⟩ := h.serves j th hold hpc
      -- this call has not been served
      have hne : i ≠ th.arg.client := by
        intro heq
        rw [← heq, hc] at hserved
        cases hserved
      exact ⟨op', by rw [List.getElem?_set_ne hne, hserved], hop⟩
    · exact ⟨op, by rw [getElem?_set_same hc, hlength], rfl⟩
  · intro th hth
    obtain hth | hth := List.mem_append.mp hth
    · exact h.stray th hth
    · rw [List.mem_singleton.mp hth]
      intro hs
      have hgives : holder = false := hs.2
      rw [hholder hs.1] at hgives
      cases hgives
  · intro g
    have htold := countP_set_add (Call.told g) hc ⟨f, op, .served s.server.threads.length⟩
    have hunlocks := countP_set_add (Call.unlocks g) hc ⟨f, op, .served s.server.threads.length⟩
    simp [Call.told, Call.unlocks, Stage.reported] at htold hunlocks
    have := h.told g
    simp only [System.unlocks, System.told] at this ⊢
    omega
  · intro g
    have hgranted := countP_set_add (Call.granted g) hc ⟨f, op, .served s.server.threads.length⟩
    have haccepted := countP_set_add (Call.accepted g) hc ⟨f, op, .served s.server.threads.length⟩
    have hold := h.owed g
    have hheld := hcount g
    simp [Call.granted, Stage.ok] at hgranted
    simp [Call.accepted, Call.unlocks, Stage.accepted] at haccepted
    show (s.calls.set i _).countP (Call.granted g) ≤ held.count g + (s.calls.set i _).countP (Call.accepted g)
    omega

theorem Linked.thread (h : Linked W empty s t) {j : Nat} {th : Thread P L} (hth : s.server.threads[j]? = some th) :
    ∃ th', t.threads[j]? = some th' ∧ th = unmarked th' := by
  rw [h.threads, List.getElem?_map, Option.map_eq_some_iff] at hth
  obtain ⟨th', hth', rfl⟩ := hth
  exact ⟨th', hth', rfl⟩

/-- A thread's step is one of the server whose clients are granted locks. -/
theorem Linked.step (h : Linked W empty s t) {j : Nat} {a : A} {th : Thread P L} {pc : Pc P L} {store : S}
    (hth : s.server.threads[j]? = some th) (hfunc : V.threadFunc flagMutex th.arg a s.server.store th.pc = some (pc, store))
    (hcurrent : ∀ l, th.pc = .get (some l) → W.Current s.server.store th.arg.fileName l) :
    ∃ t', Linked W empty
      {s with server := {s.server with store := store, threads := s.server.threads.set j {th with pc := pc}}} t' := by
  obtain ⟨th', hth', rfl⟩ := h.thread hth
  rw [h.store] at hfunc hcurrent
  have hsound : Sound W t (.step j a) := by
    intro th₁ seen hth₁ hlook
    cases hth'.symm.trans hth₁
    refine ⟨?_, fun hstray => absurd hstray (h.stray _ (List.mem_of_getElem? hth'))⟩
    intro l hl
    exact hcurrent l (hl ▸ hlook.1)
  have hnext : Mutex.next V granted t (.step j a) =
      some {t with store := store, threads := t.threads.set j {th' with pc := pc}} := by
    show (t.threads[j]?).bind _ = _
    rw [hth', Option.bind_some]
    show (V.threadFunc flagMutex th'.arg a t.store th'.pc).bind _ = _
    rw [show V.threadFunc flagMutex th'.arg a t.store th'.pc = some (pc, store) from hfunc, Option.bind_some]
  refine ⟨_, .step h.reach hsound hnext, rfl, ?_, ?_, ?_, h.told, h.owed⟩
  · show s.server.threads.set j _ = _
    rw [h.threads, List.map_set]
    rfl
  · intro j' th₁ hth₁ hpc
    obtain ⟨rfl, rfl⟩ | ⟨hne, hold⟩ := getElem?_set_cases hth₁
    · refine h.serves j th' hth' ?_
      intro hexited
      have hdone : (unmarked th').pc = .exited := hexited
      rw [hdone] at hfunc
      cases hfunc
    · exact h.serves j' th₁ hold hpc
  · intro th₁ hth₁
    obtain hth₁ | rfl := List.mem_or_eq_of_mem_set hth₁
    · exact h.stray th₁ hth₁
    · exact h.stray th' (List.mem_of_getElem? hth')

theorem acquires_code (op : OpT) : acquires op.code.toUInt8 = (op != .unlock) := by
  cases op <;> rfl

/-- An answer that is a lock is a grant. -/
theorem Linked.reply (h : Linked W empty s t) {j : Nat} (left : Vector UInt8 7) {arg : ThreadArg} {holder : Bool}
    {res : ResPacket} {c : Call} (hth : s.server.threads[j]? = some ⟨arg, holder, .reply res⟩)
    (hc : s.calls[arg.client]? = some c) :
    ∃ t', Linked W empty ⟨{s.server with threads := s.server.threads.set j ⟨arg, holder, .exited⟩},
      s.calls.set arg.client {c with stage := .answered (res.bytes order left)}⟩ t' := by
  obtain ⟨⟨arg', holder', pc⟩, hth', heq⟩ := h.thread hth
  have hsame : arg = arg' ∧ holder = false ∧ Pc.reply res = pc := by simpa [unmarked] using heq
  obtain ⟨rfl, rfl, rfl⟩ := hsame
  obtain ⟨op, hserved, hop⟩ : ∃ op : OpT, s.calls[arg.client]? = some ⟨arg.fileName, op, .served j⟩ ∧
      arg.opType = op.code.toUInt8 := h.serves j _ hth' (by simp)
  obtain rfl : c = ⟨arg.fileName, op, .served j⟩ := Option.some.inj (hc.symm.trans hserved)
  have hnext : Mutex.next V granted t (.reply j) = some {t with
      threads := t.threads.set j ⟨arg, holder', .exited⟩
      clients := granted.receive t.clients arg res} := by
    simp only [Mutex.next, hth']
  refine ⟨_, .step (a := .reply j) h.reach trivial hnext, h.store, ?_, ?_, ?_, ?_, ?_⟩
  · show s.server.threads.set j _ = _
    rw [h.threads, List.map_set]
    rfl
  · intro j' th₁ hth₁ hpc
    obtain ⟨rfl, rfl⟩ | ⟨hne, hold⟩ := getElem?_set_cases hth₁
    · exact absurd rfl hpc
    · obtain ⟨op', hother, hop'⟩ := h.serves j' th₁ hold hpc
      -- it serves another call
      have hclient : arg.client ≠ th₁.arg.client := by
        intro hsame
        rw [← hsame, hserved] at hother
        simp only [Option.some.injEq, Call.mk.injEq, Stage.served.injEq] at hother
        exact hne hother.2.2
      exact ⟨op', by rw [List.getElem?_set_ne hclient, hother], hop'⟩
  · intro th₁ hth₁
    obtain hth₁ | rfl := List.mem_or_eq_of_mem_set hth₁
    · exact h.stray th₁ hth₁
    · exact fun hs => h.stray _ (List.mem_of_getElem? hth') ⟨hs.1, hs.2⟩
  · intro g
    have htold := countP_set_add (Call.told g) hc ⟨arg.fileName, op, .answered (res.bytes order left)⟩
    have hunlocks := countP_set_add (Call.unlocks g) hc ⟨arg.fileName, op, .answered (res.bytes order left)⟩
    simp [Call.told, Call.unlocks, Stage.reported] at htold hunlocks
    have := h.told g
    simp only [System.unlocks, System.told] at this ⊢
    omega
  · intro g
    have hgranted := countP_set_add (Call.granted g) hc ⟨arg.fileName, op, .answered (res.bytes order left)⟩
    have haccepted := countP_set_add (Call.accepted g) hc ⟨arg.fileName, op, .answered (res.bytes order left)⟩
    have hfits : grantedLawful.Fits t.clients [some arg] := trivial
    have hcount : (granted.receive t.clients arg res).count g = t.clients.count g +
        (arg.fileName == g && (acquires arg.opType && res.isOk)).toNat :=
      grantedLawful.receive_acquired (i := 0) res hfits rfl g
    have hok : (Stage.answered (res.bytes order left)).ok = res.isOk := rfl
    have hnot : (Stage.served j).ok = false := rfl
    have hold := h.owed g
    simp [Call.accepted, Call.unlocks, Stage.accepted] at haccepted
    simp only [Call.granted, hok, hnot, Bool.and_false, Bool.toNat_false] at hgranted
    rw [hop, acquires_code] at hcount
    show (s.calls.set arg.client ⟨arg.fileName, op, _⟩).countP (Call.granted g) ≤
      (granted.receive t.clients arg res).count g + (s.calls.set arg.client ⟨arg.fileName, op, _⟩).countP (Call.accepted g)
    rw [hcount]
    omega

/-- A caller that reports a lock has been granted it. -/
theorem Linked.read (h : Linked W empty s t) {i : Nat} (n : Nat) {f : FileName} {op : OpT} {bytes : List UInt8}
    (hc : s.calls[i]? = some ⟨f, op, .answered bytes⟩) :
    Linked W empty {s with calls := s.calls.set i ⟨f, op, .returned (mdMutexRes (bytes.take n))⟩} t := by
  refine ⟨h.reach, h.store, h.threads, ?_, h.stray, ?_, ?_⟩
  · intro j th hth hpc
    obtain ⟨op', hserved, hop⟩ := h.serves j th hth hpc
    have hne : i ≠ th.arg.client := by
      intro heq
      rw [← heq, hc] at hserved
      cases hserved
    exact ⟨op', by rw [List.getElem?_set_ne hne, hserved], hop⟩
  · intro g
    have htold := countP_set_add (Call.told g) hc ⟨f, op, .returned (mdMutexRes (bytes.take n))⟩
    have hunlocks := countP_set_add (Call.unlocks g) hc ⟨f, op, .returned (mdMutexRes (bytes.take n))⟩
    have hnot : (Call.told g ⟨f, op, .answered bytes⟩).toNat = 0 := by simp [Call.told, Stage.reported]
    simp [Call.unlocks] at hunlocks
    have := h.told g
    simp only [System.unlocks, System.told] at this ⊢
    omega
  · intro g
    have hgranted := countP_set_add (Call.granted g) hc ⟨f, op, .returned (mdMutexRes (bytes.take n))⟩
    have haccepted := countP_set_add (Call.accepted g) hc ⟨f, op, .returned (mdMutexRes (bytes.take n))⟩
    have hle : (Call.granted g ⟨f, op, .returned (mdMutexRes (bytes.take n))⟩).toNat ≤
        (Call.granted g ⟨f, op, .answered bytes⟩).toNat := by
      cases hnew : Call.granted g ⟨f, op, .returned (mdMutexRes (bytes.take n))⟩
      · exact Nat.zero_le _
      · simp only [Call.granted, Stage.ok, Bool.and_eq_true, beq_iff_eq] at hnew
        simp [Call.granted, Stage.ok, hnew.1, hnew.2.1, mdMutexRes_zero hnew.2.2]
    have hold := h.owed g
    simp [Call.accepted, Call.unlocks, Stage.accepted] at haccepted
    show (s.calls.set i _).countP (Call.granted g) ≤ t.clients.count g + (s.calls.set i _).countP (Call.accepted g)
    omega

/-- Every careful run is linked to a run of the server whose clients are granted locks. -/
theorem linked (W : V.Lawful) (hcurrent : ∀ s f l, current s f l → W.Current s f l)
    (h : Reach (machine V order empty) (Careful order current) s) : ∃ t, Linked W empty s t := by
  refine h.invariant (I := fun s => ∃ t, Linked W empty s t) ?_ ?_
  · intro s hstart
    obtain ⟨server, calls⟩ := s
    obtain ⟨rfl, rfl⟩ := hstart
    exact ⟨⟨empty, [], []⟩, .start ⟨rfl, rfl, rfl⟩, rfl, rfl, by simp, by simp, fun _ => Nat.le_refl _, fun _ => Nat.zero_le _⟩
  · intro s e s' hinv hrule (hnext : next V order s e = some s')
    obtain ⟨t, ht⟩ := hinv
    cases e with
    | call f op =>
      cases hnext
      exact ⟨t, ht.call hrule⟩
    | accept i n =>
      obtain ⟨f, op, hc, rfl⟩ := next_accept hnext hrule
      exact ht.accept hc
    | step j a =>
      obtain ⟨th, pc, store, hth, hfunc, rfl⟩ := next_step hnext
      exact ht.step hth hfunc fun l hl => hcurrent _ _ _ (hrule th hth l (by rw [hl]; rfl))
    | reply j left =>
      obtain ⟨arg, holder, res, c, hth, hc, rfl⟩ := next_reply hnext
      exact ht.reply left hth hc
    | read i n =>
      obtain ⟨f, op, bytes, hc, rfl⟩ := next_read hnext
      exact ⟨t, ht.read n hc⟩

end Linked

/-- **Mutual exclusion among the callers**, of the table server and of the hash server. In
every careful run no file is reported locked to a second caller before it has been called
to unlock for the first. -/
theorem callers_exclude (order : ByteOrder) (f : FileName) :
    (∀ s, Reach (machine Table.server order Table.mutexTableInit) (Careful order fun _ _ _ => True) s →
      s.told f ≤ s.unlocks f + 1) ∧
    (∀ s, Reach (machine Hash.server order Hash.mutexHashInit) (Careful order Hash.Serves) s →
      s.told f ≤ s.unlocks f + 1) := by
  refine ⟨fun s h => ?_, fun s h => ?_⟩
  · obtain ⟨t, ht⟩ := linked Table.lawful (fun _ _ l => l.elim) h
    exact ht.told_le_one Table.init_clear Table.init_view f
  · obtain ⟨t, ht⟩ := linked Hash.lawful (fun _ _ _ h => h) h
    exact ht.told_le_one ⟨_, Hash.init_shape⟩ Hash.init_view f

/-- A call has reported the lock that another waits for: of their packets only five bytes came,
and of the answer one. -/
theorem callers_exclude_waiting : ∃ (s : System Table.MutexTable Nat Empty) (f : FileName),
    Reach (machine Table.server .little Table.mutexTableInit) (Careful .little fun _ _ _ => True) s ∧
    s.calls = [⟨f, .lock, .returned 0⟩, ⟨f, .lock, .served 1⟩] ∧ s.told f ≤ s.unlocks f + 1 := by
  let f : FileName := ⟨[102], by decide, by decide⟩
  obtain ⟨s, hreach, hs⟩ := Reach.exists_run (M := machine Table.server .little Table.mutexTableInit)
    (R := Careful .little fun _ _ _ => True)
    [.call f .lock, .call f .lock, .accept 0 5, .accept 1 5, .step 0 (), .step 1 (), .step 0 (),
      .reply 0 (Vector.replicate 7 255), .read 0 1]
    (fun s => s.calls = [⟨f, .lock, .returned 0⟩, ⟨f, .lock, .served 1⟩])
    (.start (s := ⟨⟨Table.mutexTableInit, [], ()⟩, []⟩) ⟨rfl, rfl⟩) (by decide +kernel)
  exact ⟨s, f, hreach, of_decide_eq_true hs, (callers_exclude .little f).1 s hreach⟩

end Wire

end CacheFs.Mutex
