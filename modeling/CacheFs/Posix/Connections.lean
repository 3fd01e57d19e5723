import CacheFs.Library.Ownership
import CacheFs.Posix.PosixFunc

/-! The connections of an application.

Each call of the library has one connection at most, and closes no other. So a descriptor
that `_CreateFile` or `_OpenFile` has returned is that thread's connection for ever,
`_CloseFile` of it or not, and when all calls have returned the process has one descriptor
more for each of these, for each connection that was refused, and for each file removed
over descriptor 0 (`connections_kept`). -/
namespace CacheFs.Posix
open Interaction Descriptors Members Transition
open CacheFs.Namespace (CString)
open CacheFs.Xml (filePathLen)

/-! ### Programs -/

/-- What a call has been answered for a socket, whether its connection was refused, and the
descriptor it has. -/
structure Own where
  socket : Option Nat
  refused : Bool
  fd : Option Nat

def Own.none : Own := ⟨Option.none, false, Option.none⟩

/-- A socket is made first, the connection is through it, and it alone is closed. -/
def oneConnection : Protocol sockets Own where
  allowed := fun own call => match call with
    | .socket => own.fd = Option.none
    | .connect fd => fd = own.fd
    | .close fd => ∀ n ∈ fd, own.fd = some n
    | .sendOcrMsg _ _ | .recvRplMsg _ _ | .sendIoMsg _ _ | .recvBufMsg _ _ | .sendBufMsg _ _ _ => True
  after := fun own call a => match call, a with
    | .socket, fd => ⟨fd, own.refused, fd⟩
    | .connect _, connected => {own with refused := !connected}
    | .close fd, _ => {own with fd := if fd = Option.none then own.fd else Option.none}
    | .sendOcrMsg _ _, _ | .recvRplMsg _ _, _ | .sendIoMsg _ _, _ | .recvBufMsg _ _, _ | .sendBufMsg _ _ _, _ => own

/-- The descriptor that a call leaves open: one that it returns, one whose connection was refused,
and descriptor 0 when a file is removed. -/
def left (socket : Option Nat) (refused : Bool) : Result → Option Nat
  | .fd r => if refused then socket else r
  | .err _ => if refused ∨ socket = some 0 then socket else none

/-- How a call returns. -/
def Leaves (own : Own) (r : Result) : Prop :=
  own.fd = left own.socket own.refused r ∧ ∀ fd, r = .fd (some fd) → own.refused = false

section Programs
variable {h : SockMsgH} {stack : Stack} {path : CString}

theorem createFile_oneConnection (perm : UInt32) (mode : Int32) :
    (createFile h stack path perm mode >>= fun r => .ret (.fd r)).Follows oneConnection Leaves .none := by
  unfold createFile
  split
  · exact ⟨rfl, fun fd hfd => by cases hfd⟩
  · refine ⟨rfl, fun fd => ⟨rfl, fun connected => ?_⟩⟩
    cases connected with
    | false => exact ⟨rfl, fun fd hfd => by cases hfd⟩
    | true =>
      cases fd with
      | none => exact ⟨rfl, fun fd hfd => by cases hfd⟩
      | some fd =>
        have hclosed : ((close (some fd) >>= fun _ => .ret none) >>= fun r => .ret (.fd r)).Follows oneConnection Leaves
            ⟨some fd, false, some fd⟩ :=
          ⟨fun _ hn => hn, fun _ => ⟨rfl, fun fd hfd => by cases hfd⟩⟩
        refine ⟨trivial, fun sent => ?_⟩
        cases sent with
        | false => exact hclosed
        | true =>
          refine ⟨trivial, fun received => ?_⟩
          obtain ⟨received, rplMsg⟩ := received
          cases received with
          | false => exact hclosed
          | true =>
            show Prog.Follows oneConnection Leaves ((if rplMsg.errno ≠ h.rplOk then _ else _) >>= _) _
            split
            · exact hclosed
            · exact ⟨rfl, fun _ _ => rfl⟩

theorem removeOver_oneConnection (own : Own) (hfd : own.fd = own.socket) (rplMsg : RplMsg) (err : Int32) :
    (removeOver h rplMsg (if own.refused then none else own.socket) err >>= fun r => .ret (.err r)).Follows
      oneConnection Leaves own := by
  obtain ⟨socket, refused, fd⟩ := own
  obtain rfl : fd = socket := hfd
  unfold removeOver
  cases refused with
  | true =>
    show Prog.Follows oneConnection Leaves ((if (none : Option Nat) ≠ some 0 then _ else _) >>= _) _
    rw [if_pos (by simp)]
    refine ⟨fun n hn => (by cases hn), fun _ => ⟨?_, fun fd hfd => by cases hfd⟩⟩
    show fd = if true = true ∨ fd = some 0 then fd else none
    simp
  | false =>
    show Prog.Follows oneConnection Leaves ((if fd ≠ some 0 then _ else _) >>= _) _
    by_cases hzero : fd = some 0
    · rw [if_neg (not_not.mpr hzero)]
      refine ⟨?_, fun fd hfd => by cases hfd⟩
      show fd = if false = true ∨ fd = some 0 then fd else none
      simp [hzero]
    · rw [if_pos hzero]
      refine ⟨fun n hn => hn, fun _ => ⟨?_, fun fd hfd => by cases hfd⟩⟩
      show (if fd = none then fd else none) = if false = true ∨ fd = some 0 then fd else none
      simp [hzero]

theorem removeFile_oneConnection :
    (removeFile h stack path >>= fun r => .ret (.err r)).Follows oneConnection Leaves .none := by
  unfold removeFile
  split
  · exact ⟨rfl, fun fd hfd => by cases hfd⟩
  · refine ⟨rfl, fun fd => ⟨rfl, fun connected => ?_⟩⟩
    cases connected with
    | false => exact removeOver_oneConnection ⟨fd, true, fd⟩ rfl _ _
    | true =>
      cases fd with
      | none => exact removeOver_oneConnection ⟨none, false, none⟩ rfl _ _
      | some fd =>
        refine ⟨trivial, fun sent => ?_⟩
        cases sent with
        | false => exact removeOver_oneConnection ⟨some fd, false, some fd⟩ rfl _ _
        | true => exact ⟨trivial, fun received => removeOver_oneConnection ⟨some fd, false, some fd⟩ rfl _ _⟩

theorem closeFile_oneConnection (fd : Nat) :
    (closeFile h fd >>= fun r => .ret (.err r)).Follows oneConnection Leaves .none := by
  refine ⟨trivial, fun sent => ?_⟩
  cases sent <;> exact ⟨rfl, fun fd hfd => by cases hfd⟩

theorem readFile_oneConnection (fd : Nat) (count : UInt32) (offset : UInt64) :
    (readFile h stack fd count offset >>= fun r => .ret (.err r.1)).Follows oneConnection Leaves .none := by
  have hret (r : Int32) : (Prog.ret (.err r) : Program Result).Follows oneConnection Leaves .none :=
    ⟨rfl, fun fd hfd => by cases hfd⟩
  refine ⟨trivial, fun sent => ?_⟩
  cases sent with
  | false => exact hret _
  | true =>
    refine ⟨trivial, fun received => ?_⟩
    obtain ⟨received, rplMsg⟩ := received
    cases received with
    | false => exact hret _
    | true =>
      show Prog.Follows oneConnection Leaves ((if rplMsg.errno = h.rplOk then _ else _) >>= _) _
      split
      · exact ⟨trivial, fun got => hret _⟩
      · exact hret _

theorem writeFile_oneConnection (fd : Nat) (buf : List UInt8) (count : UInt32) (offset : UInt64) :
    (writeFile h stack fd buf count offset >>= fun r => .ret (.err r)).Follows oneConnection Leaves .none := by
  have hret (r : Int32) : (Prog.ret (.err r) : Program Result).Follows oneConnection Leaves .none :=
    ⟨rfl, fun fd hfd => by cases hfd⟩
  refine ⟨trivial, fun sent => ?_⟩
  cases sent with
  | false => exact hret _
  | true =>
    refine ⟨trivial, fun put => ?_⟩
    show Prog.Follows oneConnection Leaves ((if put ≤ 0 then _ else _) >>= _) _
    split
    · exact hret _
    · refine ⟨trivial, fun received => ?_⟩
      obtain ⟨received, rplMsg⟩ := received
      cases received <;> exact hret _

theorem Request.oneConnection (r : Request) : (r.program h stack).Follows Posix.oneConnection Leaves .none := by
  cases r with
  | createFile path perm mode => exact createFile_oneConnection perm mode
  | openFile path mode => exact createFile_oneConnection 0 mode
  | closeFile fd => exact closeFile_oneConnection fd
  | removeFile path => exact removeFile_oneConnection
  | readFile fd count offset => exact readFile_oneConnection fd count offset
  | writeFile fd buf count offset => exact writeFile_oneConnection fd buf count offset

end Programs

/-! ### Threads -/

/-- The thread has this descriptor, and goes on with it as the protocol says. -/
def Thread.Has (th : Thread) (fd : Option Nat) : Prop :=
  th.prog.Follows oneConnection Leaves ⟨th.socket, th.refused, fd⟩

/-- The descriptors of the process besides the first are those of its threads. -/
def Accounted (t₀ : Table) (s : State) : Prop :=
  ∃ held, List.Forall₂ Thread.Has s.threads held ∧ Owned t₀ s.table held

/-- A call of the system by a thread that has a descriptor or not. -/
theorem Accounted.call {m : Messages} (hm : m.KeepDescriptors) {t₀ t t' : Table} {th th' : Thread}
    {held : List (Option Nat)} {i : Nat} {fd : Option Nat} {e : Luck} (howned : Owned t₀ t held) (hi : held[i]? = some fd)
    (hhas : th.Has fd) (hcall : th.call m e t = some (th', t')) :
    ∃ fd', th'.Has fd' ∧ Owned t₀ t' (held.set i fd') := by
  obtain ⟨prog, sock, refused⟩ := th
  cases prog with
  | ret r => cases hcall
  | call c k =>
    obtain ⟨hallowed, hnext⟩ := hhas
    have hsame : Owned t₀ t (held.set i fd) := by rwa [set_same hi]
    cases c with
    | socket =>
      obtain rfl : fd = none := hallowed
      cases hok : e.ok with
      | false =>
        simp only [Thread.call, serve, hok, Bool.false_eq_true, if_false, Option.some.injEq, Prod.mk.injEq] at hcall
        obtain ⟨rfl, rfl⟩ := hcall
        exact ⟨none, hnext none, hsame⟩
      | true =>
        simp only [Thread.call, serve, hok, if_true, Option.some.injEq, Prod.mk.injEq] at hcall
        obtain ⟨rfl, rfl⟩ := hcall
        exact ⟨some t.lowest, hnext (some t.lowest), howned.open hi _⟩
    | close n =>
      cases hcall
      cases n with
      | none => exact ⟨fd, hnext (), hsame⟩
      | some n =>
        obtain rfl : fd = some n := hallowed n rfl
        exact ⟨none, hnext (), howned.close hi⟩
    | connect n =>
      cases hcall
      exact ⟨fd, hnext _, hsame⟩
    | sendOcrMsg a msg =>
      cases hcall
      exact ⟨fd, hnext _, (hm.sendOcrMsg a msg e t).symm ▸ hsame⟩
    | recvRplMsg a rplMsg =>
      cases hcall
      exact ⟨fd, hnext _, (hm.recvRplMsg a rplMsg e t).symm ▸ hsame⟩
    | sendIoMsg a msg =>
      cases hcall
      exact ⟨fd, hnext _, (hm.sendIoMsg a msg e t).symm ▸ hsame⟩
    | recvBufMsg a count =>
      cases hcall
      exact ⟨fd, hnext _, (hm.recvBufMsg a count e t).symm ▸ hsame⟩
    | sendBufMsg a buf count =>
      cases hcall
      exact ⟨fd, hnext _, (hm.sendBufMsg a buf count e t).symm ▸ hsame⟩

theorem Accounted.step {h : SockMsgH} {m : Messages} (hm : m.KeepDescriptors) {t₀ : Table} {s s' : State} {mv : Move}
    (hs : Accounted t₀ s) (hstep : next h m s mv = some s') : Accounted t₀ s' := by
  obtain ⟨held, hhas, howned⟩ := hs
  cases mv with
  | start r stack =>
    cases hstep
    exact ⟨held ++ [none], forall₂_append_one hhas r.oneConnection, howned.append⟩
  | call i e =>
    obtain ⟨th, hi, hstep⟩ := Option.bind_eq_some_iff.mp hstep
    obtain ⟨⟨th', t'⟩, hcall, hstep⟩ := Option.bind_eq_some_iff.mp hstep
    cases hstep
    obtain ⟨fd, hfd, hthread⟩ := forall₂_getElem? hhas hi
    obtain ⟨fd', hthread', howned'⟩ := Accounted.call hm howned hfd hthread hcall
    exact ⟨held.set i fd', forall₂_set hhas i hthread', howned'⟩

/-- What the call has returned, if it has. -/
def Thread.result (th : Thread) : Option Result :=
  match th.prog with
  | .ret r => some r
  | .call _ _ => none

/-- What a call that has returned leaves open. -/
def Thread.left (th : Thread) : Option Nat := th.result.bind (Posix.left th.socket th.refused)

theorem Thread.Has.returned {th : Thread} {fd : Option Nat} {r : Result} (h : th.Has fd) (hr : th.result = some r) :
    Leaves ⟨th.socket, th.refused, fd⟩ r := by
  obtain ⟨prog, sock, refused⟩ := th
  cases prog with
  | ret r' =>
    cases hr
    exact h
  | call => cases hr

/-- When all calls have returned, what they have is what they leave. -/
theorem held_eq_left {threads : List Thread} {held : List (Option Nat)} (h : List.Forall₂ Thread.Has threads held)
    (hreturned : ∀ th ∈ threads, th.result.isSome) : held = threads.map Thread.left := by
  induction h with
  | nil => rfl
  | @cons th fd threads held hhas _ ih =>
    obtain ⟨r, hr⟩ := Option.isSome_iff_exists.mp (hreturned th List.mem_cons_self)
    have hfd : fd = th.left := by
      rw [Thread.left, hr]
      exact (hhas.returned hr).1
    rw [List.map_cons, ← hfd, ih fun th hth => hreturned th (List.mem_cons_of_mem _ hth)]

/-- **Connections are kept** when the functions of `sock_msg.h` open and close nothing: whatever the
threads of an application call, and whatever fails, the
descriptors it had refer to what they did; one that was returned to a thread is still open, and
was to no other; and when all calls have returned there is one more descriptor for each that was
returned, each whose connection was refused, and each file removed over descriptor 0. -/
theorem connections_kept {h : SockMsgH} {m : Messages} (hm : m.KeepDescriptors) {t₀ : Table} {s : State}
    (hreach : Reachable (application h m t₀) s) :
    (∀ fd, t₀.file fd ≠ none → s.table.file fd = t₀.file fd) ∧
    (∀ (i : Nat) (th : Thread) (fd : Nat), s.threads[i]? = some th → th.result = some (.fd (some fd)) →
      s.table.file fd ≠ none ∧ t₀.file fd = none ∧
        ∀ (j : Nat) (th' : Thread), s.threads[j]? = some th' → th'.result = some (.fd (some fd)) → i = j) ∧
    ((∀ th ∈ s.threads, th.result.isSome) → s.table.count = t₀.count + s.threads.countP fun th => th.left.isSome) := by
  have haccounted : Accounted t₀ s := by
    refine hreach.invariant ?_ fun s mv s' hs _ hstep => hs.step hm hstep
    rintro _ rfl
    exact ⟨[], .nil, .nil t₀⟩
  obtain ⟨held, hhas, howned⟩ := haccounted
  have hheld (i : Nat) (th : Thread) (fd : Nat) (hi : s.threads[i]? = some th) (hr : th.result = some (.fd (some fd))) :
      held[i]? = some (some fd) := by
    obtain ⟨fd', hfd', hthread⟩ := forall₂_getElem? hhas hi
    obtain ⟨hleft, hrefused⟩ := hthread.returned hr
    have hleft' : fd' = if th.refused then th.socket else some fd := hleft
    have hrefused' : th.refused = false := hrefused fd rfl
    rw [hfd', hleft', hrefused', if_neg (by simp)]
  refine ⟨howned.kept, fun i th fd hi hr => ?_, fun hreturned => ?_⟩
  · obtain ⟨hused, hfirst⟩ := howned.used (hheld i th fd hi hr)
    exact ⟨hused, hfirst, fun j th' hj hr' => howned.unique (hheld i th fd hi hr) (hheld j th' fd hj hr')⟩
  · rw [howned.count_eq, held_eq_left hhas hreturned, List.countP_map]
    rfl

/-- A file is created, and its descriptor is still there when it was closed. -/
theorem connections_kept_closed : ∃ h m t₀ s, m.KeepDescriptors ∧ Reachable (application h m t₀) s ∧
    s.threads.map Thread.result = [some (.fd (some t₀.lowest)), some (.err 0)] ∧ s.table.file t₀.lowest ≠ none ∧
      s.table.count = t₀.count + 1 := by
  let h : SockMsgH := ⟨0, 1, 2, 3, 71, 72⟩
  let m : Messages := ⟨fun _ _ e t => (e.ok, t), fun _ _ e t => ((e.ok, e.rplMsg), t), fun _ _ e t => (e.ok, t),
    fun _ _ e t => ((e.count, e.buf), t), fun _ _ _ e t => (e.count, t)⟩
  have hm : m.KeepDescriptors := ⟨fun _ _ _ _ => rfl, fun _ _ _ _ => rfl, fun _ _ _ _ => rfl, fun _ _ _ _ => rfl,
    fun _ _ _ _ _ => rfl⟩
  let t₀ : Table := ⟨fun _ => none, 0, fun _ _ => rfl⟩
  let stack : Stack := ⟨Xml.bzero filePathLen, ⟨0, 0⟩, 0⟩
  let luck : Luck := ⟨true, 0, ⟨71, 0⟩, 1, []⟩
  let threads : List Thread := [⟨.ret (.fd (some t₀.lowest)), some t₀.lowest, false⟩, ⟨.ret (.err 0), none, false⟩]
  have hstart : Reachable (application h m t₀) ⟨t₀, []⟩ := .start rfl
  have hcreate : Reachable (application h m t₀) _ :=
    .step (a := .start (.createFile ⟨[120], by decide⟩ 0 0) stack) hstart trivial rfl
  have hclose : Reachable (application h m t₀) _ := .step (a := .start (.closeFile t₀.lowest) stack) hcreate trivial rfl
  have hsocket : Reachable (application h m t₀) _ := .step (a := .call 0 luck) hclose trivial rfl
  have hconnect : Reachable (application h m t₀) _ := .step (a := .call 0 luck) hsocket trivial rfl
  have hsend : Reachable (application h m t₀) _ := .step (a := .call 0 luck) hconnect trivial rfl
  have hrecv : Reachable (application h m t₀) _ := .step (a := .call 0 luck) hsend trivial rfl
  have hclosed : Reachable (application h m t₀) ⟨t₀.set t₀.lowest (some (.other 0)), threads⟩ :=
    .step (a := .call 1 luck) hrecv trivial rfl
  obtain ⟨-, hopen, hcount⟩ := connections_kept hm hclosed
  refine ⟨h, m, t₀, _, hm, hclosed, rfl, (hopen 0 _ t₀.lowest rfl rfl).1, ?_⟩
  refine (hcount fun th hth => ?_).trans ?_
  · obtain rfl | rfl := List.mem_pair.mp hth <;> rfl
  · rfl

end CacheFs.Posix
