import CacheFs.Library.Transition

/-! The lock protocol: what a client asks, what a server answers, and the thread
that serves one request.

The two lock servers (`md_mutex_server_process.c` and `new_md_mutex_server.c`)
run the same `thread_func`; what differs is the table of locks behind it. A
`Server` is that table, as the functions `thread_func` calls on it, and
`threadFunc` is one step of the thread: the lookup, the pthread call of the
`switch`, the put. The reply is left to the machine of all threads
(`CacheFs.Mutex.Run`), which also has the clients. -/
namespace CacheFs.Mutex

/-- `MAX_PATH`: the bytes of a file name, its terminator included. -/
def maxPath : Nat := 260

/-- A file name as the packets carry it: a C string that fits its field. -/
structure FileName where
  bytes : List UInt8
  terminated : 0 ∉ bytes
  fits : bytes.length < maxPath
  deriving DecidableEq

/-! ### Requests and replies -/

/-- `op_t`, in the `char` that `thread_arg` keeps it in. -/
def mdLock : UInt8 := 0
def mdTryLock : UInt8 := 1
def mdUnlock : UInt8 := 2

/-- The operations whose lookup takes a reference. -/
def acquires (opType : UInt8) : Bool := opType == mdLock || opType == mdTryLock

/-- `fail_t`. -/
inductive FailT where
  | globMutexLockFail
  | globMutexUnlockFail
  | allocMutexFail
  | lockFail
  | tryLockFail
  | unlockFail
  | unrecognizedOpType
  deriving DecidableEq

/-- `md_mutex_res_packet`. The server writes `why_fail` only when it refuses. -/
structure ResPacket where
  okOrNot : UInt8
  whyFail : Option FailT
  deriving DecidableEq

namespace ResPacket

/-- `OK`, with `why_fail` as `malloc` left it. -/
def ok : ResPacket := ⟨1, none⟩

/-- `NOT_OK` and the reason. -/
def notOk (why : FailT) : ResPacket := ⟨0, some why⟩

/-- What a client tests. -/
def isOk (res : ResPacket) : Bool := res.okOrNot == 1

@[simp] theorem isOk_ok : ok.isOk = true := rfl

@[simp] theorem isOk_notOk (why : FailT) : (notOk why).isOk = false := rfl

end ResPacket

/-- `thread_arg`. The client stands for `client_sock_fd`, the connection that the
reply goes to. -/
structure ThreadArg where
  opType : UInt8
  client : Nat
  fileName : FileName
  deriving DecidableEq

/-! ### The calls on `p_mutex` -/

/-- What the three pthread calls do to the flag of a mutex: the return code and the
flag after the call, or nothing while the call does not return. -/
structure Pthread where
  lock : Bool → Option (Nat × Bool)
  trylock : Bool → Option (Nat × Bool)
  unlock : Bool → Option (Nat × Bool)

/-- `EBUSY`. -/
def ebusy : Nat := 16

/-- A flag that `lock` waits for and sets, `trylock` sets or refuses, and `unlock`,
from any thread, clears. -/
def flagMutex : Pthread where
  lock := fun taken => if taken then none else some (0, true)
  trylock := fun taken => if taken then some (ebusy, taken) else some (0, true)
  unlock := fun _ => some (0, false)

/-! ### The thread -/

/-- What `thread_func` calls on its table of locks, over stores `S`, pointers `P`,
what a lookup reads before it takes `glob_mutex` (`L`) and what the allocator
answers (`A`). A call that is undefined in C, or that ends the process, has no
result. -/
structure Server (S P L A : Type) where
  /-- What the lookup reads before it takes `glob_mutex`, if it reads anything. -/
  peek : S → FileName → Option L
  /-- `get_z_mutex` or `get_zz_mutex` under `glob_mutex`; a null pointer is `none`. -/
  get : S → FileName → UInt8 → Option L → A → Option (Option P × S)
  /-- The flag of the `p_mutex` behind a pointer. -/
  mutex : S → P → Option Bool
  setMutex : S → P → Bool → S
  /-- `put_z_mutex` or `put_zz_mutex`. -/
  put : S → P → Option S

/-- Where a thread is in `thread_func`. -/
inductive Pc (P L : Type) where
  /-- In the lookup, with what it has read before `glob_mutex`. -/
  | get (seen : Option L)
  /-- At the `switch`, with the pointer the lookup gave. -/
  | call (m : P)
  /-- At the put, with the answer decided. -/
  | put (m : P) (res : ResPacket)
  /-- At the write of the answer. -/
  | reply (res : ResPacket)
  | exited
  deriving DecidableEq

variable {S P L A : Type}

/-- Where a thread goes with the pointer its lookup gave: a null is answered at once, any
other goes on to the `switch`. -/
def afterGet : Option P → Pc P L
  | none => .reply (.notOk .allocMutexFail)
  | some m => .call m

@[simp] theorem afterGet_none : (afterGet none : Pc P L) = .reply (.notOk .allocMutexFail) := rfl

@[simp] theorem afterGet_some (m : P) : (afterGet (some m) : Pc P L) = .call m := rfl

namespace Server

/-- The lookup and the test of its result. -/
def lookup (V : Server S P L A) (arg : ThreadArg) (seen : Option L) (a : A) (s : S) :
    Option (Pc P L × S) :=
  (V.get s arg.fileName arg.opType seen a).map fun (m, s') => (afterGet m, s')

/-- A pthread call on the mutex behind `m`. -/
def pthreadCall (V : Server S P L A) (f : Bool → Option (Nat × Bool)) (m : P) (s : S) :
    Option (Nat × S) := do
  let flag ← V.mutex s m
  let (rc, flag') ← f flag
  some (rc, V.setMutex s m flag')

/-- The `switch` on the operation. -/
def call (V : Server S P L A) (pt : Pthread) (arg : ThreadArg) (m : P) (s : S) :
    Option (Pc P L × S) :=
  if arg.opType = mdLock then
    (V.pthreadCall pt.lock m s).map fun (rc, s') =>
      (if rc ≠ 0 then .put m (.notOk .lockFail) else .reply .ok, s')
  else if arg.opType = mdTryLock then
    (V.pthreadCall pt.trylock m s).map fun (rc, s') =>
      (if rc ≠ 0 then .put m (.notOk .tryLockFail) else .reply .ok, s')
  else if arg.opType = mdUnlock then
    (V.pthreadCall pt.unlock m s).map fun (rc, s') =>
      (if rc = 0 then .put m .ok else .reply (.notOk .unlockFail), s')
  else
    some (.reply (.notOk .unrecognizedOpType), s)

/-- One step of `thread_func` up to its reply. -/
def threadFunc (V : Server S P L A) (pt : Pthread) (arg : ThreadArg) (a : A) (s : S) :
    Pc P L → Option (Pc P L × S)
  | .get none =>
    match V.peek s arg.fileName with
    | some l => some (.get (some l), s)
    | none => V.lookup arg none a s
  | .get (some l) => V.lookup arg (some l) a s
  | .call m => V.call pt arg m s
  | .put m res => (V.put s m).map fun s' => (.reply res, s')
  | .reply _ => none
  | .exited => none

/-- A step is a peek, a lookup, the pthread call or the put. -/
theorem threadFunc_cases {V : Server S P L A} {pt : Pthread} {arg : ThreadArg} {a : A} {s s' : S}
    {pc pc' : Pc P L} (h : V.threadFunc pt arg a s pc = some (pc', s')) :
    (∃ l, pc = .get none ∧ V.peek s arg.fileName = some l ∧ pc' = .get (some l) ∧ s' = s) ∨
    (∃ seen, pc = .get seen ∧ (seen = none → V.peek s arg.fileName = none) ∧
      V.lookup arg seen a s = some (pc', s')) ∨
    (∃ m, pc = .call m ∧ V.call pt arg m s = some (pc', s')) ∨
    (∃ m res, pc = .put m res ∧ V.put s m = some s' ∧ pc' = .reply res) := by
  cases pc with
  | get seen =>
    cases seen with
    | none =>
      simp only [threadFunc] at h
      split at h
      · rename_i l hl
        cases h
        exact .inl ⟨l, rfl, hl, rfl, rfl⟩
      · rename_i hl
        exact .inr (.inl ⟨none, rfl, fun _ => hl, h⟩)
    | some l => exact .inr (.inl ⟨some l, rfl, fun hnone => absurd hnone (by simp), h⟩)
  | call m => exact .inr (.inr (.inl ⟨m, rfl, h⟩))
  | put m res =>
    simp only [threadFunc, Option.map_eq_some_iff, Prod.mk.injEq] at h
    obtain ⟨_, hput, rfl, rfl⟩ := h
    exact .inr (.inr (.inr ⟨m, res, rfl, hput, rfl⟩))
  | reply _ => cases h
  | exited => cases h

/-- A lookup is what the table gives. -/
theorem lookup_eq_some {V : Server S P L A} {arg : ThreadArg} {seen : Option L} {a : A} {s s' : S}
    {pc : Pc P L} : V.lookup arg seen a s = some (pc, s') ↔
      ∃ r, V.get s arg.fileName arg.opType seen a = some (r, s') ∧ pc = afterGet r := by
  simp only [lookup, Option.map_eq_some_iff, Prod.exists, Prod.mk.injEq]
  constructor
  · intro h
    obtain ⟨r, s₁, hget, rfl, rfl⟩ := h
    exact ⟨r, hget, rfl⟩
  · intro h
    obtain ⟨r, hget, rfl⟩ := h
    exact ⟨r, s', hget, rfl, rfl⟩

/-- What the `switch` does when `p_mutex` is a flag: it takes a free lock, refuses a
`MD_TRY_LOCK` of a taken one, frees a lock, or answers an operation it does not know. -/
theorem call_cases {V : Server S P L A} {arg : ThreadArg} {m : P} {s s' : S} {pc : Pc P L}
    (h : V.call flagMutex arg m s = some (pc, s')) :
    (acquires arg.opType = true ∧ V.mutex s m = some false ∧ s' = V.setMutex s m true ∧ pc = .reply .ok) ∨
    (acquires arg.opType = true ∧ V.mutex s m = some true ∧ s' = V.setMutex s m true ∧
      pc = .put m (.notOk .tryLockFail)) ∨
    (arg.opType = mdUnlock ∧ (∃ taken, V.mutex s m = some taken) ∧ s' = V.setMutex s m false ∧
      pc = .put m .ok) ∨
    (acquires arg.opType = false ∧ arg.opType ≠ mdUnlock ∧ s' = s ∧
      pc = .reply (.notOk .unrecognizedOpType)) := by
  simp only [call, pthreadCall] at h
  split at h
  · rename_i hop
    cases hm : V.mutex s m with
    | none => simp [hm] at h
    | some taken =>
      cases taken
      · simp [hm, flagMutex] at h
        exact .inl ⟨by simp [acquires, hop], rfl, h.2.symm, h.1.symm⟩
      · simp [hm, flagMutex] at h
  · split at h
    · rename_i hop
      cases hm : V.mutex s m with
      | none => simp [hm] at h
      | some taken =>
        cases taken
        · simp [hm, flagMutex] at h
          exact .inl ⟨by simp [acquires, hop], rfl, h.2.symm, h.1.symm⟩
        · simp [hm, flagMutex, ebusy] at h
          exact .inr (.inl ⟨by simp [acquires, hop], rfl, h.2.symm, h.1.symm⟩)
    · split at h
      · rename_i hop
        cases hm : V.mutex s m with
        | none => simp [hm] at h
        | some taken =>
          simp [hm, flagMutex] at h
          exact .inr (.inr (.inl ⟨hop, ⟨taken, rfl⟩, h.2.symm, h.1.symm⟩))
      · rename_i hlock htry hunlock
        cases h
        exact .inr (.inr (.inr ⟨by simp [acquires, hlock, htry], hunlock, rfl, rfl⟩))

/-- A free lock is taken. -/
theorem call_free {V : Server S P L A} {arg : ThreadArg} {m : P} {s : S}
    (hop : acquires arg.opType = true) (hm : V.mutex s m = some false) :
    V.call flagMutex arg m s = some (.reply .ok, V.setMutex s m true) := by
  simp only [acquires, Bool.or_eq_true, beq_iff_eq] at hop
  rcases hop with hop | hop <;> simp [call, pthreadCall, hm, hop, flagMutex, mdLock, mdTryLock]

/-- A try for a taken lock is refused. -/
theorem call_taken {V : Server S P L A} {arg : ThreadArg} {m : P} {s : S}
    (hop : arg.opType = mdTryLock) (hm : V.mutex s m = some true) :
    V.call flagMutex arg m s = some (.put m (.notOk .tryLockFail), V.setMutex s m true) := by
  simp [call, pthreadCall, hm, hop, flagMutex, ebusy, mdLock, mdTryLock]

/-- A release frees the lock. -/
theorem call_unlock {V : Server S P L A} {arg : ThreadArg} {m : P} {s : S} {taken : Bool}
    (hop : arg.opType = mdUnlock) (hm : V.mutex s m = some taken) :
    V.call flagMutex arg m s = some (.put m .ok, V.setMutex s m false) := by
  simp [call, pthreadCall, hm, hop, flagMutex, mdLock, mdTryLock, mdUnlock]

/-- The steps of one thread with no other in between, up to its reply. -/
def uninterrupted (V : Server S P L A) (pt : Pthread) (arg : ThreadArg) (a : A) :
    Nat → S → Pc P L → Option (ResPacket × S)
  | _, s, .reply res => some (res, s)
  | 0, _, _ => none
  | n + 1, s, pc => do
    let (pc', s') ← V.threadFunc pt arg a s pc
    V.uninterrupted pt arg a n s' pc'

/-- A request handled to completion before the next: the peek, the lookup, the call
and the put are at most four steps. -/
def serve (V : Server S P L A) (pt : Pthread) (arg : ThreadArg) (a : A) (s : S) :
    Option (ResPacket × S) :=
  V.uninterrupted pt arg a 4 s (.get none)

end Server

end CacheFs.Mutex
