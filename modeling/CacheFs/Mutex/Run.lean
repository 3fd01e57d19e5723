import CacheFs.Library.Members
import CacheFs.Library.Registry
import CacheFs.Mutex.Protocol

/-! A lock server at work: any number of request threads, interleaved step by
step, and the clients that send the requests.

The server is a parameter, and so are the clients: what they may send, and what a
reply does to them. A request that gives back a lock its client holds is marked
when it is sent (`holder`), so that the threads in progress and the clients
together say who has what: `holders` counts the acquisitions of a file that are
not yet released, `users` the references to its entry that are not yet put
back. -/
namespace CacheFs.Mutex
open Transition Registry Members

/-- A request thread. `holder` marks an `MD_UNLOCK` whose client held the lock. -/
structure Thread (P L : Type) where
  arg : ThreadArg
  holder : Bool
  pc : Pc P L
  deriving DecidableEq

/-- The clients of a server. `send` refuses a request that the clients do not make,
and says of one they make whether it gives back a lock. -/
structure Clients (C : Type) where
  send : C → ThreadArg → Option (C × Bool)
  receive : C → ThreadArg → ResPacket → C

structure State (S P L C : Type) where
  store : S
  threads : List (Thread P L)
  clients : C

inductive Move (A : Type) where
  /-- `main` reads a request and starts its thread. -/
  | accept (arg : ThreadArg)
  /-- The next step of a thread before its reply. -/
  | step (i : Nat) (a : A)
  /-- A thread writes its reply and exits. -/
  | reply (i : Nat)

variable {S P L A C : Type}

def next (V : Server S P L A) (K : Clients C) (s : State S P L C) :
    Move A → Option (State S P L C)
  | .accept arg =>
    (K.send s.clients arg).map fun (clients, holder) =>
      {s with threads := s.threads ++ [⟨arg, holder, .get none⟩], clients := clients}
  | .step i a => do
    let th ← s.threads[i]?
    let (pc, store) ← V.threadFunc flagMutex th.arg a s.store th.pc
    some {s with store := store, threads := s.threads.set i {th with pc := pc}}
  | .reply i =>
    match s.threads[i]? with
    | some ⟨arg, holder, .reply res⟩ =>
      some {s with
        threads := s.threads.set i ⟨arg, holder, .exited⟩
        clients := K.receive s.clients arg res}
    | _ => none

/-- The machine of a server with its clients. -/
def machine (V : Server S P L A) (K : Clients C) (empty : S) (fresh : C → Prop) :
    Machine (State S P L C) (Move A) where
  start := fun s => s.store = empty ∧ s.threads = [] ∧ fresh s.clients
  step := next V K

theorem next_accept {V : Server S P L A} {K : Clients C} {s s' : State S P L C} {arg : ThreadArg}
    (h : next V K s (.accept arg) = some s') :
    ∃ clients holder, K.send s.clients arg = some (clients, holder) ∧
      s' = {s with threads := s.threads ++ [⟨arg, holder, .get none⟩], clients := clients} := by
  simp only [next, Option.map_eq_some_iff] at h
  obtain ⟨⟨clients, holder⟩, hsend, hs⟩ := h
  exact ⟨clients, holder, hsend, hs.symm⟩

theorem next_step {V : Server S P L A} {K : Clients C} {s s' : State S P L C} {i : Nat} {a : A}
    (h : next V K s (.step i a) = some s') :
    ∃ th pc store, s.threads[i]? = some th ∧
      V.threadFunc flagMutex th.arg a s.store th.pc = some (pc, store) ∧
      s' = {s with store := store, threads := s.threads.set i {th with pc := pc}} := by
  simp only [next, Option.bind_eq_bind, Option.bind_eq_some_iff, Option.some.injEq] at h
  obtain ⟨th, hth, ⟨pc, store⟩, hfunc, hs⟩ := h
  exact ⟨th, pc, store, hth, hfunc, hs.symm⟩

theorem next_reply {V : Server S P L A} {K : Clients C} {s s' : State S P L C} {i : Nat}
    (h : next V K s (.reply i) = some s') :
    ∃ arg holder res, s.threads[i]? = some ⟨arg, holder, .reply res⟩ ∧
      s' = {s with
        threads := s.threads.set i ⟨arg, holder, .exited⟩
        clients := K.receive s.clients arg res} := by
  simp only [next] at h
  split at h
  · rename_i arg holder res hth
    exact ⟨arg, holder, res, hth, (Option.some.inj h).symm⟩
  · cases h

/-! ### Who has what -/

/-- The thread keeps a reference to the entry of `f` that it or a later thread puts back. -/
def Thread.uses (f : FileName) (th : Thread P L) : Bool :=
  th.arg.fileName == f &&
    match th.pc with
    | .get _ => th.arg.opType == mdUnlock && th.holder
    | .call _ => acquires th.arg.opType || (th.arg.opType == mdUnlock && th.holder)
    | .put _ _ => true
    | .reply res => acquires th.arg.opType && res.isOk
    | .exited => false

/-- The thread has the lock of `f`: it has taken it and not yet told its client, or
is to release it and has not yet done so. -/
def Thread.holds (f : FileName) (th : Thread P L) : Bool :=
  th.arg.fileName == f &&
    match th.pc with
    | .get _ | .call _ => th.arg.opType == mdUnlock && th.holder
    | .put _ _ => false
    | .reply res => acquires th.arg.opType && res.isOk
    | .exited => false

/-- The requests in progress, each at the place of its thread. -/
def pending (threads : List (Thread P L)) : List (Option ThreadArg) :=
  threads.map fun th =>
    match th.pc with
    | .exited => none
    | _ => some th.arg

/-- What makes clients well-behaved: `acquired` counts the locks of a file that they
have been granted and have not asked to release. It drops by one with each request
that gives a lock back and grows by one with each grant. `Fits` is what the clients
know of the requests in progress. -/
structure Clients.Lawful (K : Clients C) where
  Fits : C → List (Option ThreadArg) → Prop
  acquired : C → FileName → Nat
  send_fits : ∀ {c c' args arg holder}, Fits c args → K.send c arg = some (c', holder) →
    Fits c' (args ++ [some arg])
  send_acquired : ∀ {c c' args arg holder}, Fits c args → K.send c arg = some (c', holder) →
    ∀ f, acquired c f = acquired c' f +
      (arg.fileName == f && (arg.opType == mdUnlock && holder)).toNat
  receive_fits : ∀ {c args arg} {i : Nat} (res : ResPacket), Fits c args → args[i]? = some (some arg) →
    Fits (K.receive c arg res) (args.set i none)
  receive_acquired : ∀ {c args arg} {i : Nat} (res : ResPacket), Fits c args → args[i]? = some (some arg) →
    ∀ f, acquired (K.receive c arg res) f = acquired c f +
      (arg.fileName == f && (acquires arg.opType && res.isOk)).toNat

variable {K : Clients C}

/-- The references to the entry of `f`. -/
def users (Q : K.Lawful) (s : State S P L C) (f : FileName) : Nat :=
  Q.acquired s.clients f + s.threads.countP (Thread.uses f)

/-- The acquisitions of `f` not yet released. -/
def holders (Q : K.Lawful) (s : State S P L C) (f : FileName) : Nat :=
  Q.acquired s.clients f + s.threads.countP (Thread.holds f)

/-! ### Clients that unlock what they hold -/

/-- Clients, each with the files it has been granted and not asked to release; an
`MD_UNLOCK` is sent only by a client that holds the file, once for each grant. -/
def disciplined : Clients (List (Nat × FileName)) where
  send := fun held arg =>
    if arg.opType = mdUnlock then
      if (arg.client, arg.fileName) ∈ held then
        some (held.erase (arg.client, arg.fileName), true)
      else none
    else some (held, false)
  receive := fun held arg res =>
    if acquires arg.opType && res.isOk then (arg.client, arg.fileName) :: held else held

/-- The grants of a file. -/
def grants (held : List (Nat × FileName)) (f : FileName) : Nat := held.countP (·.2 == f)

/-- Clients that unlock what they hold are lawful. -/
def disciplinedLawful : disciplined.Lawful where
  Fits := fun _ _ => True
  acquired := grants
  send_fits := fun _ _ => trivial
  send_acquired := by
    intro held held' _ arg holder _ h f
    simp only [disciplined] at h
    split at h
    · rename_i hop
      split at h
      · rename_i hmem
        cases h
        have hcount := List.countP_erase (·.2 == f) held (arg.client, arg.fileName)
        have hpos : (arg.fileName == f) = true → 0 < held.countP (·.2 == f) := fun hf =>
          List.countP_pos_iff.mpr ⟨_, hmem, hf⟩
        simp only [grants, hcount, hop, hmem, true_and, beq_self_eq_true, Bool.and_self, Bool.and_true]
        cases hf : arg.fileName == f
        · simp
        · have := hpos hf
          simp only [if_true, Bool.toNat_true]
          omega
      · cases h
    · cases h
      simp
  receive_fits := fun _ _ _ => trivial
  receive_acquired := by
    intro held _ arg _ res _ _ f
    simp only [disciplined]
    cases acquires arg.opType && res.isOk <;> cases hf : arg.fileName == f <;>
      simp [grants, hf]

/-- The client has the lock of the file: it holds it, or a thread serves the request
that took it or that is to release it. -/
def Holds (s : State S P L (List (Nat × FileName))) (client : Nat) (f : FileName) : Prop :=
  (client, f) ∈ s.clients ∨ ∃ th ∈ s.threads, th.arg.client = client ∧ th.holds f = true

/-- Each client that has the lock of a file is one of its holders. -/
theorem Holds.holders_pos {s : State S P L (List (Nat × FileName))} {c : Nat} {f : FileName}
    (h : Holds s c f) : 0 < holders disciplinedLawful s f := by
  obtain h | ⟨th, hth, _, hh⟩ := h
  · exact Nat.add_pos_left (List.countP_pos_iff.mpr ⟨_, h, beq_self_eq_true f⟩) _
  · exact Nat.add_pos_right _ (List.countP_pos_iff.mpr ⟨th, hth, hh⟩)

/-- With at most one acquisition of a file, at most one client has its lock. -/
theorem Holds.eq {s : State S P L (List (Nat × FileName))} {f : FileName}
    (hone : holders disciplinedLawful s f ≤ 1) {c₁ c₂ : Nat} (h₁ : Holds s c₁ f)
    (h₂ : Holds s c₂ f) : c₁ = c₂ := by
  have granted {c : Nat} (hc : (c, f) ∈ s.clients) : 0 < grants s.clients f :=
    List.countP_pos_iff.mpr ⟨_, hc, beq_self_eq_true f⟩
  have held {th : Thread P L} (hth : th ∈ s.threads) (hh : th.holds f = true) :
      0 < s.threads.countP (Thread.holds f) := List.countP_pos_iff.mpr ⟨_, hth, hh⟩
  simp only [holders, disciplinedLawful] at hone
  rcases h₁ with h₁ | ⟨th₁, hth₁, rfl, hh₁⟩ <;> rcases h₂ with h₂ | ⟨th₂, hth₂, rfl, hh₂⟩
  · obtain ⟨i, hi⟩ := List.getElem?_of_mem h₁
    obtain ⟨j, hj⟩ := List.getElem?_of_mem h₂
    by_cases hij : i = j
    · subst hij
      rw [hi] at hj
      cases hj
      rfl
    · have := two_le_countP (fun x : Nat × FileName => x.2 == f) hij hi hj (beq_self_eq_true f)
        (beq_self_eq_true f)
      simp only [grants] at hone
      omega
  · have := granted h₁
    have := held hth₂ hh₂
    omega
  · have := granted h₂
    have := held hth₁ hh₁
    omega
  · obtain ⟨i, hi⟩ := List.getElem?_of_mem hth₁
    obtain ⟨j, hj⟩ := List.getElem?_of_mem hth₂
    by_cases hij : i = j
    · subst hij
      rw [hi] at hj
      cases hj
      rfl
    · have := two_le_countP (Thread.holds f) hij hi hj hh₁ hh₂
      omega

end CacheFs.Mutex
