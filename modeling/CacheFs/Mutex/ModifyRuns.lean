import Mathlib.Data.List.Dedup
import CacheFs.Mutex.ModifyMd
import CacheFs.Mutex.Settles

/-! The processes of `modify_md.c` where no lock is refused.

A process that has its lock granted gives back what it holds, so none of its unlocks
is stray. A server that never answers a lookup with null grants every lock in the
end: whatever the order, the processes have their files one at a time and all come
to their exit, in at most twelve moves each. The table is such a server while the
processes use no more files than it has slots (`Table.modify_md_exits`), the chains
are while `malloc` gives memory (`Hash.modify_md_exits_served`). -/
namespace CacheFs.Mutex
open Transition Registry Members
open Table (Process Stage modifyMd modifyMdLawful modifyMd_send modifyMd_fresh modifiers mdMutexFunc Awaited)

variable {S P L A : Type}

/-! ### Requests and their processes -/

/-- What the clients know of the requests in progress is kept by every move. -/
theorem fits_kept {C : Type} {V : Server S P L A} {K : Clients C} (Q : K.Lawful) {empty : S}
    {fresh : C → Prop} (hfresh : ∀ c, fresh c → Fresh Q c) {R : Rule (State S P L C) (Move A)}
    {s : State S P L C} (h : Reach (machine V K empty fresh) R s) : Q.Fits s.clients (pending s.threads) := by
  refine h.invariant (I := fun s => Q.Fits s.clients (pending s.threads)) ?_ ?_
  · intro s h
    obtain ⟨_, hthreads, hclients⟩ := h
    rw [hthreads]
    exact (hfresh _ hclients).1
  · intro s mv s' hfits _ (hnext : next V K s mv = some s')
    cases mv with
    | accept arg =>
      obtain ⟨clients, holder, hsend, rfl⟩ := next_accept hnext
      simpa [pending] using Q.send_fits hfits hsend
    | step i a =>
      obtain ⟨th, pc, store, hth, hfunc, rfl⟩ := next_step hnext
      have hless := threadFunc_remaining hfunc
      show Q.Fits s.clients (pending (s.threads.set i {th with pc := pc}))
      rw [pending_set hth (Pc.ne_exited (by omega)) (Pc.ne_exited hless.1)]
      exact hfits
    | reply i =>
      obtain ⟨arg, holder, res, hth, rfl⟩ := next_reply hnext
      have hpending : (pending s.threads)[i]? = some (some arg) := by simp [pending, hth]
      simpa [pending, List.map_set] using Q.receive_fits res hfits hpending

/-- The process waits for a response. -/
def Table.Process.Waiting (p : Process) : Prop := p.stage = .locking ∨ p.stage = .unlocking

/-- Each process that waits has a request in progress. -/
def Answerable (ps : List Process) (args : List (Option ThreadArg)) : Prop :=
  ∀ (i : Nat) (p : Process), ps[i]? = some p → p.Waiting → ∃ (j : Nat) (arg : ThreadArg), args[j]? = some (some arg) ∧ arg.client = i

/-- A process that has its response waits for nothing. -/
theorem respond_not_waiting (p : Process) (res : ResPacket) :
    ¬ Table.Process.Waiting {p with stage := p.respond res} := by
  unfold Table.Process.Waiting Table.Process.respond
  cases p.stage <;> simp

/-- The processes are lawful clients with no response owed to them. -/
theorem answerable_kept {V : Server S P L A} {empty : S} {R : Rule (State S P L (List Process)) (Move A)}
    {s : State S P L (List Process)}
    (h : Reach (machine V modifyMd empty fun ps => ∀ p ∈ ps, p.stage = .start) R s) :
    Answerable s.clients (pending s.threads) := by
  refine h.invariant (I := fun s => Answerable s.clients (pending s.threads)) ?_ ?_
  · intro s h i p hp hwait
    obtain ⟨_, _, hclients⟩ := h
    have hstart := hclients p (List.mem_of_getElem? hp)
    obtain hs | hs := hwait <;> rw [hstart] at hs <;> cases hs
  · intro s mv s' hans _ (hnext : next V modifyMd s mv = some s')
    cases mv with
    | accept arg =>
      obtain ⟨clients, holder, hsend, rfl⟩ := next_accept hnext
      obtain ⟨p, stage, hp, _, _, rfl⟩ := modifyMd_send hsend
      intro i q hq hwait
      obtain ⟨rfl, rfl⟩ | ⟨hne, hq⟩ := getElem?_set_cases hq
      · exact ⟨s.threads.length, arg, by simp [pending], rfl⟩
      · obtain ⟨j, arg', hj, hclient⟩ := hans i q hq hwait
        have hlt := (List.getElem?_eq_some_iff.mp hj).1
        simp only [pending, List.length_map] at hlt
        refine ⟨j, arg', ?_, hclient⟩
        simp only [pending, List.map_append] at hj ⊢
        rw [List.getElem?_append_left (by simpa using hlt)]
        exact hj
    | step i a =>
      obtain ⟨th, pc, store, hth, hfunc, rfl⟩ := next_step hnext
      have hless := threadFunc_remaining hfunc
      show Answerable s.clients (pending (s.threads.set i {th with pc := pc}))
      rw [pending_set hth (Pc.ne_exited (by omega)) (Pc.ne_exited hless.1)]
      exact hans
    | reply i =>
      obtain ⟨arg, holder, res, hth, rfl⟩ := next_reply hnext
      intro c q hq hwait
      have hrest : pending (s.threads.set i ⟨arg, holder, .exited⟩) = (pending s.threads).set i none := by
        simp [pending, List.map_set]
      have hpending : (pending s.threads)[i]? = some (some arg) := by simp [pending, hth]
      -- the process that gets the response waits no more, the others keep their requests
      have hother : c ≠ arg.client ∧ s.clients[c]? = some q := by
        simp only [modifyMd] at hq
        cases hp : s.clients[arg.client]? with
        | none =>
          rw [hp] at hq
          refine ⟨?_, hq⟩
          intro hc
          rw [hc, hp] at hq
          cases hq
        | some p =>
          rw [hp] at hq
          obtain ⟨rfl, rfl⟩ | ⟨hne, hq⟩ := getElem?_set_cases hq
          · exact absurd hwait (respond_not_waiting p res)
          · exact ⟨Ne.symm hne, hq⟩
      obtain ⟨j, arg', hj, hclient⟩ := hans c q hother.2 hwait
      refine ⟨j, arg', ?_, hclient⟩
      rw [hrest, List.getElem?_set_ne]
      · exact hj
      · intro hij
        rw [← hij, hpending] at hj
        cases hj
        exact hother.1 hclient.symm

/-! ### The moves a run may take -/

/-- The moves that a process and its requests have left: six for each request. -/
def Table.Process.movesLeft (p : Process) : Nat :=
  match p.stage with
  | .start => 12
  | .locking | .sleeping _ => 6
  | .unlocking | .exited => 0

/-- The moves that a run from this state has left, but for those of requests in progress. -/
def movesLeft (s : State S P L (List Process)) : Nat :=
  remaining s.threads + (s.clients.map Table.Process.movesLeft).sum

theorem respond_movesLeft (p : Process) (res : ResPacket) :
    Table.Process.movesLeft {p with stage := p.respond res} ≤ p.movesLeft := by
  unfold Table.Process.movesLeft Table.Process.respond
  cases p.stage <;> simp

theorem request_movesLeft {p : Process} {opType : UInt8} {stage : Stage} {holder : Bool}
    (h : p.request = some (opType, stage, holder)) :
    Table.Process.movesLeft {p with stage := stage} + 6 = p.movesLeft := by
  obtain ⟨_, hs, rfl, _⟩ | ⟨_, res, hs, rfl, _⟩ := Table.Process.request_spec h <;>
    simp [Table.Process.movesLeft, hs]

/-- Every move uses one up. -/
theorem next_movesLeft {V : Server S P L A} {s s' : State S P L (List Process)} {mv : Move A}
    (h : next V modifyMd s mv = some s') : movesLeft s' < movesLeft s := by
  have hless := next_remaining h
  cases mv with
  | accept arg =>
    obtain ⟨clients, holder, hsend, rfl⟩ := next_accept h
    obtain ⟨p, stage, hp, hreq, _, rfl⟩ := modifyMd_send hsend
    have hset := sum_map_set Table.Process.movesLeft (y := {p with stage := stage}) hp
    have hsix := request_movesLeft hreq
    simp only [movesLeft, Move.brought] at hless ⊢
    omega
  | step i a =>
    obtain ⟨th, pc, store, hth, _, rfl⟩ := next_step h
    simp only [movesLeft, Move.brought] at hless ⊢
    omega
  | reply i =>
    obtain ⟨arg, holder, res, hth, rfl⟩ := next_reply h
    have hreceive : ((modifyMd.receive s.clients arg res).map Table.Process.movesLeft).sum ≤
        (s.clients.map Table.Process.movesLeft).sum := by
      simp only [modifyMd]
      split
      · rename_i p hp
        have hset := sum_map_set Table.Process.movesLeft (y := {p with stage := p.respond res}) hp
        have hle := respond_movesLeft p res
        omega
      · exact Nat.le_refl _
    simp only [movesLeft, Move.brought] at hless ⊢
    omega

theorem movesLeft_start {s : State S P L (List Process)} (hthreads : s.threads = [])
    (hstart : ∀ p ∈ s.clients, p.stage = .start) : movesLeft s = 12 * s.clients.length := by
  have hmap : s.clients.map Table.Process.movesLeft = s.clients.map fun _ => 12 :=
    List.map_congr_left fun p hp => by simp [Table.Process.movesLeft, hstart p hp]
  rw [movesLeft, hthreads, hmap, List.map_const', List.sum_replicate_nat, Nat.mul_comm]
  simp [remaining]

/-! ### Locks that are granted in the end -/

/-- No lookup for an `MD_LOCK` gives null. -/
def unrefused (V : Server S P L A) : Rule (State S P L (List Process)) (Move A)
  | s, .step i a => ∀ th seen x, s.threads[i]? = some th → th.arg.opType = mdLock →
      Looking V s.store th seen → V.get s.store th.arg.fileName mdLock seen a ≠ some (none, x)
  | _, _ => True

/-- The request is a lock that is granted in the end, or gives back one that was. -/
def Thread.Granting (th : Thread P L) : Prop :=
  th.arg.opType = mdLock ∧ (∀ m res, th.pc ≠ .put m res) ∧ (∀ res, th.pc = .reply res → res.isOk = true) ∨
  th.arg.opType = mdUnlock ∧ th.holder = true

/-- Every lock is granted in the end, and every process that sleeps has been granted its
own. -/
structure Granting (s : State S P L (List Process)) : Prop where
  threads : ∀ th ∈ s.threads, th.Granting
  processes : ∀ p ∈ s.clients, ∀ res, p.stage = .sleeping res → res = 0

theorem Thread.Granting.not_stray {th : Thread P L} (h : th.Granting) : ¬ th.Stray := by
  intro hs
  obtain ⟨hop, hholder⟩ := hs
  obtain ⟨hlock, _⟩ | ⟨_, hold⟩ := h
  · rw [hlock] at hop
    exact absurd hop (by decide)
  · rw [hold] at hholder
    cases hholder

/-- The pthread call of an `MD_LOCK` takes the lock, when it returns. -/
theorem call_lock {V : Server S P L A} {arg : ThreadArg} {m : P} {s s' : S} {pc : Pc P L}
    (hop : arg.opType = mdLock) (h : V.call flagMutex arg m s = some (pc, s')) : pc = .reply .ok := by
  simp only [Server.call, hop, if_true, Server.pthreadCall] at h
  cases hm : V.mutex s m with
  | none => simp [hm] at h
  | some taken =>
    cases taken
    · simp [hm, flagMutex] at h
      exact h.1.symm
    · simp [hm, flagMutex] at h

/-- A thread's step keeps what it is to grant. -/
theorem Thread.Granting.step {V : Server S P L A} {s : State S P L (List Process)} {i : Nat}
    {th : Thread P L} (h : th.Granting) (hth : s.threads[i]? = some th) {a : A} {pc : Pc P L} {store : S}
    (hrule : unrefused V s (.step i a))
    (hfunc : V.threadFunc flagMutex th.arg a s.store th.pc = some (pc, store)) :
    Thread.Granting {th with pc := pc} := by
  obtain ⟨hop, hput, hreply⟩ | hunlock := h
  · refine .inl ⟨hop, ?_⟩
    rcases Server.threadFunc_cases hfunc with ⟨l, _, _, rfl, _⟩ | ⟨seen, hpc, hpeek, hlook⟩ | ⟨m, _, hcall⟩ |
      ⟨m, res, hpc, _⟩
    · exact ⟨nofun, nofun⟩
    · obtain ⟨r, hget, rfl⟩ := Server.lookup_eq_some.mp hlook
      cases r with
      | none =>
        rw [hop] at hget
        exact absurd hget (hrule th seen store hth hop ⟨hpc, hpeek⟩)
      | some m => exact ⟨nofun, nofun⟩
    · rw [call_lock hop hcall]
      refine ⟨nofun, fun res hres => ?_⟩
      cases hres
      rfl
    · exact absurd hpc (hput m res)
  · exact .inr hunlock

/-- A lock that is granted in the end tells its process so. -/
theorem Granting.receive {s : State S P L (List Process)} (h : Granting s)
    (hfits : Awaited s.clients (pending s.threads)) {i : Nat} {arg : ThreadArg} {holder : Bool}
    {res : ResPacket} (hth : s.threads[i]? = some ⟨arg, holder, .reply res⟩) :
    ∀ p ∈ modifyMd.receive s.clients arg res, ∀ r, p.stage = .sleeping r → r = 0 := by
  have hpending : (pending s.threads)[i]? = some (some arg) := by simp [pending, hth]
  obtain ⟨p, hp, _, hwait⟩ := hfits.awaits i arg hpending
  intro q hq r hr
  simp only [modifyMd, hp] at hq
  obtain hq | rfl := List.mem_or_eq_of_mem_set hq
  · exact h.processes q hq r hr
  · obtain ⟨hop, hs⟩ | ⟨hop, hs⟩ := hwait
    · obtain ⟨_, _, hreply⟩ | ⟨hunlock, _⟩ := h.threads _ (List.mem_of_getElem? hth)
      · have hok : Table.mdMutexFunc res = 0 := (Table.mdMutexFunc_zero res).mpr (hreply res rfl)
        simp only [Table.Process.respond, hs, Stage.sleeping.injEq] at hr
        rw [← hr, hok]
      · rw [hop] at hunlock
        exact absurd hunlock (by decide)
    · simp [Table.Process.respond, hs] at hr

/-- While no lookup for a lock gives null, every lock is granted in the end. -/
theorem granting_kept {V : Server S P L A} {empty : S} {s : State S P L (List Process)}
    (h : Reach (machine V modifyMd empty fun ps => ∀ p ∈ ps, p.stage = .start) (unrefused V) s) :
    Granting s := by
  induction h with
  | start hs =>
    obtain ⟨_, hthreads, hclients⟩ := hs
    refine ⟨by simp [hthreads], fun p hp res hs => ?_⟩
    rw [hclients p hp] at hs
    cases hs
  | @step s s' mv hreach hrule hstep ih =>
    have hfits := fits_kept modifyMdLawful modifyMd_fresh hreach
    replace hstep : next V modifyMd s mv = some s' := hstep
    cases mv with
    | accept arg =>
      obtain ⟨clients, holder, hsend, rfl⟩ := next_accept hstep
      obtain ⟨p, stage, hp, hreq, _, rfl⟩ := modifyMd_send hsend
      refine ⟨fun th hth => ?_, fun q hq r hr => ?_⟩
      · obtain hth | hth := List.mem_append.mp hth
        · exact ih.threads th hth
        · rw [List.mem_singleton.mp hth]
          obtain ⟨hop, _⟩ | ⟨hop, res, hs, _, hholder⟩ := Table.Process.request_spec hreq
          · exact .inl ⟨hop, nofun, nofun⟩
          · refine .inr ⟨hop, ?_⟩
            rw [hholder, ih.processes p (List.mem_of_getElem? hp) res hs]
            rfl
      · obtain hq | rfl := List.mem_or_eq_of_mem_set hq
        · exact ih.processes q hq r hr
        · obtain ⟨_, _, hs, _⟩ | ⟨_, _, _, hs, _⟩ := Table.Process.request_spec hreq <;>
            rw [hs] at hr <;> cases hr
    | step i a =>
      obtain ⟨th, pc, store, hth, hfunc, rfl⟩ := next_step hstep
      refine ⟨fun th' hth' => ?_, ih.processes⟩
      obtain hth' | rfl := List.mem_or_eq_of_mem_set hth'
      · exact ih.threads th' hth'
      · exact (ih.threads th (List.mem_of_getElem? hth)).step hth hrule hfunc
    | reply i =>
      obtain ⟨arg, holder, res, hth, rfl⟩ := next_reply hstep
      refine ⟨fun th' hth' => ?_, ih.receive hfits hth⟩
      obtain hth' | rfl := List.mem_or_eq_of_mem_set hth'
      · exact ih.threads th' hth'
      · exact (ih.threads _ (List.mem_of_getElem? hth)).imp (fun h => ⟨h.1, nofun, nofun⟩) id

/-! ### All come to their exit -/

section Exit
variable [DecidableEq P] {V : Server S P L A} {W : V.Lawful} {empty : S} {answers : A → Prop}
  {s : State S P L (List Process)} {t : State Named FileName Empty (List Process)}

/-- The rule of runs whose allocator gives the answers that count. -/
def answering {C : Type} (answers : A → Prop) : Rule (State S P L C) (Move A)
  | _, .step _ a => answers a
  | _, _ => True

omit [DecidableEq P] in
/-- A process that has not sent its lock, or sleeps, has a request to send. -/
theorem request_of_settled (h : Settled (machine V modifyMd empty fun ps => ∀ p ∈ ps, p.stage = .start)
    (answering answers) s) {i : Nat} {p : Process} (hp : s.clients[i]? = some p) : p.request = none := by
  cases hreq : p.request with
  | none => rfl
  | some x =>
    obtain ⟨opType, stage, holder⟩ := x
    have hnone : next V modifyMd s (.accept ⟨opType, i, p.fileName⟩) = none := h (.accept _) trivial
    simp [next, modifyMd, hp, hreq] at hnone

variable (empty) in
/-- Where nothing moves every process has exited. -/
theorem Rel.exited_of_settled (h : Rel W s t) (hinv : Inv modifyMdLawful t) (serving : W.Serving answers)
    (hcurrent : ∀ th ∈ s.threads, ∀ l, th.pc = .get (some l) → W.Current s.store th.arg.fileName l)
    (hans : Answerable s.clients (pending s.threads))
    (hsettled : Settled (machine V modifyMd empty fun ps => ∀ p ∈ ps, p.stage = .start)
      (answering answers) s) : ∀ p ∈ s.clients, p.stage = .exited := by
  have hstill (i : Nat) : ¬ Moves V modifyMd answers s i := by
    have hquiet : Settled (machine V modifyMd empty fun ps => ∀ p ∈ ps, p.stage = .start) (unasked answers) s := by
      intro mv hmv
      cases mv with
      | accept arg => exact absurd hmv id
      | step i a => exact hsettled _ hmv
      | reply i => exact hsettled _ trivial
    exact not_moves_of_settled hquiet i
  intro p hp
  obtain ⟨i, hi⟩ := List.getElem?_of_mem hp
  have hreq := request_of_settled hsettled hi
  by_contra hne
  have hwait : p.Waiting := by
    unfold Table.Process.Waiting
    cases hs : p.stage <;> simp_all [Table.Process.request]
  -- its request waits for a lock that another process has, and that one can unlock
  obtain ⟨j, arg, hj, _⟩ := hans i p hi hwait
  obtain ⟨th, hth, hpc⟩ : ∃ th ∈ s.threads, th.pc ≠ .exited := by
    simp only [pending, List.getElem?_map, Option.map_eq_some_iff] at hj
    obtain ⟨th, hth, hpend⟩ := hj
    refine ⟨th, List.mem_of_getElem? hth, fun hex => ?_⟩
    simp [hex] at hpend
  obtain ⟨_, hpos⟩ := h.granted_of_still hinv serving hcurrent hstill hth hpc
  obtain ⟨q, hq, hmod⟩ := List.countP_pos_iff.mp hpos
  obtain ⟨k, hk⟩ := List.getElem?_of_mem hq
  have hidle := request_of_settled hsettled hk
  simp only [Table.Process.modifies, Bool.and_eq_true, decide_eq_true_eq] at hmod
  simp [Table.Process.request, hmod.2] at hidle

/-- No two processes that have been granted the lock of a file. -/
theorem Rel.one_modifier (h : Rel W s t) (hinv : Inv modifyMdLawful t) {i j : Nat} {f : FileName}
    (hi : s.clients[i]? = some ⟨f, .sleeping 0⟩) (hj : s.clients[j]? = some ⟨f, .sleeping 0⟩) : i = j := by
  have hone := h.holders_le_one hinv f
  by_contra hne
  have htwo : 2 ≤ modifiers s.clients f :=
    two_le_countP (Process.modifies f) hne hi hj (by simp [Process.modifies]) (by simp [Process.modifies])
  simp only [Mutex.holders, modifyMdLawful] at hone
  omega

end Exit

/-- A run of processes that have not begun is no longer than twelve moves for each. -/
theorem run_le {V : Server S P L A} {empty : S} {fresh : List Process → Prop}
    (hfresh : ∀ ps, fresh ps → ∀ p ∈ ps, p.stage = .start) {R : Rule (State S P L (List Process)) (Move A)}
    [∀ s mv, Decidable (R s mv)] {s s' : State S P L (List Process)} {moves : List (Move A)}
    (hstart : (machine V modifyMd empty fresh).start s)
    (hrun : (machine V modifyMd empty fresh).run R s moves = some s') :
    moves.length ≤ 12 * s.clients.length := by
  obtain ⟨_, hthreads, hclients⟩ := hstart
  rw [← movesLeft_start hthreads (hfresh _ hclients)]
  exact Machine.run_length_le_measure _ (fun s mv s' _ (hstep : next V modifyMd s mv = some s') =>
    next_movesLeft hstep) moves hrun

/-! ### The chains -/

namespace Hash

/-- The server as it is and processes that have not begun. -/
def modifyMachine : Machine (State HashTable Nat (Option Nat) (List Process)) (Move (Option Nat)) :=
  machine server modifyMd mutexHashInit fun ps => ∀ p ∈ ps, p.stage = .start

/-- The head that a thread has read still serves its lookup. -/
def HeadServes (s : State HashTable Nat (Option Nat) (List Process)) (th : Thread Nat (Option Nat)) : Prop :=
  ∀ head, th.pc = .get (some head) → Serves s.store th.arg.fileName head

/-- Whenever a thread takes `glob_mutex`, the head it has read still serves its lookup
and `malloc` gives memory. -/
def servedWithMemory : Rule (State HashTable Nat (Option Nat) (List Process)) (Move (Option Nat))
  | s, .step i nmtx => (∀ th, s.threads[i]? = some th → HeadServes s th) ∧ memoryGiven nmtx
  | _, _ => True

/-- With memory to be had a lock is looked up or made. -/
theorem getZzMutex_lock {t t' : HashTable} {head : Option Nat} {f : FileName} {nmtx : Option Nat}
    (hsome : memoryGiven nmtx) : getZzMutex t head f mdLock nmtx ≠ some (none, t') := by
  obtain ⟨p, rfl⟩ := Option.isSome_iff_exists.mp hsome
  intro h
  simp only [getZzMutex, Option.bind_eq_bind, Option.bind_eq_some_iff] at h
  obtain ⟨found, _, h⟩ := h
  cases found with
  | none =>
    simp only [acquires, beq_self_eq_true, Bool.true_or, if_true] at h
    split at h
    · cases h
    · obtain ⟨_, _, h⟩ := Option.bind_eq_some_iff.mp h
      cases h
  | some q =>
    simp only [acquires, beq_self_eq_true, Bool.true_or, if_true] at h
    obtain ⟨_, _, h⟩ := Option.bind_eq_some_iff.mp h
    cases h

theorem unrefused_of_memoryGiven {s : State HashTable Nat (Option Nat) (List Process)} {mv : Move (Option Nat)}
    (h : servedWithMemory s mv) : unrefused server s mv := by
  cases mv with
  | accept arg => trivial
  | step i nmtx => exact fun _ _ _ _ _ _ => getZzMutex_lock h.2
  | reply i => trivial

theorem modifyMachine_sound {s : State HashTable Nat (Option Nat) (List Process)}
    (h : Reach modifyMachine servedWithMemory s) : Reach modifyMachine (Sound lawful) s := by
  refine h.mono fun s mv _ hs hrule => ?_
  cases mv with
  | accept arg => trivial
  | step i nmtx =>
    intro th seen hth hlook
    have hgranting := granting_kept (hs.mono fun _ _ _ _ hr => unrefused_of_memoryGiven hr)
    exact ⟨fun l hl => hrule.1 th hth l (hl ▸ hlook.1),
      fun hstray => absurd hstray (hgranting.threads th (List.mem_of_getElem? hth)).not_stray⟩
  | reply i => trivial

/-- The rule that a head has not changed since it was read, and that `malloc` gives
memory. -/
def headUnchangedWithMemory : Rule (State HashTable Nat (Option Nat) (List Process)) (Move (Option Nat))
  | s, .step i nmtx => (s.threads[i]?.all fun th =>
      match th.pc with
      | .get (some head) => head == s.store.mutexHash (hashFunc th.arg.fileName)
      | _ => true) = true ∧ memoryGiven nmtx
  | _, _ => True

instance : ∀ (s : State HashTable Nat (Option Nat) (List Process)) (mv : Move (Option Nat)),
    Decidable (headUnchangedWithMemory s mv)
  | _, .step _ _ => inferInstanceAs (Decidable (_ ∧ _))
  | _, .accept _ => isTrue trivial
  | _, .reply _ => isTrue trivial

/-- A head that has not changed serves its lookup. -/
theorem served_of_headUnchanged {s : State HashTable Nat (Option Nat) (List Process)}
    (h : Reach modifyMachine headUnchangedWithMemory s) : Reach modifyMachine servedWithMemory s := by
  refine h.mono fun s mv hs _ hrule => ?_
  cases mv with
  | accept arg => trivial
  | step i nmtx =>
    refine ⟨fun th hth head hpc => ?_, hrule.2⟩
    obtain ⟨_, hrel, _⟩ := refines lawful modifyMdLawful ⟨_, init_shape⟩ init_view modifyMd_fresh
      (modifyMachine_sound hs)
    obtain ⟨_, hshape⟩ := hrel.inv
    have hsame := hrule.1
    simp only [hth, Option.all_some, hpc, beq_iff_eq] at hsame
    rw [hsame]
    exact hshape.serves _
  | reply i => trivial

/-- **The processes have their files in turn and all exit.** Every run of processes of
`modify_md.c` on the hash-based server is at most twelve moves for each. While `malloc`
gives memory and lookups are served by the head they have read, no two processes have
a file at once, and where nothing can move every process has exited. -/
theorem modify_md_exits_served {s₀ s : State HashTable Nat (Option Nat) (List Process)} (hstart : modifyMachine.start s₀)
    (h : Reach modifyMachine servedWithMemory s) :
    (∀ moves s', modifyMachine.run always s₀ moves = some s' → moves.length ≤ 12 * s₀.clients.length) ∧
    (∀ (i j : Nat) (f : FileName), s.clients[i]? = some ⟨f, .sleeping 0⟩ →
      s.clients[j]? = some ⟨f, .sleeping 0⟩ → i = j) ∧
    (Settled modifyMachine servedWithMemory s → (∀ th ∈ s.threads, HeadServes s th) →
      ∀ p ∈ s.clients, p.stage = .exited) := by
  have hinit : Shape mutexHashInit fun _ => [] := init_shape
  obtain ⟨t, hrel, hinv⟩ := refines lawful modifyMdLawful ⟨_, hinit⟩ init_view modifyMd_fresh
    (modifyMachine_sound h)
  refine ⟨fun moves s' hrun => run_le (fun _ h => h) hstart hrun,
    fun i j f hi hj => hrel.one_modifier hinv hi hj, fun hsettled hserves => ?_⟩
  refine hrel.exited_of_settled mutexHashInit hinv serving hserves (answerable_kept h) ?_
  intro mv hmv
  cases mv with
  | accept arg => exact hsettled _ trivial
  | step i nmtx => exact hsettled _ ⟨fun th hth => hserves th (List.mem_of_getElem? hth), hmv⟩
  | reply i => exact hsettled _ trivial

/-- Process 1 waits while process 0 has the file, and has it in its turn. -/
theorem modify_md_exits_served_twice : ∃ s₀ s f, modifyMachine.start s₀ ∧ Reach modifyMachine servedWithMemory s ∧
    s.clients = [⟨f, .exited⟩, ⟨f, .sleeping 0⟩] ∧
    ∀ i, s.clients[i]? = some ⟨f, .sleeping 0⟩ → i = 1 := by
  let f : FileName := ⟨[102], by decide, by decide⟩
  let s₀ : State HashTable Nat (Option Nat) (List Process) := ⟨mutexHashInit, [], [⟨f, .start⟩, ⟨f, .start⟩]⟩
  have hstart : modifyMachine.start s₀ := ⟨rfl, rfl, by decide⟩
  obtain ⟨s, hreach, hs⟩ := Reach.exists_run (M := modifyMachine) (R := headUnchangedWithMemory)
    [.accept ⟨mdLock, 0, f⟩, .step 0 (some 0), .step 0 (some 0), .step 0 (some 0), .reply 0,
      .accept ⟨mdLock, 1, f⟩, .step 1 (some 1), .step 1 (some 1), .accept ⟨mdUnlock, 0, f⟩,
      .step 2 (some 1), .step 2 (some 1), .step 2 (some 1), .step 2 (some 1), .reply 2, .step 1 (some 1),
      .reply 1]
    (fun s => s.clients = [⟨f, .exited⟩, ⟨f, .sleeping 0⟩]) (.start hstart) (by decide +kernel)
  simp only [decide_eq_true_eq] at hs
  have hserved := served_of_headUnchanged hreach
  refine ⟨s₀, s, f, hstart, hserved, hs, fun i hi => ?_⟩
  exact (modify_md_exits_served hstart hserved).2.1 i 1 f hi (by rw [hs]; rfl)

end Hash

/-! ### The table -/

namespace Table

/-- Processes that have not begun and that use no more files than there are slots. -/
def FewFiles (ps : List Process) : Prop :=
  (∀ p ∈ ps, p.stage = .start) ∧ (ps.map Process.fileName).dedup.length ≤ mutexNum

def fewFilesMachine : Machine (State MutexTable Nat Empty (List Process)) (Move Unit) :=
  machine server modifyMd mutexTableInit FewFiles

theorem fewFilesMachine_reach {R : Rule (State MutexTable Nat Empty (List Process)) (Move Unit)}
    {s : State MutexTable Nat Empty (List Process)} (h : Reach fewFilesMachine R s) : Reach modifyMachine R s :=
  Reach.of_start (fun _ h => ⟨h.1, h.2.1, h.2.2.1⟩) h

/-- No process changes its file. -/
theorem set_stage_names {ps : List Process} {i : Nat} {p : Process} (hp : ps[i]? = some p) (stage : Stage) :
    (ps.set i {p with stage := stage}).map Process.fileName = ps.map Process.fileName :=
  map_set_same hp rfl

theorem few_kept {R : Rule (State MutexTable Nat Empty (List Process)) (Move Unit)}
    {s : State MutexTable Nat Empty (List Process)} (h : Reach fewFilesMachine R s) :
    (s.clients.map Process.fileName).dedup.length ≤ mutexNum := by
  refine h.invariant (I := fun s => (s.clients.map Process.fileName).dedup.length ≤ mutexNum)
    ?_ ?_
  · intro s h
    obtain ⟨_, _, _, hfew⟩ := h
    exact hfew
  intro s mv s' hfew _ (hnext : next server modifyMd s mv = some s')
  cases mv with
  | accept arg =>
    obtain ⟨clients, holder, hsend, rfl⟩ := next_accept hnext
    obtain ⟨p, stage, hp, _, _, rfl⟩ := modifyMd_send hsend
    rw [set_stage_names hp]
    exact hfew
  | step i a =>
    obtain ⟨th, pc, store, _, _, rfl⟩ := next_step hnext
    exact hfew
  | reply i =>
    obtain ⟨arg, holder, res, _, rfl⟩ := next_reply hnext
    simp only [modifyMd]
    split
    · rename_i p hp
      rw [set_stage_names hp]
      exact hfew
    · exact hfew

/-- The file of a request in progress is that of its process. -/
theorem Awaited.file_mem {ps : List Process} {threads : List (Thread Nat Empty)} (h : Awaited ps (pending threads))
    {th : Thread Nat Empty} (hth : th ∈ threads) (hpc : th.pc ≠ .exited) :
    th.arg.fileName ∈ ps.map Process.fileName := by
  obtain ⟨i, hi⟩ := List.getElem?_of_mem hth
  have hpending : (pending threads)[i]? = some (some th.arg) := by
    simp only [pending, List.getElem?_map, hi, Option.map_some]
  obtain ⟨p, hp, hname, _⟩ := h.awaits i th.arg hpending
  exact hname ▸ List.mem_map_of_mem (List.mem_of_getElem? hp)

/-- A file with users is that of a process. -/
theorem file_mem_of_users {s : State MutexTable Nat Empty (List Process)}
    (hfits : Awaited s.clients (pending s.threads)) {f : FileName} (h : 0 < users modifyMdLawful s f) :
    f ∈ s.clients.map Process.fileName := by
  by_cases hgranted : 0 < modifiers s.clients f
  · obtain ⟨p, hp, hmod⟩ := List.countP_pos_iff.mp hgranted
    simp only [Process.modifies, Bool.and_eq_true, beq_iff_eq] at hmod
    exact hmod.1 ▸ List.mem_map_of_mem hp
  · have hthreads : 0 < s.threads.countP (Thread.uses f) := by
      simp only [users, modifyMdLawful] at h
      omega
    obtain ⟨th, hth, huses⟩ := List.countP_pos_iff.mp hthreads
    have hpc : th.pc ≠ .exited := by
      intro hex
      simp [Thread.uses, hex] at huses
    have hname : th.arg.fileName = f := by
      simp only [Thread.uses, Bool.and_eq_true, beq_iff_eq] at huses
      exact huses.1
    exact hname ▸ hfits.file_mem hth hpc

theorem granting_sound {s : State MutexTable Nat Empty (List Process)}
    (h : Reach modifyMachine (unrefused server) s) : Reach modifyMachine (Sound lawful) s := by
  refine h.mono fun s mv _ hs _ => ?_
  cases mv with
  | accept arg => trivial
  | step i a =>
    intro th seen hth _
    exact ⟨fun l => l.elim, fun hstray =>
      absurd hstray ((granting_kept hs).threads th (List.mem_of_getElem? hth)).not_stray⟩
  | reply i => trivial

/-- **A slot for every file.** While the processes use no more files than there are slots,
no lookup for a lock gives null: full slots would be for one file more. -/
theorem unrefused_of_few {s : State MutexTable Nat Empty (List Process)}
    (h : Reachable fewFilesMachine s) : Reach fewFilesMachine (unrefused server) s := by
  refine h.mono fun s mv hs _ _ => ?_
  cases mv with
  | accept arg => trivial
  | reply i => trivial
  | step i a =>
    intro th seen x hth hop hlook hget
    obtain ⟨t, hrel, hinv⟩ := refines lawful modifyMdLawful init_clear init_view modifyMd_fresh
      (granting_sound (fewFilesMachine_reach hs))
    have hfits := fits_kept modifyMdLawful modifyMd_fresh (fewFilesMachine_reach hs)
    rcases getZMutex_cases hget with ⟨_, _, _, _, _, hr, _⟩ | ⟨hnames, ⟨_, hfull, _, _⟩ |
      ⟨_, _, _, _, _, hr, _⟩ | ⟨hacq, _⟩⟩
    · cases hr
    · have hview {p : Nat} {m : ZMutex} (hm : s.store.slots[p]? = some m) :
          view s.store p = some (m.fileName, ⟨m.count, m.pMutex⟩) :=
        view_some.mpr ⟨hm, hfull m (List.mem_of_getElem? hm)⟩
      -- the names in the slots are different, and none is the file asked for
      have hdistinct : (s.store.slots.map ZMutex.fileName).Nodup := by
        refine List.nodup_iff_getElem?_ne_getElem?.mpr fun p q hpq hq hsame => ?_
        rw [List.length_map] at hq
        obtain ⟨m, hm⟩ : ∃ m, s.store.slots[p]? = some m := ⟨_, List.getElem?_eq_getElem (by omega)⟩
        obtain ⟨m', hm'⟩ : ∃ m, s.store.slots[q]? = some m := ⟨_, List.getElem?_eq_getElem hq⟩
        simp only [List.getElem?_map, hm, hm', Option.map_some, Option.some.injEq] at hsame
        have := hrel.store.unique (hview hm) (hsame ▸ hview hm')
        omega
      have hnew : th.arg.fileName ∉ s.store.slots.map ZMutex.fileName := by
        intro hmem
        obtain ⟨m, hm, hname⟩ := List.mem_map.mp hmem
        exact hnames m hm (hfull m hm) hname
      -- yet all of them are files of processes
      have hfiles : th.arg.fileName :: s.store.slots.map ZMutex.fileName ⊆
          (s.clients.map Process.fileName).dedup := by
        refine List.cons_subset.mpr ⟨List.mem_dedup.mpr ?_, fun f hf => List.mem_dedup.mpr ?_⟩
        · exact hfits.file_mem (List.mem_of_getElem? hth) (by rw [hlook.1]; nofun)
        · obtain ⟨m, hm, rfl⟩ := List.mem_map.mp hf
          obtain ⟨p, hp⟩ := List.getElem?_of_mem hm
          exact file_mem_of_users hfits (hrel.entry hinv (hview hp)).2.1
      have hlen := (List.subperm_of_subset (List.nodup_cons.mpr ⟨hnew, hdistinct⟩) hfiles).length_le
      have hfew := few_kept hs
      rw [List.length_cons, List.length_map, s.store.length_eq] at hlen
      omega
    · cases hr
    · exact absurd hacq (by decide)

/-- **The processes have their files in turn and all exit.** Processes of `modify_md.c`
that use no more files than the table has slots: every run is at most twelve moves for
each, no two have a file at once, and where nothing can move every process has
exited. -/
theorem modify_md_exits {s₀ s : State MutexTable Nat Empty (List Process)} (hstart : fewFilesMachine.start s₀)
    (h : Reachable fewFilesMachine s) :
    (∀ moves s', fewFilesMachine.run always s₀ moves = some s' → moves.length ≤ 12 * s₀.clients.length) ∧
    (∀ (i j : Nat) (f : FileName), s.clients[i]? = some ⟨f, .sleeping 0⟩ →
      s.clients[j]? = some ⟨f, .sleeping 0⟩ → i = j) ∧
    (Settled fewFilesMachine always s → ∀ p ∈ s.clients, p.stage = .exited) := by
  have hreach := fewFilesMachine_reach (unrefused_of_few h)
  obtain ⟨t, hrel, hinv⟩ := refines lawful modifyMdLawful init_clear init_view modifyMd_fresh
    (granting_sound hreach)
  refine ⟨fun moves s' hrun => run_le (fun _ h => h.1) hstart hrun,
    fun i j f hi hj => hrel.one_modifier hinv hi hj, fun hsettled => ?_⟩
  exact hrel.exited_of_settled mutexTableInit hinv serving (fun _ _ l => l.elim)
    (answerable_kept hreach) fun mv _ => hsettled mv trivial

/-- Process 1 waits while process 0 has the file, and has it in its turn. -/
theorem modify_md_exits_twice : ∃ s₀ s f, fewFilesMachine.start s₀ ∧ Reachable fewFilesMachine s ∧
    s.clients = [⟨f, .exited⟩, ⟨f, .sleeping 0⟩] ∧ ∀ i, s.clients[i]? = some ⟨f, .sleeping 0⟩ → i = 1 := by
  let f : FileName := ⟨[102], by decide, by decide⟩
  let s₀ : State MutexTable Nat Empty (List Process) := ⟨mutexTableInit, [], [⟨f, .start⟩, ⟨f, .start⟩]⟩
  have hstart : fewFilesMachine.start s₀ := ⟨rfl, rfl, by decide, by decide⟩
  obtain ⟨s, hreach, hs⟩ := Reach.exists_run (M := fewFilesMachine) (R := always)
    (lockMoves 0 0 f ++ [.accept ⟨mdLock, 1, f⟩, .step 1 ()] ++ unlockMoves 2 0 f ++ [.step 1 (), .reply 1])
    (fun s => s.clients = [⟨f, .exited⟩, ⟨f, .sleeping 0⟩]) (.start hstart) (by decide +kernel)
  simp only [decide_eq_true_eq] at hs
  refine ⟨s₀, s, f, hstart, hreach, hs, fun i hi => ?_⟩
  exact (modify_md_exits hstart hreach).2.1 i 1 f hi (by rw [hs]; rfl)

end Table

end CacheFs.Mutex
