import CacheFs.Mutex.Table

/-! The shipped client (`modify_md.c` over `md_mutex_client_func.c`) on the
table-based server.

A process locks its file, sleeps, and unlocks it — also when its lock was refused
(`Process.request`). While such an unlock finds no slot in use for its file, no two
processes have a file at once (`modify_md_safe`); one that does find a slot
releases the lock of whoever holds it (`two_modifiers`). -/
namespace CacheFs.Mutex.Table
open Transition Registry Members

/-- What `md_mutex_func` returns for a response. -/
def mdMutexFunc (res : ResPacket) : Int :=
  if res.okOrNot = 1 then 0 else if res.okOrNot = 0 then 1 else -1

theorem mdMutexFunc_zero (res : ResPacket) : mdMutexFunc res = 0 ↔ res.isOk = true := by
  simp only [mdMutexFunc, ResPacket.isOk, beq_iff_eq]
  split
  · simpa
  · split <;> simp_all

/-- Where a process is in `main` of `modify_md.c`. -/
inductive Stage where
  | start
  | locking
  /-- In `sleep`, with what `md_mutex_lock` returned. -/
  | sleeping (res : Int)
  | unlocking
  | exited
  deriving DecidableEq

structure Process where
  fileName : FileName
  stage : Stage
  deriving DecidableEq

/-- The request that the process sends next, the stage it then waits in, and whether
it gives back a lock: `main` does not look at what `md_mutex_lock` returned. -/
def Process.request (p : Process) : Option (UInt8 × Stage × Bool) :=
  match p.stage with
  | .start => some (mdLock, .locking, false)
  | .sleeping res => some (mdUnlock, .unlocking, res = 0)
  | _ => none

/-- The stage after the response. -/
def Process.respond (p : Process) (res : ResPacket) : Stage :=
  match p.stage with
  | .locking => .sleeping (mdMutexFunc res)
  | .unlocking => .exited
  | stage => stage

/-- The processes, each the client of its place in the list. -/
def modifyMd : Clients (List Process) where
  send := fun ps arg => do
    let p ← ps[arg.client]?
    let (opType, stage, holder) ← p.request
    if arg.opType = opType ∧ arg.fileName = p.fileName then
      some (ps.set arg.client {p with stage := stage}, holder)
    else none
  receive := fun ps arg res =>
    match ps[arg.client]? with
    | some p => ps.set arg.client {p with stage := p.respond res}
    | none => ps

/-- The process has been told that the lock is its own, and has not asked to release
it. -/
def Process.modifies (f : FileName) (p : Process) : Bool :=
  p.fileName == f && decide (p.stage = .sleeping 0)

theorem Process.not_modifies {f : FileName} {p : Process} (h : p.stage ≠ .sleeping 0) :
    p.modifies f = false := by
  simp [modifies, h]

theorem Process.modifies_sleeping {f : FileName} {p : Process} {res : Int} (h : p.stage = .sleeping res) :
    p.modifies f = (p.fileName == f && decide (res = 0)) := by
  simp [modifies, h]

/-- The process waits for the response to this request. -/
def Process.Awaits (p : Process) (arg : ThreadArg) : Prop :=
  p.fileName = arg.fileName ∧
    (arg.opType = mdLock ∧ p.stage = .locking ∨ arg.opType = mdUnlock ∧ p.stage = .unlocking)

theorem modifyMd_send {ps ps' : List Process} {arg : ThreadArg} {holder : Bool}
    (h : modifyMd.send ps arg = some (ps', holder)) :
    ∃ p stage, ps[arg.client]? = some p ∧ p.request = some (arg.opType, stage, holder) ∧
      p.fileName = arg.fileName ∧ ps' = ps.set arg.client {p with stage := stage} := by
  simp only [modifyMd, Option.bind_eq_bind, Option.bind_eq_some_iff] at h
  obtain ⟨p, hp, ⟨opType, stage, giving⟩, hreq, h⟩ := h
  split at h
  · rename_i hsame
    cases h
    exact ⟨p, stage, hp, by rw [hreq, hsame.1], hsame.2.symm, rfl⟩
  · cases h

/-- A process that sends a request waits for its response, and gives up the lock it
has, if it has it. -/
theorem Process.request_spec {p : Process} {opType : UInt8} {stage : Stage} {holder : Bool}
    (h : p.request = some (opType, stage, holder)) :
    (opType = mdLock ∧ p.stage = .start ∧ stage = .locking ∧ holder = false) ∨
    (opType = mdUnlock ∧ ∃ res, p.stage = .sleeping res ∧ stage = .unlocking ∧ holder = decide (res = 0)) := by
  simp only [request] at h
  split at h
  · rename_i hs
    cases h
    exact .inl ⟨rfl, hs, rfl, rfl⟩
  · rename_i res hs
    cases h
    exact .inr ⟨rfl, res, hs, rfl, rfl⟩
  · cases h

/-- The processes know their requests in progress: each waits for its own. -/
structure Awaited (ps : List Process) (args : List (Option ThreadArg)) : Prop where
  awaits : ∀ (i : Nat) (arg : ThreadArg), args[i]? = some (some arg) → ∃ p, ps[arg.client]? = some p ∧ p.Awaits arg
  once : ∀ (i j : Nat) (arg arg' : ThreadArg), args[i]? = some (some arg) → args[j]? = some (some arg') →
    arg.client = arg'.client → i = j

/-- A process that waits for nothing has no request in progress. -/
theorem Awaited.idle {ps : List Process} {args : List (Option ThreadArg)} (h : Awaited ps args)
    {client : Nat} {p : Process} (hp : ps[client]? = some p) (hlock : p.stage ≠ .locking)
    (hunlock : p.stage ≠ .unlocking) {i : Nat} {arg : ThreadArg} (hi : args[i]? = some (some arg)) :
    arg.client ≠ client := by
  intro heq
  subst heq
  obtain ⟨q, hq, _, ⟨_, hs⟩ | ⟨_, hs⟩⟩ := h.awaits i arg hi
  · rw [hp] at hq
    cases hq
    exact hlock hs
  · rw [hp] at hq
    cases hq
    exact hunlock hs

/-- A request sent: its process was idle and now waits for it. -/
theorem Awaited.send {ps ps' : List Process} {args : List (Option ThreadArg)} {arg : ThreadArg}
    {holder : Bool} (h : Awaited ps args) (hsend : modifyMd.send ps arg = some (ps', holder)) :
    Awaited ps' (args ++ [some arg]) := by
  obtain ⟨p, stage, hp, hreq, hname, rfl⟩ := modifyMd_send hsend
  have hidle {i : Nat} {arg' : ThreadArg} (hi : args[i]? = some (some arg')) : arg'.client ≠ arg.client := by
    rcases Process.request_spec hreq with ⟨_, hs, _, _⟩ | ⟨_, res, hs, _, _⟩ <;>
      exact h.idle hp (by simp [hs]) (by simp [hs]) hi
  refine ⟨fun i arg' hi => ?_, fun i j a b hi hj hab => ?_⟩
  · obtain hi | ⟨_, harg⟩ := getElem?_append_one hi
    · obtain ⟨q, hq, hwait⟩ := h.awaits i arg' hi
      exact ⟨q, by rw [List.getElem?_set_ne (hidle hi).symm, hq], hwait⟩
    · cases harg
      refine ⟨{p with stage := stage}, ?_, hname, ?_⟩
      · rw [List.getElem?_set_self (List.getElem?_eq_some_iff.mp hp).1]
      · obtain ⟨hop, _, hs, _⟩ | ⟨hop, _, _, hs, _⟩ := Process.request_spec hreq
        · exact .inl ⟨hop, hs⟩
        · exact .inr ⟨hop, hs⟩
  · rcases getElem?_append_one hi with hi | ⟨hil, ha⟩ <;> rcases getElem?_append_one hj with hj | ⟨hjl, hb⟩
    · exact h.once i j a b hi hj hab
    · cases hb
      exact absurd hab (hidle hi)
    · cases ha
      exact absurd hab.symm (hidle hj)
    · rw [hil, hjl]

/-- A response received: its request is no longer in progress. -/
theorem Awaited.receive {ps : List Process} {args : List (Option ThreadArg)} {arg : ThreadArg} {i : Nat}
    (h : Awaited ps args) (res : ResPacket) (hi : args[i]? = some (some arg)) :
    Awaited (modifyMd.receive ps arg res) (args.set i none) := by
  obtain ⟨p, hp, _⟩ := h.awaits i arg hi
  have kept {j : Nat} {a : ThreadArg} (hj : (args.set i none)[j]? = some (some a)) :
      j ≠ i ∧ args[j]? = some (some a) := by
    obtain ⟨-, h⟩ | ⟨hne, hj⟩ := getElem?_set_cases hj
    · cases h
    · exact ⟨Ne.symm hne, hj⟩
  refine ⟨fun j a hj => ?_, fun j k a b hj hk hab => h.once j k a b (kept hj).2 (kept hk).2 hab⟩
  obtain ⟨hne, hj⟩ := kept hj
  obtain ⟨q, hq, hwait⟩ := h.awaits j a hj
  have hclient : arg.client ≠ a.client := fun hab => hne (h.once j i a arg hj hi hab.symm)
  refine ⟨q, ?_, hwait⟩
  simp only [modifyMd, hp]
  rw [List.getElem?_set_ne hclient, hq]

/-- The processes with the lock of a file. -/
def modifiers (ps : List Process) (f : FileName) : Nat := ps.countP (Process.modifies f)

/-- The processes are lawful clients: what each does with its lock is counted. -/
def modifyMdLawful : modifyMd.Lawful where
  Fits := Awaited
  acquired := modifiers
  send_fits := fun h hsend => h.send hsend
  send_acquired := by
    intro ps ps' _ arg holder _ hsend f
    obtain ⟨p, stage, hp, hreq, hname, rfl⟩ := modifyMd_send hsend
    have hcount := countP_set_add (Process.modifies f) hp {p with stage := stage}
    obtain ⟨hop, hs, rfl, rfl⟩ | ⟨hop, res, hs, rfl, rfl⟩ := Process.request_spec hreq
    · rw [Process.not_modifies (p := p) (by simp [hs]), Process.not_modifies (by simp)] at hcount
      simp only [modifiers, Bool.and_false, Bool.toNat_false]
      exact hcount.symm
    · rw [Process.modifies_sleeping hs, Process.not_modifies (by simp)] at hcount
      simp only [modifiers, hop, beq_self_eq_true, Bool.true_and, ← hname]
      exact hcount.symm
  receive_fits := fun res h hi => h.receive res hi
  receive_acquired := by
    intro ps args arg i res h hi f
    obtain ⟨p, hp, hname, hwait⟩ := h.awaits i arg hi
    have hcount := countP_set_add (Process.modifies f) hp {p with stage := p.respond res}
    simp only [modifyMd, hp]
    obtain ⟨hop, hs⟩ | ⟨hop, hs⟩ := hwait
    · have hstage : p.respond res = .sleeping (mdMutexFunc res) := by simp [Process.respond, hs]
      rw [Process.not_modifies (p := p) (by simp [hs]), Process.modifies_sleeping hstage] at hcount
      have hgrant : decide (mdMutexFunc res = 0) = (acquires arg.opType && res.isOk) := by
        rw [hop, Bool.eq_iff_iff, decide_eq_true_iff, mdMutexFunc_zero]
        rfl
      rw [hgrant] at hcount
      rw [← hname]
      exact hcount
    · have hstage : p.respond res = .exited := by simp [Process.respond, hs]
      rw [Process.not_modifies (p := p) (by simp [hs]), Process.not_modifies (by simp [hstage])] at hcount
      simpa [modifiers, hop, not_acquires_unlock] using hcount

/-! ### The processes at work -/

/-- The server and processes that have not yet begun. -/
def modifyMachine : Machine (State MutexTable Nat Empty (List Process)) (Move Unit) :=
  machine server modifyMd mutexTableInit fun ps => ∀ p ∈ ps, p.stage = .start

instance {P L : Type} (th : Thread P L) : Decidable th.Stray := inferInstanceAs (Decidable (_ ∧ _))

/-- Whenever `get_z_mutex` runs for the `MD_UNLOCK` of a process whose lock was
refused, no slot in use is for its file. -/
def strayMissesSlots : Rule (State MutexTable Nat Empty (List Process)) (Move Unit)
  | s, .step i _ => ∀ th ∈ s.threads[i]?, th.pc = .get none → th.Stray →
      ∀ m ∈ s.store.slots, m.count ≠ 0 → m.fileName ≠ th.arg.fileName
  | _, _ => True

instance : ∀ (s : State MutexTable Nat Empty (List Process)) (mv : Move Unit),
    Decidable (strayMissesSlots s mv)
  | s, .step i _ => inferInstanceAs (Decidable (∀ th ∈ s.threads[i]?, th.pc = .get none → th.Stray →
      ∀ m ∈ s.store.slots, m.count ≠ 0 → m.fileName ≠ th.arg.fileName))
  | _, .accept _ => isTrue trivial
  | _, .reply _ => isTrue trivial

theorem modifyMachine_sound {s : State MutexTable Nat Empty (List Process)}
    (h : Reach modifyMachine strayMissesSlots s) : Reach modifyMachine (Sound lawful) s := by
  refine h.mono fun s mv _ _ hrule => ?_
  cases mv with
  | accept arg => trivial
  | step i a =>
    intro th seen hth hlook
    refine ⟨fun l => l.elim, fun hstray p e hp => ?_⟩
    have hpc : th.pc = .get none := by
      cases seen with
      | none => exact hlook.1
      | some l => exact l.elim
    obtain ⟨hm, hcount⟩ := view_some.mp hp
    exact hrule th hth hpc hstray _ (List.mem_of_getElem? hm) hcount rfl
  | reply i => trivial

/-- Processes that have not begun are clients that have been granted nothing. -/
theorem modifyMd_fresh (ps : List Process) (h : ∀ p ∈ ps, p.stage = .start) : Fresh modifyMdLawful ps := by
  refine ⟨⟨fun i arg hi => by simp at hi, fun i j a b hi => by simp at hi⟩, fun f => ?_⟩
  exact List.countP_eq_zero.mpr fun p hp => by simp [Process.not_modifies, h p hp]

/-- **One process at a time.** In every run in which the unlock of a process whose
lock was refused finds no slot in use for its file, no two processes of a file are
between the `OK` to their lock and the sending of their unlock. -/
theorem modify_md_safe {s : State MutexTable Nat Empty (List Process)}
    (h : Reach modifyMachine strayMissesSlots s) {i j : Nat} {f : FileName}
    (hi : s.clients[i]? = some ⟨f, .sleeping 0⟩) (hj : s.clients[j]? = some ⟨f, .sleeping 0⟩) : i = j := by
  obtain ⟨t, hrel, hinv⟩ := refines lawful modifyMdLawful init_clear init_view modifyMd_fresh
    (modifyMachine_sound h)
  have hone := hrel.holders_le_one hinv f
  by_contra hne
  have htwo : 2 ≤ modifiers s.clients f :=
    two_le_countP (Process.modifies f) hne hi hj (by simp [Process.modifies]) (by simp [Process.modifies])
  simp only [holders, modifyMdLawful] at hone
  omega

/-- A lock granted by thread `i`, when the mutex of the file is free. -/
def lockMoves (i client : Nat) (f : FileName) : List (Move Unit) :=
  [.accept ⟨mdLock, client, f⟩, .step i (), .step i (), .reply i]

/-- An unlock by thread `i`, when there is a slot in use for the file. -/
def unlockMoves (i client : Nat) (f : FileName) : List (Move Unit) :=
  [.accept ⟨mdUnlock, client, f⟩, .step i (), .step i (), .step i (), .reply i]

/-- Eight files are locked when process 8 asks for a ninth and is refused. Process 0
unlocks, process 9 gets the ninth file, and the unlock of process 8 finds the slot
and frees it: process 10 gets the file as well. -/
theorem two_modifiers : ∃ s f, Reachable modifyMachine s ∧ s.clients[9]? = some ⟨f, .sleeping 0⟩ ∧
    s.clients[10]? = some ⟨f, .sleeping 0⟩ := by
  let name (c : UInt8) (hc : 0 ∉ [c] := by decide) : FileName := ⟨[c], hc, by simp [maxPath]⟩
  let f := name 105
  let ps : List Process := [⟨name 97, .start⟩, ⟨name 98, .start⟩, ⟨name 99, .start⟩, ⟨name 100, .start⟩,
    ⟨name 101, .start⟩, ⟨name 102, .start⟩, ⟨name 103, .start⟩, ⟨name 104, .start⟩, ⟨f, .start⟩,
    ⟨f, .start⟩, ⟨f, .start⟩]
  let moves := lockMoves 0 0 (name 97) ++ lockMoves 1 1 (name 98) ++ lockMoves 2 2 (name 99) ++
    lockMoves 3 3 (name 100) ++ lockMoves 4 4 (name 101) ++ lockMoves 5 5 (name 102) ++
    lockMoves 6 6 (name 103) ++ lockMoves 7 7 (name 104) ++
    [.accept ⟨mdLock, 8, f⟩, .step 8 (), .reply 8] ++
    unlockMoves 9 0 (name 97) ++ lockMoves 10 9 f ++ unlockMoves 11 8 f ++ lockMoves 12 10 f
  obtain ⟨s, hreach, hs⟩ := Reach.exists_run (M := modifyMachine) (R := always) moves
    (fun s => s.clients[9]? = some ⟨f, .sleeping 0⟩ && s.clients[10]? = some ⟨f, .sleeping 0⟩)
    (.start (s := ⟨mutexTableInit, [], ps⟩) ⟨rfl, rfl, by decide⟩) (by decide +kernel)
  simp only [Bool.and_eq_true, decide_eq_true_eq] at hs
  exact ⟨s, f, hreach, hs.1, hs.2⟩

/-- Process 1 gets the file after process 0 has released it. -/
theorem modify_md_safe_twice : ∃ s f, Reach modifyMachine strayMissesSlots s ∧
    s.clients[1]? = some ⟨f, .sleeping 0⟩ ∧ ∀ i, s.clients[i]? = some ⟨f, .sleeping 0⟩ → i = 1 := by
  let f : FileName := ⟨[102], by decide, by decide⟩
  obtain ⟨s, hreach, hs⟩ := Reach.exists_run (M := modifyMachine) (R := strayMissesSlots)
    (lockMoves 0 0 f ++ [.accept ⟨mdLock, 1, f⟩, .step 1 ()] ++ unlockMoves 2 0 f ++ [.step 1 (), .reply 1])
    (fun s => s.clients[1]? = some ⟨f, .sleeping 0⟩)
    (.start (s := ⟨mutexTableInit, [], [⟨f, .start⟩, ⟨f, .start⟩]⟩) ⟨rfl, rfl, by decide⟩) (by decide)
  simp only [decide_eq_true_eq] at hs
  exact ⟨s, f, hreach, hs, fun i hi => modify_md_safe hreach hi hs⟩

end CacheFs.Mutex.Table
