import CacheFs.Library.Linearization
import CacheFs.Mutex.HashServer
import CacheFs.Mutex.OpCodes
import CacheFs.Mutex.TableServer

/-! The lock servers are linearizable.

A request takes several steps, and those of other requests come between: the lookup, the
call on the `p_mutex`, the put. What the clients see is still a service that does each
request at one moment between its arrival and its answer (`LockService`): a lookup that
is refused, or the call on the `p_mutex`. A file is locked there while there is a holder
of it, which the threads and the clients say together. -/
namespace CacheFs.Mutex
open Transition Registry Members Linearization

/-! ### Locks, one request at a time -/

/-- What is locked, a request, its answer, and what is locked then. Any request but for one to
give back a lock may be refused for want of room. -/
inductive LockService : Spec (FileName → Bool) ThreadArg ResPacket where
  | granted {locked : FileName → Bool} {arg : ThreadArg} : acquires arg.opType = true → locked arg.fileName = false →
      LockService locked arg .ok (Function.update locked arg.fileName true)
  | taken {locked : FileName → Bool} {arg : ThreadArg} : arg.opType = mdTryLock → locked arg.fileName = true →
      LockService locked arg (.notOk .tryLockFail) locked
  | noRoom {locked : FileName → Bool} {arg : ThreadArg} : acquires arg.opType = true → locked arg.fileName = false →
      LockService locked arg (.notOk .allocMutexFail) locked
  | released {locked : FileName → Bool} {arg : ThreadArg} : arg.opType = mdUnlock → locked arg.fileName = true →
      LockService locked arg .ok (Function.update locked arg.fileName false)
  | notLocked {locked : FileName → Bool} {arg : ThreadArg} : arg.opType = mdUnlock → locked arg.fileName = false →
      LockService locked arg (.notOk .allocMutexFail) locked
  | unknown {locked : FileName → Bool} {arg : ThreadArg} {why : FailT} : Unknown arg.opType →
      why = .unrecognizedOpType ∨ why = .allocMutexFail → LockService locked arg (.notOk why) locked

/-- A file that a request locks is free before, and one that it unlocks is locked. -/
theorem LockService.granted_or_released {locked locked' : FileName → Bool} {arg : ThreadArg} {res : ResPacket}
    (h : LockService locked arg res locked') (f : FileName) :
    (locked f).toNat + (acquires arg.opType && arg.fileName == f && res.isOk).toNat =
      (arg.opType == mdUnlock && arg.fileName == f && res.isOk).toNat + (locked' f).toNat := by
  cases h with
  | granted hop hfree =>
    by_cases hf : arg.fileName = f
    · subst hf
      simp [hop, unlock_of_acquires hop, hfree]
    · simp [beq_false_of_ne hf, Function.update_of_ne (Ne.symm hf)]
  | released hop htaken =>
    by_cases hf : arg.fileName = f
    · subst hf
      simp [hop, not_acquires_unlock, htaken]
    · simp [beq_false_of_ne hf, Function.update_of_ne (Ne.symm hf)]
  | taken | noRoom | notLocked | unknown => simp

/-- Of one file as many locks are granted as are given back, and one more while it is locked. -/
theorem granted_count {l : List (Operation ThreadArg ResPacket)} {locked : FileName → Bool}
    (h : Serial LockService (fun _ => false) l locked) (f : FileName) :
    l.countP (fun e => acquires e.op.opType && e.op.fileName == f && e.result.isOk) =
      l.countP (fun e => e.op.opType == mdUnlock && e.op.fileName == f && e.result.isOk) + (locked f).toNat := by
  induction h with
  | nil => rfl
  | snoc _ hstep ih =>
    have hone := hstep.granted_or_released f
    simp only [countP_append_one]
    omega

/-- Of a file that nobody gives back at most one request is granted. -/
theorem granted_once {h : List (Event ThreadArg ResPacket)} {l : List (Operation ThreadArg ResPacket)}
    {locked : FileName → Bool} (hl : Linearizes LockService (fun _ => false) h l locked) {f : FileName}
    (hlocks : ∀ i arg, .invoke i arg ∈ h → acquires arg.opType = true ∧ arg.fileName = f) {i j : Nat}
    (hi : .respond i .ok ∈ h) (hj : .respond j .ok ∈ h) : i = j := by
  by_contra hne
  obtain ⟨op, hopi⟩ := hl.responded i _ hi
  obtain ⟨op', hopj⟩ := hl.responded j _ hj
  have hnone : l.countP (fun e => e.op.opType == mdUnlock && e.op.fileName == f && e.result.isOk) = 0 := by
    rw [List.countP_eq_zero]
    intro e he
    simp [unlock_of_acquires (hlocks _ _ (hl.invoked e he)).1]
  have hboth : 2 ≤ l.countP (fun e => acquires e.op.opType && e.op.fileName == f && e.result.isOk) := by
    have hsub : List.Subperm [(⟨i, op, .ok⟩ : Operation ThreadArg ResPacket), ⟨j, op', .ok⟩] l := by
      apply List.Nodup.subperm
      · simp [hne]
      · simp [hopi, hopj]
    refine le_trans ?_ (hsub.countP_le _)
    have hi' := hlocks _ _ (hl.invoked _ hopi)
    have hj' := hlocks _ _ (hl.invoked _ hopj)
    simp only at hi' hj'
    simp [hi', hj']
  have hcount := granted_count hl.serial f
  have hone := Bool.toNat_le (locked f)
  omega

/-! ### The server and its history -/

section Traced
variable {S P L A C : Type}

structure Traced (S P L C : Type) where
  state : State S P L C
  history : List (Event ThreadArg ResPacket)

/-- What the clients see of a move. A request's call is the place of its thread. -/
def seen (s : State S P L C) : Move A → List (Event ThreadArg ResPacket)
  | .accept arg => [.invoke s.threads.length arg]
  | .step _ _ => []
  | .reply i =>
    match s.threads[i]? with
    | some ⟨_, _, .reply res⟩ => [.respond i res]
    | _ => []

def traced (V : Server S P L A) (K : Clients C) (empty : S) (fresh : C → Prop) :
    Machine (Traced S P L C) (Move A) where
  start := fun s => (machine V K empty fresh).start s.state ∧ s.history = []
  step := fun s mv => (next V K s.state mv).map fun t => ⟨t, s.history ++ seen s.state mv⟩

/-- A run with its history is a run. -/
theorem traced_reach {V : Server S P L A} {K : Clients C} {empty : S} {fresh : C → Prop}
    {R : Rule (State S P L C) (Move A)} {s : Traced S P L C}
    (h : Reach (traced V K empty fresh) (fun s mv => R s.state mv) s) : Reach (machine V K empty fresh) R s.state := by
  refine h.invariant (I := fun s => Reach (machine V K empty fresh) R s.state) ?_ ?_
  · intro s hs
    have hstart : (machine V K empty fresh).start s.state := hs.1
    exact .start hstart
  · intro s mv s' hreach hrule hstep
    obtain ⟨t, hnext, rfl⟩ := Option.map_eq_some_iff.mp hstep
    exact .step hreach hrule hnext

/-- The answer that is decided, and not yet written. -/
def Pc.decided : Pc P L → Option ResPacket
  | .put _ res | .reply res => some res
  | .get _ | .call _ | .exited => none

/-- Nothing is decided yet. -/
def Pc.Open : Pc P L → Prop
  | .get _ | .call _ => True
  | .put _ _ | .reply _ | .exited => False

/-- Each thread's request is in the history, and in the order once its answer is decided. -/
structure Committed (threads : List (Thread P L)) (h : List (Event ThreadArg ResPacket))
    (l : List (Operation ThreadArg ResPacket)) : Prop where
  invoked : ∀ (i : Nat) (th : Thread P L), threads[i]? = some th → .invoke i th.arg ∈ h
  decided : ∀ (i : Nat) (th : Thread P L), threads[i]? = some th → ∀ res, th.pc.decided = some res →
    ⟨i, th.arg, res⟩ ∈ l
  undecided : ∀ (i : Nat) (th : Thread P L), threads[i]? = some th → th.pc.Open → ∀ e ∈ l, e.call ≠ i
  bound : ∀ e ∈ l, e.call < threads.length

namespace Committed
variable {threads : List (Thread P L)} {h : List (Event ThreadArg ResPacket)} {l : List (Operation ThreadArg ResPacket)}

theorem nil : Committed ([] : List (Thread P L)) [] [] :=
  ⟨by simp, by simp, by simp, by simp⟩

theorem accept (hc : Committed threads h l) (arg : ThreadArg) (holder : Bool) :
    Committed (threads ++ [⟨arg, holder, .get none⟩]) (h ++ [.invoke threads.length arg]) l := by
  refine ⟨?_, ?_, ?_, ?_⟩
  · intro i th hth
    obtain hold | ⟨rfl, rfl⟩ := getElem?_append_one hth
    · exact List.mem_append_left _ (hc.invoked i th hold)
    · exact List.mem_append_right _ (List.mem_singleton.mpr rfl)
  · intro i th hth res hres
    obtain hold | ⟨rfl, rfl⟩ := getElem?_append_one hth
    · exact hc.decided i th hold res hres
    · cases hres
  · intro i th hth hopen e he
    obtain hold | ⟨rfl, rfl⟩ := getElem?_append_one hth
    · exact hc.undecided i th hold hopen e he
    · exact Nat.ne_of_lt (hc.bound e he)
  · intro e he
    rw [List.length_append]
    exact Nat.lt_add_right _ (hc.bound e he)

/-- A thread's step that decides nothing. -/
theorem keep (hc : Committed threads h l) {i : Nat} {th : Thread P L} (hth : threads[i]? = some th) {pc : Pc P L}
    (hopen : pc.Open → th.pc.Open) (hdecided : ∀ res, pc.decided = some res → th.pc.decided = some res) :
    Committed (threads.set i {th with pc := pc}) h l := by
  refine ⟨?_, ?_, ?_, ?_⟩
  · intro j th' hth'
    obtain ⟨rfl, rfl⟩ | ⟨-, hold⟩ := getElem?_set_cases hth'
    · exact hc.invoked i th hth
    · exact hc.invoked j th' hold
  · intro j th' hth' res hres
    obtain ⟨rfl, rfl⟩ | ⟨-, hold⟩ := getElem?_set_cases hth'
    · exact hc.decided i th hth res (hdecided res hres)
    · exact hc.decided j th' hold res hres
  · intro j th' hth' hopen'
    obtain ⟨rfl, rfl⟩ | ⟨-, hold⟩ := getElem?_set_cases hth'
    · exact hc.undecided i th hth (hopen hopen')
    · exact hc.undecided j th' hold hopen'
  · intro e he
    rw [List.length_set]
    exact hc.bound e he

/-- A thread's step that decides its answer. -/
theorem decide (hc : Committed threads h l) {i : Nat} {th : Thread P L} (hth : threads[i]? = some th) {pc : Pc P L}
    {res : ResPacket} (hres : pc.decided = some res) :
    Committed (threads.set i {th with pc := pc}) h (l ++ [⟨i, th.arg, res⟩]) := by
  have hnot : ¬ pc.Open := by
    cases pc <;> simp [Pc.decided, Pc.Open] at hres ⊢
  refine ⟨?_, ?_, ?_, ?_⟩
  · intro j th' hth'
    obtain ⟨rfl, rfl⟩ | ⟨-, hold⟩ := getElem?_set_cases hth'
    · exact hc.invoked i th hth
    · exact hc.invoked j th' hold
  · intro j th' hth' res' hres'
    obtain ⟨rfl, rfl⟩ | ⟨-, hold⟩ := getElem?_set_cases hth'
    · cases hres.symm.trans hres'
      exact List.mem_append_right _ (List.mem_singleton.mpr rfl)
    · exact List.mem_append_left _ (hc.decided j th' hold res' hres')
  · intro j th' hth' hopen' e he
    obtain ⟨rfl, rfl⟩ | ⟨hne, hold⟩ := getElem?_set_cases hth'
    · exact absurd hopen' hnot
    · obtain he | he := List.mem_append.mp he
      · exact hc.undecided j th' hold hopen' e he
      · rw [List.mem_singleton.mp he]
        exact hne
  · intro e he
    rw [List.length_set]
    obtain he | he := List.mem_append.mp he
    · exact hc.bound e he
    · rw [List.mem_singleton.mp he]
      exact (List.getElem?_eq_some_iff.mp hth).1

/-- A history that goes on is still one of the requests. -/
theorem later (hc : Committed threads h l) (e : Event ThreadArg ResPacket) : Committed threads (h ++ [e]) l :=
  ⟨fun i th hth => List.mem_append_left _ (hc.invoked i th hth), hc.decided, hc.undecided, hc.bound⟩

end Committed

end Traced

/-! ### What is locked -/

section Locked
variable {S P L A C : Type} {V : Server S P L A} {K : Clients C} (Q : K.Lawful) {s s' : State S P L C}

/-- A file is locked while there is a holder of it. -/
def locked (s : State S P L C) (f : FileName) : Bool := decide (holders Q s f = 1)

variable {Q}

theorem locked_congr (h : ∀ f, holders Q s' f = holders Q s f) : locked Q s' = locked Q s := by
  funext f
  rw [locked, locked, h f]

/-- The holders of one file change. -/
theorem locked_update {g : FileName} {b : Bool} (hown : locked Q s' g = b)
    (hother : ∀ f, f ≠ g → holders Q s' f = holders Q s f) : locked Q s' = Function.update (locked Q s) g b := by
  funext f
  by_cases hf : f = g
  · rw [hf, hown, Function.update_self]
  · rw [Function.update_of_ne hf, locked, locked, hother f hf]

/-- A thread's step that changes nothing of what it holds. -/
theorem locked_step {i : Nat} {th : Thread P L} (hth : s.threads[i]? = some th) {pc : Pc P L} (store : S)
    (hsame : ∀ f, Thread.holds f {th with pc := pc} = th.holds f) :
    locked Q {s with store := store, threads := s.threads.set i {th with pc := pc}} = locked Q s := by
  apply locked_congr
  intro f
  have := holders_step Q hth pc store f
  rw [hsame f] at this
  omega

/-- A request that gives back a lock is its holder from then on. -/
theorem holders_accept (hfits : Q.Fits s.clients (pending s.threads)) {arg : ThreadArg} {clients : C} {holder : Bool}
    (hsend : K.send s.clients arg = some (clients, holder)) (f : FileName) :
    holders Q {s with threads := s.threads ++ [⟨arg, holder, .get none⟩], clients := clients} f = holders Q s f := by
  have hacquired := Q.send_acquired hfits hsend f
  simp only [holders, countP_append_one, Thread.holds]
  omega

/-- An answer that grants a lock makes its client the holder. -/
theorem holders_reply (hfits : Q.Fits s.clients (pending s.threads)) {i : Nat} {arg : ThreadArg} {holder : Bool}
    {res : ResPacket} (hth : s.threads[i]? = some ⟨arg, holder, .reply res⟩) (f : FileName) :
    holders Q {s with
      threads := s.threads.set i ⟨arg, holder, .exited⟩
      clients := K.receive s.clients arg res} f = holders Q s f := by
  have hpending : (pending s.threads)[i]? = some (some arg) := by
    rw [pending, List.getElem?_map, hth]
    rfl
  have hacquired := Q.receive_acquired res hfits hpending f
  have hthreads := countP_set_add (Thread.holds f) hth ⟨arg, holder, .exited⟩
  simp only [holders]
  simp only [Thread.holds, Bool.and_false, Bool.toNat_false] at hthreads
  omega

end Locked

/-! ### The steps of a thread -/

section Steps
variable {S P L A C : Type} {V : Server S P L A} {K : Clients C} {Q : K.Lawful} {s : State S P L C}
  {t : State Named FileName Empty C} {h : List (Event ThreadArg ResPacket)} {i : Nat} {th : Thread P L} {pc : Pc P L}
  {store : S}

/-- The history has an order on the lock service that ends with what is locked, in which each
thread's request is from when its answer is decided. -/
def Ordered (Q : K.Lawful) (s : State S P L C) (h : List (Event ThreadArg ResPacket)) : Prop :=
  ∃ l, Linearizes LockService (fun _ => false) h l (locked Q s) ∧ Committed s.threads h l

theorem Ordered.keep (ho : Ordered Q s h) (hth : s.threads[i]? = some th)
    (hsame : ∀ f, Thread.holds f {th with pc := pc} = th.holds f) (hopen : pc.Open → th.pc.Open)
    (hdecided : ∀ res, pc.decided = some res → th.pc.decided = some res) :
    Ordered Q {s with store := store, threads := s.threads.set i {th with pc := pc}} h := by
  obtain ⟨l, hl, hc⟩ := ho
  refine ⟨l, ?_, hc.keep hth hopen hdecided⟩
  rw [locked_step hth store hsame]
  exact hl

theorem Ordered.decide (ho : Ordered Q s h) (hth : s.threads[i]? = some th) (hopen : th.pc.Open) {res : ResPacket}
    (hres : pc.decided = some res)
    (hspec : LockService (locked Q s) th.arg res
      (locked Q {s with store := store, threads := s.threads.set i {th with pc := pc}})) :
    Ordered Q {s with store := store, threads := s.threads.set i {th with pc := pc}} h := by
  obtain ⟨l, hl, hc⟩ := ho
  exact ⟨_, hl.commit hspec (hc.invoked i th hth) (hc.undecided i th hth hopen), hc.decide hth hres⟩

/-- An answer that leaves what is held as it is. -/
theorem Ordered.answer (ho : Ordered Q s h) (hth : s.threads[i]? = some th) (hopen : th.pc.Open) {res : ResPacket}
    (hres : pc.decided = some res) (hsame : ∀ f, Thread.holds f {th with pc := pc} = th.holds f)
    (hspec : LockService (locked Q s) th.arg res (locked Q s)) :
    Ordered Q {s with store := store, threads := s.threads.set i {th with pc := pc}} h := by
  apply ho.decide hth hopen hres
  rw [locked_step hth store hsame]
  exact hspec

/-- What is neither a lock nor an unlock is unknown. -/
theorem unknown_of_other {opType : UInt8} (hop : acquires opType = false) (hunlock : opType ≠ mdUnlock) :
    Unknown opType := by
  refine ⟨?_, ?_, hunlock⟩
  · rintro rfl
    cases hop
  · rintro rfl
    cases hop

/-- Only a try is refused for a lock that is taken: a lock waits. -/
theorem tryLock_of_taken {m : P} {s' : S}
    (h : V.call flagMutex th.arg m s.store = some (.put m (.notOk .tryLockFail), s')) (hop : acquires th.arg.opType = true) : th.arg.opType = mdTryLock := by
  simp only [acquires, Bool.or_eq_true, beq_iff_eq] at hop
  obtain hop | hop := hop
  · simp only [Server.call, hop, if_true, Option.map_eq_some_iff, Prod.mk.injEq] at h
    obtain ⟨⟨rc, s''⟩, -, hput, -⟩ := h
    split at hput <;> cases hput
  · exact hop

variable [DecidableEq P] {W : V.Lawful}

/-- A file without an entry has no holder. -/
theorem Rel.not_locked (hrel : Rel W s t) (hinv : Inv Q t) {f : FileName} (h : Absent (W.view s.store) f) :
    locked Q s f = false := by
  have hle := holders_le_users Q s f
  have hzero : Mutex.users Q s f = 0 := by
    apply Classical.byContradiction
    intro hpos
    obtain ⟨p, e, he⟩ := hrel.entry_of_users hinv (Nat.pos_of_ne_zero hpos)
    exact h p e he
  rw [locked, decide_eq_false_iff_not]
  omega

/-- A refused lookup is the request done. -/
theorem Rel.lookup_ordered (hrel : Rel W s t) (hinv : Inv Q t) (ho : Ordered Q s h) (hth : s.threads[i]? = some th)
    {seen : Option L} {a : A} (hpc : th.pc = .get seen)
    (hcurrent : ∀ l, seen = some l → W.Current s.store th.arg.fileName l)
    (hlook : V.lookup th.arg seen a s.store = some (pc, store)) :
    Ordered Q {s with store := store, threads := s.threads.set i {th with pc := pc}} h := by
  obtain ⟨r, hget, rfl⟩ := Server.lookup_eq_some.mp hlook
  cases r with
  | some m =>
    refine ho.keep hth ?_ ?_ ?_
    · intro f
      simp [Thread.holds, hpc]
    · intro _
      rw [hpc]
      trivial
    · intro res hres
      cases hres
  | none =>
    have hopen : th.pc.Open := by
      rw [hpc]
      trivial
    -- a thread that has a lock to give back finds it
    have hfree (habsent : Absent (W.view s.store) th.arg.fileName) :
        (th.arg.opType == mdUnlock && th.holder) = false := by
      by_contra hholds
      have hone : th.holds th.arg.fileName = true := by simpa [Thread.holds, hpc] using hholds
      have hpos : 0 < Mutex.users Q s th.arg.fileName :=
        users_pos Q (List.mem_of_getElem? hth) (Thread.uses_of_holds hone)
      obtain ⟨p, e, he⟩ := hrel.entry_of_users hinv hpos
      exact habsent p e he
    have hsame (hnone : (th.arg.opType == mdUnlock && th.holder) = false) (f : FileName) :
        Thread.holds f ({th with pc := afterGet none} : Thread P L) = th.holds f := by
      simp only [Thread.holds, hpc, afterGet_none, ResPacket.isOk_notOk, Bool.and_false, hnone]
    cases W.get_looked hrel.inv hcurrent hget with
    | refused hop habsent hview =>
      exact ho.answer hth hopen rfl (hsame (hfree habsent)) (.noRoom hop (hrel.not_locked hinv habsent))
    | missing hop habsent hview =>
      exact ho.answer hth hopen rfl (hsame (hfree habsent)) (.notLocked hop (hrel.not_locked hinv habsent))
    | other hop hunlock hview =>
      have hnone : (th.arg.opType == mdUnlock && th.holder) = false := by simp [hunlock]
      exact ho.answer hth hopen rfl (hsame hnone) (.unknown (unknown_of_other hop hunlock) (.inr rfl))

/-- The call on the `p_mutex` is the request done. -/
theorem Rel.call_ordered (hrel : Rel W s t) (hinv : Inv Q t) (ho : Ordered Q s h) (hth : s.threads[i]? = some th)
    {m : P} (hpc : th.pc = .call m) (hcall : V.call flagMutex th.arg m s.store = some (pc, store))
    (hone : ∀ f, Mutex.holders Q {s with store := store, threads := s.threads.set i {th with pc := pc}} f ≤ 1) :
    Ordered Q {s with store := store, threads := s.threads.set i {th with pc := pc}} h := by
  have hopen : th.pc.Open := by
    rw [hpc]
    trivial
  have hstep (f : FileName) := holders_step Q hth pc store f
  have hbefore (f : FileName) := hrel.holders_le_one hinv (Q := Q) f
  have hother : ∀ f, f ≠ th.arg.fileName →
      Mutex.holders Q {s with store := store, threads := s.threads.set i {th with pc := pc}} f = Mutex.holders Q s f := by
    intro f hf
    have hold : th.holds f = false := holds_other hf th.pc
    have hnew : Thread.holds f {th with pc := pc} = false := holds_other hf pc
    have := hstep f
    rw [hold, hnew] at this
    omega
  rcases Server.call_cases hcall with ⟨hop, htaken, rfl, rfl⟩ | ⟨hop, htaken, rfl, rfl⟩ |
    ⟨hop, htaken, rfl, rfl⟩ | ⟨hop, hunlock, rfl, rfl⟩
  · -- the thread becomes the holder, so there was none
    have hown := hstep th.arg.fileName
    have hle := hone th.arg.fileName
    simp only [Thread.holds, hpc, hop, unlock_of_acquires hop, ResPacket.isOk_ok, beq_self_eq_true, Bool.false_and,
      Bool.and_false, Bool.and_self, Bool.toNat_false, Bool.toNat_true] at hown
    refine ho.decide hth hopen rfl ?_
    rw [locked_update (b := true) (decide_eq_true (by omega)) hother]
    exact .granted hop (decide_eq_false (by omega))
  · -- the lock is taken, so there is a holder
    obtain ⟨e, he⟩ := hrel.pointers th (List.mem_of_getElem? hth) m ⟨.inl hpc, .inl hop⟩
    obtain ⟨-, -, hlocked⟩ := hrel.entry hinv (Q := Q) he
    rw [W.mutex_eq hrel.inv he, Option.some.injEq, hlocked] at htaken
    have hsame (f : FileName) :
        Thread.holds f ({th with pc := .put m (.notOk .tryLockFail)} : Thread P L) = th.holds f := by
      simp only [Thread.holds, hpc, unlock_of_acquires hop, Bool.false_and, Bool.and_false]
    exact ho.answer hth hopen rfl hsame (.taken (tryLock_of_taken hcall hop) htaken)
  · -- the thread is the holder
    have hstray : ¬ th.Stray := by
      have hok := hinv.threads th.named (hrel.threads ▸ List.mem_map_of_mem (List.mem_of_getElem? hth))
      simp only [Thread.Ok, Thread.named, Pc.named, hpc] at hok
      exact hok.2
    have hholder : th.holder = true := by
      by_contra hnot
      exact hstray ⟨hop, by simpa using hnot⟩
    have hown := hstep th.arg.fileName
    have hle := hbefore th.arg.fileName
    have hold : th.holds th.arg.fileName = true := by simp [Thread.holds, hpc, hop, hholder]
    have hnew : Thread.holds th.arg.fileName ({th with pc := .put m .ok} : Thread P L) = false := by simp [Thread.holds]
    rw [hold, hnew, Bool.toNat_true, Bool.toNat_false] at hown
    have hbusy : Mutex.holders Q s th.arg.fileName = 1 := by omega
    refine ho.decide hth hopen rfl ?_
    rw [locked_update (b := false) (decide_eq_false (by omega)) hother]
    exact .released hop (decide_eq_true hbusy)
  · have hsame (f : FileName) :
        Thread.holds f ({th with pc := .reply (.notOk .unrecognizedOpType)} : Thread P L) = th.holds f := by
      simp [Thread.holds, hpc, hunlock]
    exact ho.answer hth hopen rfl hsame (.unknown (unknown_of_other hop hunlock) (.inl rfl))

/-- A put changes nothing of what is locked. -/
theorem Rel.put_ordered (hrel : Rel W s t) (hinv : Inv Q t) (ho : Ordered Q s h) (hth : s.threads[i]? = some th)
    {m : P} {res : ResPacket} (hpc : th.pc = .put m res) :
    Ordered Q {s with store := store, threads := s.threads.set i {th with pc := .reply res}} h := by
  have hgrant : (acquires th.arg.opType && res.isOk) = false := by
    have hok := hinv.threads th.named (hrel.threads ▸ List.mem_map_of_mem (List.mem_of_getElem? hth))
    simp only [Thread.Ok, Thread.named, Pc.named, hpc] at hok
    obtain ⟨-, hnot⟩ | hop := hok.2
    · rw [hnot, Bool.and_false]
    · rw [hop, not_acquires_unlock, Bool.false_and]
  refine ho.keep hth ?_ (fun h => h.elim) ?_
  · intro f
    simp only [Thread.holds, hpc, hgrant, Bool.and_false]
  · intro res' hres
    rw [hpc]
    exact hres

/-- The requests in progress are the same on the map. -/
theorem Rel.fits (hrel : Rel W s t) (hinv : Inv Q t) : Q.Fits s.clients (pending s.threads) := by
  have hpending : pending t.threads = pending s.threads := by
    rw [hrel.threads, pending, pending, List.map_map]
    apply List.map_congr_left
    intro th _
    cases hpc : th.pc <;> simp [Thread.named, Pc.named, hpc]
  rw [← hpending, ← hrel.clients]
  exact hinv.clients

end Steps

/-! ### Runs -/

section Runs
variable {S P L A C : Type} [DecidableEq P] {V : Server S P L A}

/-- In every sound run the history is that of a lock service. -/
theorem ordered (W : V.Lawful) {K : Clients C} (Q : K.Lawful) {empty : S} (hempty : W.Inv empty)
    (hview : ∀ p, W.view empty p = none) {fresh : C → Prop} (hfresh : ∀ c, fresh c → Fresh Q c) {s : Traced S P L C}
    (h : Reach (traced V K empty fresh) (fun s mv => Sound W s.state mv) s) :
    Reach (machine V K empty fresh) (Sound W) s.state ∧ Ordered Q s.state s.history := by
  refine h.invariant
    (I := fun s => Reach (machine V K empty fresh) (Sound W) s.state ∧ Ordered Q s.state s.history) ?_ ?_
  · intro s hs
    have hthreads : s.state.threads = [] := hs.1.2.1
    have hhistory : s.history = [] := hs.2
    refine ⟨.start hs.1, [], ?_, ?_⟩
    · have hnone : locked Q s.state = fun _ => false := by
        funext f
        have hclients := (hfresh _ hs.1.2.2).2 f
        simp [locked, holders, hthreads, hclients]
      rw [hnone, hhistory]
      exact .nil
    · rw [hthreads, hhistory]
      exact .nil
  · intro s mv s' hI hsound hstep
    obtain ⟨hreach, ho⟩ := hI
    obtain ⟨next', hnext, rfl⟩ := Option.map_eq_some_iff.mp hstep
    have hreach' : Reach (machine V K empty fresh) (Sound W) next' := .step hreach hsound hnext
    refine ⟨hreach', ?_⟩
    obtain ⟨t, hrel, hinv⟩ := refines W Q hempty hview hfresh hreach
    obtain ⟨t', hrel', hinv'⟩ := refines W Q hempty hview hfresh hreach'
    have hone := hrel'.holders_le_one hinv'
    cases mv with
    | accept arg =>
      obtain ⟨clients, holder, hsend, rfl⟩ := next_accept hnext
      obtain ⟨l, hl, hc⟩ := ho
      refine ⟨l, ?_, hc.accept arg holder⟩
      rw [locked_congr (holders_accept (hrel.fits hinv) hsend)]
      exact hl.invoke fun e he => Nat.ne_of_lt (hc.bound e he)
    | step i a =>
      obtain ⟨th, pc, store, hth, hfunc, rfl⟩ := next_step hnext
      simp only [seen, List.append_nil]
      rcases Server.threadFunc_cases hfunc with ⟨x, hpc, hpeek, rfl, rfl⟩ | ⟨x, hpc, hpeek, hlook⟩ |
        ⟨p, hpc, hcall⟩ | ⟨p, res, hpc, hput, rfl⟩
      · refine ho.keep hth ?_ ?_ ?_
        · intro f
          simp [Thread.holds, hpc]
        · intro _
          rw [hpc]
          trivial
        · intro res hres
          cases hres
      · exact hrel.lookup_ordered hinv ho hth hpc (hsound th x hth ⟨hpc, hpeek⟩).1 hlook
      · exact hrel.call_ordered hinv ho hth hpc hcall hone
      · exact hrel.put_ordered hinv ho hth hpc
    | reply i =>
      obtain ⟨arg, holder, res, hth, rfl⟩ := next_reply hnext
      obtain ⟨l, hl, hc⟩ := ho
      have hseen : seen s.state (.reply i : Move A) = [.respond i res] := by
        simp only [seen, hth]
      have hexited : Committed (s.state.threads.set i ⟨arg, holder, .exited⟩) s.history l :=
        hc.keep hth (fun h => h.elim) fun _ h => by cases h
      rw [hseen]
      refine ⟨l, ?_, hexited.later _⟩
      rw [locked_congr (holders_reply (hrel.fits hinv) hth)]
      exact hl.respond (hc.decided i _ hth res rfl)

/-- Clients that unlock what they hold see a lock service when the lookups go on from what is current. -/
theorem disciplined_ordered (W : V.Lawful) {empty : S} (hempty : W.Inv empty) (hview : ∀ p, W.view empty p = none)
    {R : Rule (State S P L (List (Nat × FileName))) (Move A)}
    (hcurrent : ∀ s i a, R s (.step i a) → ∀ th l, s.threads[i]? = some th → th.pc = .get (some l) →
      W.Current s.store th.arg.fileName l) {s : Traced S P L (List (Nat × FileName))}
    (h : Reach (traced V disciplined empty (· = [])) (fun s mv => R s.state mv) s) :
    ∃ l, Linearizes LockService (fun _ => false) s.history l (locked disciplinedLawful s.state) := by
  have hsound : Reach (traced V disciplined empty (· = [])) (fun s mv => Sound W s.state mv) s := by
    refine h.mono fun s mv _ hs hrule => ?_
    have hnone := disciplined_not_stray (traced_reach hs)
    cases mv with
    | accept arg => trivial
    | step i a =>
      intro th x hth hlook
      refine ⟨?_, fun hstray => absurd hstray (hnone th (List.mem_of_getElem? hth))⟩
      intro l hl
      exact hcurrent _ i a hrule th l hth (hl ▸ hlook.1)
    | reply i => trivial
  obtain ⟨-, l, hl, -⟩ := ordered W disciplinedLawful hempty hview disciplined_fresh hsound
  exact ⟨l, hl⟩

end Runs

/-! ### The two servers -/

/-- **The table server is linearizable.** Whatever the interleaving of its threads, the answers are
those of a service that does each request at one moment between its arrival and its answer, and
what is locked there is what has a holder. -/
theorem Table.linearizable {s : Traced MutexTable Nat Empty (List (Nat × FileName))}
    (h : Reachable (traced Table.server disciplined Table.mutexTableInit (· = [])) s) :
    ∃ l, Linearizes LockService (fun _ => false) s.history l (locked disciplinedLawful s.state) :=
  disciplined_ordered Table.lawful Table.init_clear Table.init_view (R := always) (fun _ _ _ _ _ l => l.elim) h

/-- Client 8 asks while client 7 does, and is told first that the lock is taken. -/
theorem Table.linearizable_overlap : ∃ (s : Traced MutexTable Nat Empty (List (Nat × FileName))) (f : FileName),
    s.history =
      [.invoke 0 ⟨mdLock, 7, f⟩, .invoke 1 ⟨mdTryLock, 8, f⟩, .respond 1 (.notOk .tryLockFail), .respond 0 .ok] ∧
    ∃ l, Linearizes LockService (fun _ => false) s.history l (locked disciplinedLawful s.state) := by
  let f : FileName := ⟨[102], by decide, by decide⟩
  obtain ⟨s, hreach, hs⟩ := Reach.exists_run
    (M := traced Table.server disciplined Table.mutexTableInit (· = [])) (R := always)
    [.accept ⟨mdLock, 7, f⟩, .accept ⟨mdTryLock, 8, f⟩, .step 0 (), .step 1 (), .step 0 (), .step 1 (), .step 1 (),
      .reply 1, .reply 0]
    (fun s => s.history =
      [.invoke 0 ⟨mdLock, 7, f⟩, .invoke 1 ⟨mdTryLock, 8, f⟩, .respond 1 (.notOk .tryLockFail), .respond 0 .ok])
    (.start (s := ⟨⟨Table.mutexTableInit, [], []⟩, []⟩) ⟨⟨rfl, rfl, rfl⟩, rfl⟩) (by decide)
  exact ⟨s, f, of_decide_eq_true hs, Table.linearizable hreach⟩

/-- **The hash server is linearizable where its heads stay current**: when each lookup is still
served by the head it has read. -/
theorem Hash.linearizable_when_served {s : Traced HashTable Nat (Option Nat) (List (Nat × FileName))}
    (h : Reach (traced Hash.server disciplined Hash.mutexHashInit (· = [])) (fun s mv => Hash.stillServed s.state mv) s) :
    ∃ l, Linearizes LockService (fun _ => false) s.history l (locked disciplinedLawful s.state) :=
  disciplined_ordered Hash.lawful ⟨_, Hash.init_shape⟩ Hash.init_view (fun _ _ _ hrule => hrule) h

/-- Else it is not: of two requests that read an empty chain both are granted. -/
theorem Hash.not_linearizable : ∃ s, Reachable (traced Hash.server disciplined Hash.mutexHashInit (· = [])) s ∧
    ∀ l locked, ¬ Linearizes LockService (fun _ => false) s.history l locked := by
  let f : FileName := ⟨[102], by decide, by decide⟩
  obtain ⟨s, hreach, hs⟩ := Reach.exists_run
    (M := traced Hash.server disciplined Hash.mutexHashInit (· = [])) (R := always)
    [.accept ⟨mdLock, 7, f⟩, .accept ⟨mdLock, 8, f⟩, .step 0 none, .step 1 none, .step 0 (some 0),
      .step 1 (some 1), .step 0 none, .step 1 none, .reply 0, .reply 1]
    (fun s => s.history = [.invoke 0 ⟨mdLock, 7, f⟩, .invoke 1 ⟨mdLock, 8, f⟩, .respond 0 .ok, .respond 1 .ok])
    (.start (s := ⟨⟨Hash.mutexHashInit, [], []⟩, []⟩) ⟨⟨rfl, rfl, rfl⟩, rfl⟩) (by decide)
  have hhistory := of_decide_eq_true hs
  refine ⟨s, hreach, ?_⟩
  intro l locked hl
  rw [hhistory] at hl
  have hlocks : ∀ (i : Nat) (arg : ThreadArg), .invoke i arg ∈ ([.invoke 0 ⟨mdLock, 7, f⟩,
      .invoke 1 ⟨mdLock, 8, f⟩, .respond 0 .ok, .respond 1 .ok] : List (Event ThreadArg ResPacket)) →
      acquires arg.opType = true ∧ arg.fileName = f := by
    intro i arg hmem
    simp only [List.mem_cons, List.not_mem_nil, or_false, Event.invoke.injEq, reduceCtorEq] at hmem
    obtain ⟨-, rfl⟩ | ⟨-, rfl⟩ := hmem
    · exact ⟨rfl, rfl⟩
    · exact ⟨rfl, rfl⟩
  exact absurd (granted_once hl hlocks (i := 0) (j := 1) (by simp) (by simp)) (by decide)

/-- A head that has not changed serves its lookup, so a run in which none does is one of these. -/
theorem Hash.traced_served {s : Traced HashTable Nat (Option Nat) (List (Nat × FileName))}
    (h : Reach (traced Hash.server disciplined Hash.mutexHashInit (· = []))
      (fun s mv => Hash.headUnchanged s.state mv) s) :
    Reach (traced Hash.server disciplined Hash.mutexHashInit (· = [])) (fun s mv => Hash.stillServed s.state mv) s := by
  refine h.mono fun s mv _ hs hrule => ?_
  cases mv with
  | accept arg => trivial
  | step i a =>
    intro th head hth hpc
    obtain ⟨_, hrel, _⟩ := refines Hash.lawful disciplinedLawful ⟨_, Hash.init_shape⟩ Hash.init_view
      disciplined_fresh (Hash.lockMachine_sound (Hash.served_of_unchanged (traced_reach hs)))
    obtain ⟨_, hshape⟩ := hrel.inv
    have hhead : head = s.state.store.mutexHash (Hash.hashFunc th.arg.fileName) := by
      simpa only [Hash.headUnchanged, hth, Option.all_some, hpc, beq_iff_eq] using hrule
    rw [hhead]
    exact hshape.serves _
  | reply i => trivial

/-- Client 8 asks while client 7 does, and is refused. -/
theorem Hash.linearizable_when_served_overlap : ∃ (s : Traced HashTable Nat (Option Nat) (List (Nat × FileName)))
    (f : FileName),
    s.history =
      [.invoke 0 ⟨mdLock, 7, f⟩, .invoke 1 ⟨mdTryLock, 8, f⟩, .respond 0 .ok, .respond 1 (.notOk .tryLockFail)] ∧
    ∃ l, Linearizes LockService (fun _ => false) s.history l (locked disciplinedLawful s.state) := by
  let f : FileName := ⟨[102], by decide, by decide⟩
  obtain ⟨s, hreach, hs⟩ := Reach.exists_run
    (M := traced Hash.server disciplined Hash.mutexHashInit (· = [])) (R := fun s mv => Hash.headUnchanged s.state mv)
    [.accept ⟨mdLock, 7, f⟩, .accept ⟨mdTryLock, 8, f⟩, .step 0 none, .step 0 (some 0), .step 1 none,
      .step 0 none, .step 1 none, .step 1 none, .reply 0, .step 1 none, .reply 1]
    (fun s => s.history =
      [.invoke 0 ⟨mdLock, 7, f⟩, .invoke 1 ⟨mdTryLock, 8, f⟩, .respond 0 .ok, .respond 1 (.notOk .tryLockFail)])
    (.start (s := ⟨⟨Hash.mutexHashInit, [], []⟩, []⟩) ⟨⟨rfl, rfl, rfl⟩, rfl⟩) (by decide)
  exact ⟨s, f, of_decide_eq_true hs, Hash.linearizable_when_served (Hash.traced_served hreach)⟩

end CacheFs.Mutex
