import CacheFs.Mutex.Table

/-! The table-based server with clients that follow no discipline.

Anyone may send any request at any time. A lookup for `MD_LOCK` or `MD_TRY_LOCK`
raises the count of the slot its thread then uses, one for `MD_UNLOCK` does not: it
lives off a reference that someone else took. So two `MD_UNLOCK`s that find the same
slot put back two references where there may be one (`double_unlock`). As long as a
slot that an `MD_UNLOCK` finds counts more references than there are threads at it
already, every thread's slot is its file's to the end (`slots_guarded`). -/
namespace CacheFs.Mutex.Table
open Transition Members

/-- Clients that send what they like. -/
def anyone : Clients Unit where
  send := fun _ _ => some ((), false)
  receive := fun _ _ _ => ()

abbrev Crowd := State MutexTable Nat Empty Unit

/-- The server at work, with what no record has: for each slot, the file whose thread
has taken its lock. -/
structure Watched where
  crowd : Crowd
  lockedFor : Nat → Option FileName

/-- The thread is at the `switch` with this slot. -/
def calling (p : Nat) (th : Thread Nat Empty) : Bool :=
  match th.pc with
  | .call q => q == p
  | .get _ | .put _ _ | .reply _ | .exited => false

/-- The thread is between its lookup and its last use of the slot. -/
def atSlot (p : Nat) (th : Thread Nat Empty) : Bool :=
  match th.pc with
  | .call q => q == p && (acquires th.arg.opType || th.arg.opType == mdUnlock)
  | .put q _ => q == p
  | .get _ | .reply _ | .exited => false

/-- And it is not about to release the lock. -/
def keeping (p : Nat) (th : Thread Nat Empty) : Bool :=
  match th.pc with
  | .call q => q == p && acquires th.arg.opType
  | .put q _ => q == p
  | .get _ | .reply _ | .exited => false

/-- Whose lock a slot is after a thread's call on its `p_mutex`. -/
def Watched.after (w : Watched) : Move Unit → Nat → Option FileName
  | .step i _ => fun p =>
    match w.crowd.threads[i]? with
    | some th =>
      if calling p th then
        if acquires th.arg.opType && server.mutex w.crowd.store p == some false then some th.arg.fileName
        else if th.arg.opType == mdUnlock then none
        else w.lockedFor p
      else w.lockedFor p
    | none => w.lockedFor p
  | .accept _ | .reply _ => w.lockedFor

def crowdMachine : Machine Watched (Move Unit) where
  start := fun w => w.crowd = ⟨mutexTableInit, [], ()⟩ ∧ w.lockedFor = fun _ => none
  step := fun w mv => (next server anyone w.crowd mv).map fun crowd => ⟨crowd, w.after mv⟩

/-- No count is negative, so no lookup ends the process; the slot of a thread that serves
an `MD_UNLOCK` is in use for its file, and the lock that it releases is its file's. -/
structure Guarded (w : Watched) : Prop where
  count : ∀ m ∈ w.crowd.store.slots, 0 ≤ m.count
  lookup : ∀ f opType, getZMutex w.crowd.store f opType ≠ none
  inUse : ∀ th ∈ w.crowd.threads, th.arg.opType = mdUnlock → ∀ p, atSlot p th →
    ∃ m, w.crowd.store.slots[p]? = some m ∧ 0 < m.count ∧ m.fileName = th.arg.fileName
  releases : ∀ th ∈ w.crowd.threads, th.arg.opType = mdUnlock → ∀ p, th.pc = .call p →
    ∀ f ∈ w.lockedFor p, f = th.arg.fileName

/-- Whenever `get_z_mutex` runs for an `MD_UNLOCK`, the slot in use for its file, if there
is one, counts more references than there are threads at it. -/
def backed : Rule Watched (Move Unit)
  | w, .step i _ => ∀ th ∈ w.crowd.threads[i]?, th.pc = .get none → th.arg.opType = mdUnlock →
      ∀ p < mutexNum, ∀ m ∈ w.crowd.store.slots[p]?, 0 < m.count → m.fileName = th.arg.fileName →
        (w.crowd.threads.countP (atSlot p) : Int) < m.count
  | _, _ => True

instance : ∀ (w : Watched) (mv : Move Unit), Decidable (backed w mv)
  | w, .step i _ => inferInstanceAs (Decidable (∀ th ∈ w.crowd.threads[i]?, th.pc = .get none →
      th.arg.opType = mdUnlock → ∀ p < mutexNum, ∀ m ∈ w.crowd.store.slots[p]?, 0 < m.count →
        m.fileName = th.arg.fileName → (w.crowd.threads.countP (atSlot p) : Int) < m.count))
  | _, .accept _ => isTrue trivial
  | _, .reply _ => isTrue trivial

/-! ### Every thread is counted -/

/-- A thread that does not release a lock is at its slot. -/
theorem keeping_le_atSlot (p : Nat) (threads : List (Thread Nat Empty)) :
    threads.countP (keeping p) ≤ threads.countP (atSlot p) := by
  refine List.countP_mono_left fun th _ hth => ?_
  simp only [keeping] at hth
  simp only [atSlot]
  split at hth <;> simp_all

/-- Each slot counts the threads at it, the lock of a slot is its file's, and a locked
slot counts one more than the threads that do not release it. -/
structure Backed (w : Watched) : Prop where
  named : ∀ th ∈ w.crowd.threads, ∀ p, atSlot p th →
    ∃ m, w.crowd.store.slots[p]? = some m ∧ m.fileName = th.arg.fileName
  counted : ∀ p m, w.crowd.store.slots[p]? = some m → (w.crowd.threads.countP (atSlot p) : Int) ≤ m.count
  locked : ∀ p m, w.crowd.store.slots[p]? = some m → m.pMutex = true →
    (w.crowd.threads.countP (keeping p) : Int) < m.count
  lockedFor : ∀ p m, w.crowd.store.slots[p]? = some m →
    w.lockedFor p = if m.pMutex then some m.fileName else none

theorem crowdMachine_step {w w' : Watched} {mv : Move Unit} (h : crowdMachine.step w mv = some w') :
    ∃ crowd, next server anyone w.crowd mv = some crowd ∧ w' = ⟨crowd, w.after mv⟩ := by
  obtain ⟨crowd, hnext, heq⟩ := Option.map_eq_some_iff.mp h
  exact ⟨crowd, hnext, heq.symm⟩

theorem slots_modify {t : MutexTable} {p : Nat} {m : ZMutex} (hm : t.slots[p]? = some m) (g : ZMutex → ZMutex)
    (q : Nat) : (t.modify p g).slots[q]? = if p = q then some (g m) else t.slots[q]? := by
  rw [MutexTable.getElem?_modify]
  split
  · rename_i hpq
    rw [← hpq, hm, Option.map_some]
  · rfl

section Step
variable {w w' : Watched}

/-- A thread that is at no slot after its step changes nothing else. -/
theorem Backed.idle (h : Backed w) {i : Nat} {th th' : Thread Nat Empty} (hth : w.crowd.threads[i]? = some th)
    (hthreads : w'.crowd.threads = w.crowd.threads.set i th') (hstore : w'.crowd.store = w.crowd.store)
    (hfor : w'.lockedFor = w.lockedFor) (hat : ∀ q, atSlot q th' = false ∧ keeping q th' = false) :
    Backed w' := by
  have hcounted (q : Nat) := countP_set_add (atSlot q) hth th'
  have hkeeping (q : Nat) := countP_set_add (keeping q) hth th'
  rw [← hthreads] at hcounted hkeeping
  refine ⟨fun x hx q hq => ?_, fun q x hx => ?_, fun q x hx hxl => ?_, fun q x hx => ?_⟩
  · obtain ⟨j, hj⟩ := List.getElem?_of_mem hx
    rw [hthreads] at hj
    rw [hstore]
    obtain ⟨-, rfl⟩ | ⟨-, hj⟩ := getElem?_set_cases hj
    · rw [(hat q).1] at hq
      cases hq
    · exact h.named x (List.mem_of_getElem? hj) q hq
  · rw [hstore] at hx
    have hq := hcounted q
    have := h.counted q x hx
    rw [(hat q).1, Bool.toNat_false] at hq
    omega
  · rw [hstore] at hx
    have hq := hkeeping q
    have := h.locked q x hx hxl
    rw [(hat q).2, Bool.toNat_false] at hq
    omega
  · rw [hstore] at hx
    rw [hfor]
    exact h.lockedFor q x hx

/-- A step of thread `i` at one slot leaves the others as they were. -/
theorem Backed.step (h : Backed w) {i : Nat} {th th' : Thread Nat Empty}
    (hth : w.crowd.threads[i]? = some th) (hthreads : w'.crowd.threads = w.crowd.threads.set i th')
    {p : Nat} {m : ZMutex} (hm : w.crowd.store.slots[p]? = some m) (m' : ZMutex)
    (hslot : ∀ q, w'.crowd.store.slots[q]? = if p = q then some m' else w.crowd.store.slots[q]?)
    (hfor : ∀ q ≠ p, w'.lockedFor q = w.lockedFor q)
    (hat : ∀ q ≠ p, atSlot q th = false ∧ atSlot q th' = false ∧ keeping q th = false ∧ keeping q th' = false)
    (hname : m'.fileName = m.fileName ∨ m.count = 0)
    (hname' : atSlot p th' = true → m'.fileName = th'.arg.fileName)
    (hcount : (w.crowd.threads.countP (atSlot p) + (atSlot p th').toNat : Int) ≤ m'.count + (atSlot p th).toNat)
    (hlocked : m'.pMutex = true →
      (w.crowd.threads.countP (keeping p) + (keeping p th').toNat : Int) < m'.count + (keeping p th).toNat)
    (hfor' : w'.lockedFor p = if m'.pMutex then some m'.fileName else none) : Backed w' := by
  have hcounted (q : Nat) := countP_set_add (atSlot q) hth th'
  have hkeeping (q : Nat) := countP_set_add (keeping q) hth th'
  rw [← hthreads] at hcounted hkeeping
  refine ⟨fun x hx q hq => ?_, fun q x hx => ?_, fun q x hx hxl => ?_, fun q x hx => ?_⟩
  · obtain ⟨j, hj⟩ := List.getElem?_of_mem hx
    rw [hthreads] at hj
    rw [hslot]
    obtain ⟨-, rfl⟩ | ⟨-, hj⟩ := getElem?_set_cases hj
    · by_cases hpq : p = q
      · subst hpq
        exact ⟨m', if_pos rfl, hname' hq⟩
      · rw [(hat q (Ne.symm hpq)).2.1] at hq
        cases hq
    · obtain ⟨y, hy, hyname⟩ := h.named x (List.mem_of_getElem? hj) q hq
      by_cases hpq : p = q
      · subst hpq
        cases hm.symm.trans hy
        refine ⟨m', if_pos rfl, ?_⟩
        obtain hsame | hzero := hname
        · rw [hsame, hyname]
        · -- a slot that no one counts has no thread
          have hpos : 0 < w.crowd.threads.countP (atSlot p) :=
            List.countP_pos_iff.mpr ⟨x, List.mem_of_getElem? hj, hq⟩
          have := h.counted p m hm
          omega
      · exact ⟨y, (if_neg hpq).trans hy, hyname⟩
  · rw [hslot] at hx
    have hq := hcounted q
    split at hx
    · rename_i hpq
      subst hpq
      cases hx
      omega
    · rename_i hpq
      obtain ⟨h₁, h₂, -⟩ := hat q (Ne.symm hpq)
      have := h.counted q x hx
      rw [h₁, h₂] at hq
      omega
  · rw [hslot] at hx
    have hq := hkeeping q
    split at hx
    · rename_i hpq
      subst hpq
      cases hx
      have := hlocked hxl
      omega
    · rename_i hpq
      obtain ⟨-, -, h₁, h₂⟩ := hat q (Ne.symm hpq)
      have := h.locked q x hx hxl
      rw [h₁, h₂] at hq
      omega
  · rw [hslot] at hx
    split at hx
    · rename_i hpq
      subst hpq
      cases hx
      exact hfor'
    · rename_i hpq
      rw [hfor q (Ne.symm hpq)]
      exact h.lockedFor q x hx

/-- A request that is read starts a thread at no slot. -/
theorem Backed.accept (h : Backed w) {arg : ThreadArg} (hstep : crowdMachine.step w (.accept arg) = some w') :
    Backed w' := by
  obtain ⟨crowd, hnext, rfl⟩ := crowdMachine_step hstep
  obtain ⟨_, holder, -, rfl⟩ := next_accept hnext
  refine ⟨fun x hx q hq => ?_, fun q x hx => ?_, fun q x hx hxl => ?_, h.lockedFor⟩
  · obtain hx | hx := List.mem_append.mp hx
    · exact h.named x hx q hq
    · rw [List.mem_singleton.mp hx] at hq
      cases hq
  · have hone := countP_append_one (l := w.crowd.threads) (atSlot q) ⟨arg, holder, .get none⟩
    have hat : atSlot q ⟨arg, holder, .get none⟩ = false := rfl
    rw [hat, Bool.toNat_false, Nat.add_zero] at hone
    rw [hone]
    exact h.counted q x hx
  · have hone := countP_append_one (l := w.crowd.threads) (keeping q) ⟨arg, holder, .get none⟩
    have hat : keeping q ⟨arg, holder, .get none⟩ = false := rfl
    rw [hat, Bool.toNat_false, Nat.add_zero] at hone
    rw [hone]
    exact h.locked q x hx hxl

theorem Backed.reply (h : Backed w) {i : Nat} (hstep : crowdMachine.step w (.reply i) = some w') :
    Backed w' := by
  obtain ⟨crowd, hnext, rfl⟩ := crowdMachine_step hstep
  obtain ⟨arg, holder, res, hth, rfl⟩ := next_reply hnext
  exact h.idle hth rfl rfl rfl fun q => ⟨rfl, rfl⟩

/-- The lookup of a thread: at most the slot it finds or takes is changed, and the thread
is then counted there. -/
theorem Backed.lookup (h : Backed w) {i : Nat} {a : Unit} {th : Thread Nat Empty}
    (hth : w.crowd.threads[i]? = some th) (hpc : th.pc = .get none) (hrule : backed w (.step i a))
    {r : Option Nat} {t : MutexTable} (hget : getZMutex w.crowd.store th.arg.fileName th.arg.opType = some (r, t))
    (hcrowd : w'.crowd = {w.crowd with
      store := t, threads := w.crowd.threads.set i {th with pc := afterGet r}})
    (hfor : w'.lockedFor = w.lockedFor) : Backed w' := by
  have hnot (q : Nat) : atSlot q th = false ∧ keeping q th = false := by simp [atSlot, keeping, hpc]
  have hother (p q : Nat) (hq : q ≠ p) : atSlot q {th with pc := .call p} = false ∧
      keeping q {th with pc := .call p} = false := by simp [atSlot, keeping, Ne.symm hq]
  have hstore : w'.crowd.store = t := by rw [hcrowd]
  have hthreads : w'.crowd.threads = w.crowd.threads.set i {th with pc := afterGet r} := by rw [hcrowd]
  obtain ⟨p, m, hm, hpos, hname, rfl, rfl⟩ | ⟨-, ⟨-, -, rfl, rfl⟩ | ⟨hop, p, m, hm, hzero, rfl, rfl⟩ |
    ⟨hop, hr, rfl⟩⟩ := getZMutex_cases hget
  · by_cases hop : acquires th.arg.opType
    · rw [if_pos hop] at hstore
      refine h.step hth hthreads hm {m with count := m.count + 1} (fun q => hstore ▸ slots_modify hm _ q)
        (fun q _ => by rw [hfor])
        (fun q hq => ⟨(hnot q).1, (hother p q hq).1, (hnot q).2, (hother p q hq).2⟩) (.inl rfl)
        (fun _ => hname) ?_ (fun hl => ?_) (by rw [hfor, h.lockedFor p m hm])
      · have := h.counted p m hm
        have hnow : atSlot p {th with pc := .call p} = true := by simp [atSlot, hop]
        simp only [afterGet, hnow, (hnot p).1, Bool.toNat_true, Bool.toNat_false]
        omega
      · have := h.locked p m hm hl
        have hnow : keeping p {th with pc := .call p} = true := by simp [keeping, hop]
        simp only [afterGet, hnow, (hnot p).2, Bool.toNat_true, Bool.toNat_false]
        omega
    · rw [if_neg hop] at hstore
      by_cases hunlock : th.arg.opType = mdUnlock
      · -- the unlock finds a reference that no thread there is to put back
        have hlt : p < mutexNum := by
          rw [← w.crowd.store.length_eq]
          exact (List.getElem?_eq_some_iff.mp hm).1
        have hroom := hrule th hth hpc hunlock p hlt m hm hpos hname
        refine h.step hth hthreads hm m (fun q => ?_) (fun q _ => by rw [hfor])
          (fun q hq => ⟨(hnot q).1, (hother p q hq).1, (hnot q).2, (hother p q hq).2⟩) (.inl rfl)
          (fun _ => hname) ?_ (fun hl => ?_) (by rw [hfor, h.lockedFor p m hm])
        · rw [hstore]
          split
          · rename_i hpq
            rw [← hpq, hm]
          · rfl
        · have hnow : atSlot p {th with pc := .call p} = true := by simp [atSlot, hunlock]
          simp only [afterGet, hnow, (hnot p).1, Bool.toNat_true, Bool.toNat_false]
          omega
        · have := h.locked p m hm hl
          have hnow : keeping p {th with pc := .call p} = false := by simp [keeping, hop]
          simp only [afterGet, hnow, (hnot p).2, Bool.toNat_false]
          omega
      · exact h.idle hth hthreads hstore hfor fun q => by simp [atSlot, keeping, hop, hunlock]
  · exact h.idle hth hthreads hstore hfor fun q => ⟨rfl, rfl⟩
  · -- a slot that counts no one is not locked
    have hfree : m.pMutex = false := by
      refine Bool.eq_false_iff.mpr fun hl => ?_
      have := h.locked p m hm hl
      omega
    refine h.step hth hthreads hm {m with fileName := th.arg.fileName, count := 1}
      (fun q => hstore ▸ slots_modify hm _ q) (fun q _ => by rw [hfor])
      (fun q hq => ⟨(hnot q).1, (hother p q hq).1, (hnot q).2, (hother p q hq).2⟩) (.inr hzero) (fun _ => rfl)
      ?_ (fun hl => ?_) ?_
    · have := h.counted p m hm
      have hnow : atSlot p {th with pc := .call p} = true := by simp [atSlot, hop]
      simp only [afterGet, hnow, (hnot p).1, Bool.toNat_true, Bool.toNat_false]
      omega
    · rw [hfree] at hl
      cases hl
    · rw [hfor, h.lockedFor p m hm]
      simp [hfree]
  · by_cases hunlock : th.arg.opType = mdUnlock
    · rw [hr hunlock] at hthreads
      exact h.idle hth hthreads hstore hfor fun q => ⟨rfl, rfl⟩
    · exact h.idle hth hthreads hstore hfor fun q => by cases r <;> simp [atSlot, keeping, hop, hunlock]

/-- The slot that a thread is at has its file's name and counts it. -/
theorem Backed.calledSlot (h : Backed w) {i : Nat} {th : Thread Nat Empty} {p : Nat} {taken : Bool}
    (hth : w.crowd.threads[i]? = some th) (hat : atSlot p th = true)
    (hmutex : server.mutex w.crowd.store p = some taken) :
    ∃ m, w.crowd.store.slots[p]? = some m ∧ m.pMutex = taken ∧ m.fileName = th.arg.fileName ∧
      (w.crowd.threads.countP (atSlot p) : Int) ≤ m.count := by
  obtain ⟨m, hm, hflag⟩ := Option.map_eq_some_iff.mp hmutex
  obtain ⟨m₁, hm₁, hname⟩ := h.named th (List.mem_of_getElem? hth) p hat
  cases hm.symm.trans hm₁
  exact ⟨m, hm, hflag, hname, h.counted p m hm⟩

/-- The call of a thread on the `p_mutex` of its slot. -/
theorem Backed.call (h : Backed w) {i : Nat} {a : Unit} {th : Thread Nat Empty} {p : Nat}
    (hth : w.crowd.threads[i]? = some th) (hpc : th.pc = .call p) {pc : Pc Nat Empty} {t : MutexTable}
    (hcall : server.call flagMutex th.arg p w.crowd.store = some (pc, t))
    (hcrowd : w'.crowd = {w.crowd with store := t, threads := w.crowd.threads.set i {th with pc := pc}})
    (hfor : w'.lockedFor = w.after (.step i a)) : Backed w' := by
  have hstore : w'.crowd.store = t := by rw [hcrowd]
  have hthreads : w'.crowd.threads = w.crowd.threads.set i {th with pc := pc} := by rw [hcrowd]
  have hcalling (q : Nat) : calling q th = decide (p = q) := by simp [calling, hpc, beq_eq_decide]
  have hother (q : Nat) (hq : q ≠ p) : w'.lockedFor q = w.lockedFor q := by
    rw [hfor]
    simp [Watched.after, hth, hcalling, Ne.symm hq]
  have hat (pc' : Pc Nat Empty) (hpc' : pc' = .put p (.notOk .tryLockFail) ∨ pc' = .put p .ok ∨ pc' = .reply .ok)
      (q : Nat) (hq : q ≠ p) : atSlot q th = false ∧ atSlot q {th with pc := pc'} = false ∧
        keeping q th = false ∧ keeping q {th with pc := pc'} = false := by
    obtain rfl | rfl | rfl := hpc' <;> simp [atSlot, keeping, hpc, Ne.symm hq]
  have hslots {m : ZMutex} (hm : w.crowd.store.slots[p]? = some m) (taken : Bool) (q : Nat) :
      (server.setMutex w.crowd.store p taken).slots[q]? =
        if p = q then some {m with pMutex := taken} else w.crowd.store.slots[q]? := slots_modify hm _ q
  obtain ⟨hop, hfree, rfl, rfl⟩ | ⟨hop, htaken, rfl, rfl⟩ | ⟨hop, ⟨taken, htaken⟩, rfl, rfl⟩ |
    ⟨hop, hunlock, rfl, rfl⟩ := Server.call_cases hcall
  · obtain ⟨m, hm, hflag, hname, hcounted⟩ := h.calledSlot hth (by simp [atSlot, hpc, hop]) hfree
    refine h.step hth hthreads hm {m with pMutex := true} (fun q => hstore ▸ hslots hm true q) hother
      (hat _ (by simp)) (.inl rfl) (fun _ => hname) ?_ (fun _ => ?_) ?_
    · simp [atSlot, hpc, hop]
      omega
    · have := keeping_le_atSlot p w.crowd.threads
      simp [keeping, hpc, hop]
      omega
    · rw [hfor]
      simp [Watched.after, hth, hcalling, hop, hfree, hname]
  · obtain ⟨m, hm, hflag, hname, hcounted⟩ := h.calledSlot hth (by simp [atSlot, hpc, hop]) htaken
    refine h.step hth hthreads hm {m with pMutex := true} (fun q => hstore ▸ hslots hm true q) hother
      (hat _ (by simp)) (.inl rfl) (fun _ => hname) ?_ (fun _ => ?_) ?_
    · simp [atSlot, hpc, hop]
      omega
    · have := h.locked p m hm hflag
      simp [keeping, hpc, hop]
      omega
    · rw [hfor]
      simp [Watched.after, hth, hcalling, htaken, unlock_of_acquires hop, h.lockedFor p m hm, hflag]
  · obtain ⟨m, hm, hflag, hname, hcounted⟩ := h.calledSlot hth (by simp [atSlot, hpc, hop]) htaken
    refine h.step hth hthreads hm {m with pMutex := false} (fun q => hstore ▸ hslots hm false q) hother
      (hat _ (by simp)) (.inl rfl) (fun _ => hname) ?_ (fun hl => by cases hl) ?_
    · simp [atSlot, hpc, hop]
      omega
    · rw [hfor]
      simp [Watched.after, hth, hcalling, hop, not_acquires_unlock]
  · refine h.idle hth hthreads hstore ?_ fun q => ⟨rfl, rfl⟩
    rw [hfor]
    funext q
    simp [Watched.after, hth, hop, hunlock]

/-- The put of a thread. -/
theorem Backed.put (h : Backed w) {i : Nat} {a : Unit} {th : Thread Nat Empty} {p : Nat} {res : ResPacket}
    (hth : w.crowd.threads[i]? = some th) (hpc : th.pc = .put p res) {t : MutexTable}
    (hput : putZMutex w.crowd.store p = some t)
    (hcrowd : w'.crowd = {w.crowd with
      store := t, threads := w.crowd.threads.set i {th with pc := .reply res}})
    (hfor : w'.lockedFor = w.after (.step i a)) : Backed w' := by
  have hstore : w'.crowd.store = t := by rw [hcrowd]
  have hthreads : w'.crowd.threads = w.crowd.threads.set i {th with pc := .reply res} := by rw [hcrowd]
  have hsame : w'.lockedFor = w.lockedFor := by
    rw [hfor]
    funext q
    simp [Watched.after, hth, calling, hpc]
  have hthat : atSlot p th = true := by simp [atSlot, hpc]
  obtain ⟨m, hm, hname⟩ := h.named th (List.mem_of_getElem? hth) p hthat
  simp only [putZMutex] at hput
  split at hput
  · cases hput
    refine h.step hth hthreads hm {m with count := m.count - 1} (fun q => hstore ▸ slots_modify hm _ q)
      (fun q _ => by rw [hsame]) (fun q hq => by simp [atSlot, keeping, hpc, Ne.symm hq]) (.inl rfl)
      (fun _ => hname) ?_ (fun hl => ?_) (by rw [hsame, h.lockedFor p m hm])
    · have := h.counted p m hm
      simp [atSlot, hpc]
      omega
    · have := h.locked p m hm hl
      simp [keeping, hpc]
      omega
  · cases hput

theorem Backed.thread (h : Backed w) {i : Nat} {a : Unit} (hrule : backed w (.step i a))
    (hstep : crowdMachine.step w (.step i a) = some w') : Backed w' := by
  obtain ⟨crowd, hnext, rfl⟩ := crowdMachine_step hstep
  obtain ⟨th, pc, store, hth, hfunc, rfl⟩ := next_step hnext
  obtain ⟨l, -⟩ | ⟨seen, hpc, -, hlookup⟩ | ⟨p, hpc, hcall⟩ | ⟨p, res, hpc, hput, rfl⟩ :=
    Server.threadFunc_cases hfunc
  · exact l.elim
  · obtain ⟨r, hget, rfl⟩ := Server.lookup_eq_some.mp hlookup
    cases seen with
    | some l => exact l.elim
    | none =>
      refine h.lookup hth hpc hrule hget rfl ?_
      funext q
      simp [Watched.after, hth, calling, hpc]
  · exact h.call (a := a) hth hpc hcall rfl rfl
  · exact h.put (a := a) hth hpc hput rfl rfl

end Step

theorem Backed.guarded {w : Watched} (h : Backed w) : Guarded w := by
  have hcount : ∀ m ∈ w.crowd.store.slots, 0 ≤ m.count := by
    intro m hm
    obtain ⟨p, hp⟩ := List.getElem?_of_mem hm
    have := h.counted p m hp
    omega
  have hat {th : Thread Nat Empty} (hth : th ∈ w.crowd.threads) {p : Nat} (hp : atSlot p th = true) :
      ∃ m, w.crowd.store.slots[p]? = some m ∧ 0 < m.count ∧ m.fileName = th.arg.fileName := by
    obtain ⟨m, hm, hname⟩ := h.named th hth p hp
    have hpos : 0 < w.crowd.threads.countP (atSlot p) := List.countP_pos_iff.mpr ⟨th, hth, hp⟩
    have := h.counted p m hm
    exact ⟨m, hm, by omega, hname⟩
  refine ⟨hcount, fun f opType => ?_, fun th hth _ p hp => hat hth hp, fun th hth hop p hpc f hf => ?_⟩
  · obtain ⟨x, hx⟩ := getZMutex_returns hcount f opType
    rw [hx]
    simp
  · obtain ⟨m, hm, -, hname⟩ := hat hth (p := p) (by simp [atSlot, hpc, hop])
    rw [h.lockedFor p m hm] at hf
    split at hf
    · cases hf
      exact hname
    · cases hf

/-- **Clients that follow no discipline.** In every run in which each slot that an
`MD_UNLOCK` finds counts more references than there are threads at it, no count is
negative, and no `MD_UNLOCK` touches a slot that is not in use for its file. -/
theorem slots_guarded {w : Watched} (h : Reach crowdMachine backed w) : Guarded w := by
  refine Backed.guarded (h.invariant (fun w hw => ?_) fun w mv w' hinv hrule hstep => ?_)
  · obtain ⟨hcrowd, hfor⟩ := hw
    have hslot {p : Nat} {m : ZMutex} (hm : w.crowd.store.slots[p]? = some m) : m = ⟨0, false, noName⟩ := by
      rw [hcrowd] at hm
      exact List.eq_of_mem_replicate (List.mem_of_getElem? hm)
    refine ⟨fun th hth => ?_, fun p m hm => ?_, fun p m hm hl => ?_, fun p m hm => ?_⟩
    · rw [hcrowd] at hth
      cases hth
    · rw [hslot hm, hcrowd]
      simp
    · rw [hslot hm] at hl
      cases hl
    · rw [hslot hm, hfor]
      rfl
  · cases mv with
    | accept arg => exact hinv.accept hstep
    | step i a => exact hinv.thread hrule hstep
    | reply i => exact hinv.reply hstep

/-- The server before any request. -/
def Watched.init : Watched := ⟨⟨mutexTableInit, [], ()⟩, fun _ => none⟩

/-- One client locks a file and two ask to unlock it at once: both find its slot before
either has put it back, and its count falls to -1, on which the next lookup ends the
process. -/
theorem double_unlock : ∃ w, Reachable crowdMachine w ∧ (∃ m ∈ w.crowd.store.slots, m.count = -1) ∧
    (∀ f opType, getZMutex w.crowd.store f opType = none) ∧ ¬ Guarded w := by
  let f : FileName := ⟨[102], by decide, by decide⟩
  obtain ⟨w, hreach, hw⟩ := Reach.exists_run (M := crowdMachine) (R := always)
    [.accept ⟨mdLock, 7, f⟩, .step 0 (), .step 0 (), .reply 0, .accept ⟨mdUnlock, 7, f⟩,
      .accept ⟨mdUnlock, 8, f⟩, .step 1 (), .step 2 (), .step 1 (), .step 1 (), .step 2 (), .step 2 ()]
    (fun w : Watched => decide (w.crowd.store.slots.head? = some ⟨-1, false, f⟩))
    (.start (s := Watched.init) ⟨rfl, rfl⟩) (by decide +kernel)
  obtain ⟨rest, hslots⟩ := List.head?_eq_some_iff.mp (of_decide_eq_true hw)
  have hnone (g : FileName) (opType : UInt8) : getZMutex w.crowd.store g opType = none := by
    simp [getZMutex, hslots, traverse]
  refine ⟨w, hreach, ⟨_, hslots ▸ List.mem_cons_self, rfl⟩, hnone, fun h => ?_⟩
  exact h.lookup f mdLock (hnone f mdLock)

/-- A client that has the lock asks to unlock it while another waits for it, and is about
to release it. -/
theorem slots_guarded_waiting : ∃ w, Reach crowdMachine backed w ∧
    (∃ th ∈ w.crowd.threads, th.arg.opType = mdUnlock ∧ th.pc = .call 0) ∧ Guarded w := by
  let f : FileName := ⟨[102], by decide, by decide⟩
  obtain ⟨w, hreach, hw⟩ := Reach.exists_run (M := crowdMachine) (R := backed)
    [.accept ⟨mdLock, 7, f⟩, .step 0 (), .step 0 (), .reply 0, .accept ⟨mdLock, 8, f⟩, .step 1 (),
      .accept ⟨mdUnlock, 7, f⟩, .step 2 ()]
    (fun w : Watched => w.crowd.threads.any fun th => th.arg.opType == mdUnlock && th.pc == .call 0)
    (.start (s := Watched.init) ⟨rfl, rfl⟩) (by decide +kernel)
  simp only [List.any_eq_true, Bool.and_eq_true, beq_iff_eq] at hw
  exact ⟨w, hreach, hw, slots_guarded hreach⟩

end CacheFs.Mutex.Table
