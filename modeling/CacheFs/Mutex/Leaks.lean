import CacheFs.Mutex.TableServer

/-! What the counts of the table's slots stand for.

Each slot in use counts the acquisitions of its lock that are not released, the
requests for it that have neither acquired it nor put it back, and the releases that
have not put it back (`NoLeak`). So none is lost: a request finds the table full only
while every slot is in use for somebody, and the table is empty when all have unlocked
and been answered (`no_leak`). -/
namespace CacheFs.Mutex
open Transition Registry Members

section Threads
variable {P L : Type} [DecidableEq P]

/-- The thread has got a pointer, and not put it back. -/
def Thread.pointsTo (p : P) (th : Thread P L) : Bool :=
  match th.pc with
  | .call q | .put q _ => q == p
  | .get _ | .reply _ | .exited => false

/-- A request past its lookup that has neither acquired the lock nor put its slot back. -/
def Thread.waitsAt (p : P) (th : Thread P L) : Bool := acquires th.arg.opType && th.pointsTo p

/-- A release that has freed the lock and not put its slot back. -/
def Thread.givesBackAt (p : P) (th : Thread P L) : Bool :=
  th.arg.opType == mdUnlock &&
    match th.pc with
    | .put q _ => q == p
    | .get _ | .call _ | .reply _ | .exited => false

theorem Thread.at_of_waitsAt {p : P} {th : Thread P L} (h : th.waitsAt p = true) : th.At p := by
  simp only [waitsAt, pointsTo, Bool.and_eq_true] at h
  refine ⟨?_, .inl h.1⟩
  cases hpc : th.pc with
  | get _ | reply _ | exited => simp [hpc] at h
  | call q =>
    simp only [hpc, beq_iff_eq] at h
    exact .inl (by rw [h.2])
  | put q res =>
    simp only [hpc, beq_iff_eq] at h
    exact .inr ⟨res, by rw [h.2]⟩

theorem Thread.at_of_givesBackAt {p : P} {th : Thread P L} (h : th.givesBackAt p = true) : th.At p := by
  simp only [givesBackAt, Bool.and_eq_true, beq_iff_eq] at h
  refine ⟨.inr ?_, .inr h.1⟩
  cases hpc : th.pc with
  | get _ | call _ | reply _ | exited => simp [hpc] at h
  | put q res =>
    simp only [hpc, beq_iff_eq] at h
    exact ⟨res, by rw [h.2]⟩

variable {S A C : Type} {V : Server S P L A} {W : V.Lawful} {K : Clients C} {Q : K.Lawful}
  {s : State S P L C} {t : State Named FileName Empty C}

/-- A thread that may follow its pointer has it to the cell in use for its file. -/
theorem Rel.at_beq (h : Rel W s t) {th : Thread P L} (hth : th ∈ s.threads) {p q : P} (hat : th.At q)
    {f : FileName} {e : Entry} (hp : W.view s.store p = some (f, e)) : (th.arg.fileName == f) = (q == p) := by
  obtain ⟨e', hq⟩ := h.pointers th hth q hat
  rw [Bool.eq_iff_iff, beq_iff_eq, beq_iff_eq]
  constructor
  · intro hname
    subst hname
    exact h.store.unique hq hp
  · intro hqp
    subst hqp
    rw [hp, Option.some.injEq, Prod.mk.injEq] at hq
    exact hq.1.symm

/-- A user of a cell's file holds its lock, waits for it or gives it back. -/
theorem Rel.uses_eq (h : Rel W s t) (hinv : Inv Q t) {th : Thread P L} (hth : th ∈ s.threads) {p : P}
    {f : FileName} {e : Entry} (hp : W.view s.store p = some (f, e)) :
    (th.uses f).toNat = (th.holds f).toNat + (th.waitsAt p).toNat + (th.givesBackAt p).toNat := by
  have hok := hinv.threads th.named (h.threads ▸ List.mem_map_of_mem hth)
  cases hpc : th.pc with
  | get _ | reply _ | exited => simp [Thread.uses, Thread.holds, Thread.waitsAt, Thread.pointsTo, Thread.givesBackAt, hpc]
  | call q =>
    simp only [Thread.uses, Thread.holds, Thread.waitsAt, Thread.pointsTo, Thread.givesBackAt, hpc]
    cases hop : acquires th.arg.opType with
    | false => simp
    | true =>
      have hsame := h.at_beq hth (q := q) ⟨.inl hpc, .inl hop⟩ hp
      rw [unlock_of_acquires hop]
      simp [hsame]
  | put q res =>
    simp only [Thread.Ok, Thread.named, Pc.named, hpc] at hok
    have hop := hok.2.imp And.left id
    have hsame := h.at_beq hth (q := q) ⟨.inr ⟨res, hpc⟩, hop⟩ hp
    simp only [Thread.uses, Thread.holds, Thread.waitsAt, Thread.pointsTo, Thread.givesBackAt, hpc]
    obtain hop | hop := hop
    · simp [hop, unlock_of_acquires hop, hsame]
    · simp [hop, not_acquires_unlock, hsame]

/-- The users of a cell's file, one by one. -/
theorem Rel.users_eq (h : Rel W s t) (hinv : Inv Q t) {p : P} {f : FileName} {e : Entry}
    (hp : W.view s.store p = some (f, e)) : Mutex.users Q s f =
      Mutex.holders Q s f + s.threads.countP (Thread.waitsAt p) + s.threads.countP (Thread.givesBackAt p) := by
  have hcount : s.threads.countP (Thread.uses f) = s.threads.countP (Thread.holds f) +
      s.threads.countP (Thread.waitsAt p) + s.threads.countP (Thread.givesBackAt p) :=
    countP_eq_add _ fun th hth => h.uses_eq hinv hth hp
  rw [Mutex.users, Mutex.holders, hcount]
  omega

end Threads

namespace Table

abbrev TableState := State MutexTable Nat Empty (List (Nat × FileName))

/-- What the counts stand for. -/
structure NoLeak (s : TableState) : Prop where
  counts : ∀ (p : Nat) (m : ZMutex), s.store.slots[p]? = some m → m.count ≠ 0 →
    m.count = (holders disciplinedLawful s m.fileName : Int) + s.threads.countP (Thread.waitsAt p) +
      s.threads.countP (Thread.givesBackAt p)
  /-- Nobody waits for a free slot or is to give it back. -/
  free : ∀ (p : Nat) (m : ZMutex), s.store.slots[p]? = some m → m.count = 0 →
    s.threads.countP (Thread.waitsAt p) = 0 ∧ s.threads.countP (Thread.givesBackAt p) = 0
  /-- A lock that is acquired is that of a slot in use. -/
  placed : ∀ f, 0 < holders disciplinedLawful s f →
    ∃ (p : Nat) (m : ZMutex), s.store.slots[p]? = some m ∧ m.count ≠ 0 ∧ m.fileName = f
  names : ∀ (p q : Nat) (m x : ZMutex), s.store.slots[p]? = some m → s.store.slots[q]? = some x → m.count ≠ 0 →
    x.count ≠ 0 → m.fileName = x.fileName → p = q

/-- Somebody holds the lock of the file, or has a request for it in progress. -/
def Wanted (s : TableState) (f : FileName) : Prop :=
  0 < holders disciplinedLawful s f ∨ ∃ th ∈ s.threads, th.arg.fileName = f ∧ th.pc ≠ .exited

/-- A request that comes to be answered `ALLOC_MUTEX_FAIL` found every slot in use, for
another file that is wanted. -/
def FullWhenRefused (s : TableState) : Prop :=
  ∀ i a s' th, lockMachine.step s (.step i a) = some s' → s.threads[i]? = some th →
    acquires th.arg.opType = true → s'.threads[i]? = some {th with pc := .reply (.notOk .allocMutexFail)} →
    s.store.slots.length = mutexNum ∧
      ∀ m ∈ s.store.slots, m.count ≠ 0 ∧ m.fileName ≠ th.arg.fileName ∧ Wanted s m.fileName

/-- The lookup of a release finds the slot of its file, with the lock taken. -/
def ReleasesFind (s : TableState) : Prop :=
  ∀ i a th, s.threads[i]? = some th → th.arg.opType = mdUnlock → th.pc = .get none →
    ∃ (p : Nat) (m : ZMutex), s.store.slots[p]? = some m ∧ m.count ≠ 0 ∧ m.fileName = th.arg.fileName ∧ m.pMutex = true ∧
      lockMachine.step s (.step i a) = some {s with threads := s.threads.set i {th with pc := .call p}}

section Proof
variable {s : TableState} {t : State Named FileName Empty (List (Nat × FileName))}

theorem view_of_slot {p : Nat} {m : ZMutex} (hm : s.store.slots[p]? = some m) (hcount : m.count ≠ 0) :
    view s.store p = some (m.fileName, ⟨m.count, m.pMutex⟩) :=
  view_some.mpr ⟨hm, hcount⟩

theorem noLeak (hrel : Rel lawful s t) (hinv : Inv disciplinedLawful t) : NoLeak s := by
  refine ⟨fun p m hm hcount => ?_, fun p m hm hzero => ?_, fun f hf => ?_, fun p q m x hm hx hcm hcx hname => ?_⟩
  · have hp := view_of_slot hm hcount
    have hentry := (hrel.entry hinv hp).1
    rw [hrel.users_eq hinv hp] at hentry
    simp only at hentry
    omega
  · -- a thread with a pointer has it to a slot in use
    have unused {th : Thread Nat Empty} (hth : th ∈ s.threads) (hat : th.At p) : False := by
      obtain ⟨e, he⟩ := hrel.pointers th hth p hat
      obtain ⟨hslot, hcount⟩ := view_some.mp he
      cases hm.symm.trans hslot
      exact hcount hzero
    exact ⟨List.countP_eq_zero.mpr fun th hth hwaits => unused hth (Thread.at_of_waitsAt hwaits),
      List.countP_eq_zero.mpr fun th hth hgives => unused hth (Thread.at_of_givesBackAt hgives)⟩
  · have hle := holders_le_users disciplinedLawful s f
    obtain ⟨p, e, he⟩ := hrel.entry_of_users hinv (f := f) (by omega)
    obtain ⟨hm, hcount⟩ := view_some.mp he
    exact ⟨p, _, hm, hcount, rfl⟩
  · exact hrel.store.unique (view_of_slot hm hcm) (hname ▸ view_of_slot hx hcx)

/-- A file with a user is wanted. -/
theorem wanted_of_users {f : FileName} (h : 0 < users disciplinedLawful s f) : Wanted s f := by
  by_cases hthreads : 0 < s.threads.countP (Thread.uses f)
  · obtain ⟨th, hth, huses⟩ := List.countP_pos_iff.mp hthreads
    refine .inr ⟨th, hth, ?_, fun hexited => ?_⟩
    · simp only [Thread.uses, Bool.and_eq_true, beq_iff_eq] at huses
      exact huses.1
    · simp [Thread.uses, hexited] at huses
  · refine .inl ?_
    rw [users] at h
    rw [holders]
    omega

/-- What is answered at a put was decided at the `switch`. -/
theorem put_answers (h : Reachable lockMachine s) :
    ∀ th ∈ s.threads, ∀ p res, th.pc = .put p res → res ≠ .notOk .allocMutexFail := by
  refine h.invariant (I := fun s => ∀ th ∈ s.threads, ∀ p res, th.pc = .put p res → res ≠ .notOk .allocMutexFail)
    ?_ ?_
  · intro s hs
    rw [hs.2.1]
    simp
  · intro s mv s' hall _ (hnext : next server disciplined s mv = some s')
    have other {i : Nat} {th th' : Thread Nat Empty} (hth' : th' ∈ s.threads.set i th)
        (hnew : ∀ p res, th.pc = .put p res → res ≠ .notOk .allocMutexFail) :
        ∀ p res, th'.pc = .put p res → res ≠ .notOk .allocMutexFail := by
      obtain hth' | rfl := List.mem_or_eq_of_mem_set hth'
      · exact hall th' hth'
      · exact hnew
    cases mv with
    | accept arg =>
      obtain ⟨clients, holder, -, rfl⟩ := next_accept hnext
      intro th hth
      obtain hth | hth := List.mem_append.mp hth
      · exact hall th hth
      · rw [List.mem_singleton.mp hth]
        intro p res hpc
        cases hpc
    | step i a =>
      obtain ⟨th, pc, store, hth, hfunc, rfl⟩ := next_step hnext
      refine fun th' hth' => other hth' fun p res hpc => ?_
      simp only at hpc
      subst hpc
      rcases Server.threadFunc_cases hfunc with ⟨_, _, _, hpc, _⟩ | ⟨_, _, _, hlook⟩ | ⟨_, _, hcall⟩ | ⟨_, _, _, _, hpc⟩
      · cases hpc
      · obtain ⟨r, -, hpc⟩ := Server.lookup_eq_some.mp hlook
        cases r <;> cases hpc
      · rcases Server.call_cases hcall with ⟨_, _, _, hpc⟩ | ⟨_, _, _, hpc⟩ | ⟨_, _, _, hpc⟩ | ⟨_, _, _, hpc⟩ <;>
          cases hpc
        · simp [ResPacket.notOk]
        · simp [ResPacket.ok, ResPacket.notOk]
      · cases hpc
    | reply i =>
      obtain ⟨arg, holder, res, hth, rfl⟩ := next_reply hnext
      refine fun th' hth' => other hth' fun p res hpc => ?_
      cases hpc

theorem full_when_refused (h : Reachable lockMachine s) (hrel : Rel lawful s t) (hinv : Inv disciplinedLawful t) :
    FullWhenRefused s := by
  intro i a s' th hstep hth hop hrefused
  obtain ⟨th', pc, store, hth', hfunc, rfl⟩ := next_step (V := server) (K := disciplined) hstep
  cases hth.symm.trans hth'
  rw [getElem?_set_same hth, Option.some.injEq, Thread.mk.injEq] at hrefused
  obtain ⟨-, -, rfl⟩ := hrefused
  refine ⟨s.store.length_eq, ?_⟩
  rcases Server.threadFunc_cases hfunc with ⟨_, _, hpeek, _⟩ | ⟨seen, _, _, hlook⟩ | ⟨_, _, hcall⟩ |
    ⟨p, res, hpc, _, hres⟩
  · cases hpeek
  · obtain ⟨r, hget, hr⟩ := Server.lookup_eq_some.mp hlook
    cases r with
    | some p => cases hr
    | none =>
      rcases getZMutex_cases hget with ⟨_, _, _, _, _, hp, _⟩ | ⟨hnames, ⟨_, hfull, _, _⟩ | ⟨_, _, _, _, _, hp, _⟩ |
        ⟨hno, _⟩⟩
      · cases hp
      · intro m hm
        refine ⟨hfull m hm, hnames m hm (hfull m hm), wanted_of_users ?_⟩
        obtain ⟨p, hp⟩ := List.getElem?_of_mem hm
        exact (hrel.entry hinv (view_of_slot hp (hfull m hm))).2.1
      · cases hp
      · rw [hop] at hno
        cases hno
  · rcases Server.call_cases hcall with ⟨_, _, _, hpc⟩ | ⟨_, _, _, hpc⟩ | ⟨_, _, _, hpc⟩ | ⟨_, _, _, hpc⟩ <;> cases hpc
  · cases hres
    exact absurd rfl (put_answers h th (List.mem_of_getElem? hth) p _ hpc)

theorem counts_nonneg (hrel : Rel lawful s t) (hinv : Inv disciplinedLawful t) : ∀ m ∈ s.store.slots, 0 ≤ m.count := by
  intro m hm
  by_cases hzero : m.count = 0
  · omega
  · obtain ⟨p, hp⟩ := List.getElem?_of_mem hm
    have hcount := (hrel.entry hinv (view_of_slot hp hzero)).1
    simp only at hcount
    omega

theorem releases_find (h : Reachable lockMachine s) (hrel : Rel lawful s t) (hinv : Inv disciplinedLawful t) :
    ReleasesFind s := by
  intro i a th hth hop hpc
  have hmem := List.mem_of_getElem? hth
  have hholder : th.holder = true := by
    cases hb : th.holder with
    | true => rfl
    | false => exact absurd ⟨hop, hb⟩ (disciplined_not_stray h th hmem)
  have hholds : th.holds th.arg.fileName = true := by simp [Thread.holds, hpc, hop, hholder]
  have hpos : 0 < s.threads.countP (Thread.holds th.arg.fileName) := List.countP_pos_iff.mpr ⟨th, hmem, hholds⟩
  have hone := hrel.holders_le_one hinv th.arg.fileName
  have hle := holders_le_users disciplinedLawful s th.arg.fileName
  have hholders : holders disciplinedLawful s th.arg.fileName = 1 := by
    rw [holders] at hone ⊢
    omega
  obtain ⟨q, e, he⟩ := hrel.entry_of_users hinv (f := th.arg.fileName) (by omega)
  obtain ⟨hslot, hcount⟩ := view_some.mp he
  have hacq : acquires th.arg.opType = false := by rw [hop, not_acquires_unlock]
  obtain ⟨⟨r, store⟩, hget⟩ := getZMutex_returns (counts_nonneg hrel hinv) th.arg.fileName th.arg.opType
  rcases getZMutex_cases hget with ⟨p, m, hm, hmcount, hname, rfl, rfl⟩ | ⟨hnames, _⟩
  · rw [hacq, if_neg Bool.false_ne_true] at hget
    have hlocked := (hrel.entry hinv (view_of_slot hm (by omega))).2.2
    simp only [hname, hholders, decide_true] at hlocked
    refine ⟨p, m, hm, by omega, hname, hlocked, ?_⟩
    have hlook : server.lookup th.arg none a s.store = some (.call p, s.store) :=
      Server.lookup_eq_some.mpr ⟨some p, hget, rfl⟩
    have hfunc : server.threadFunc flagMutex th.arg a s.store th.pc = some (.call p, s.store) := by
      rw [hpc]
      exact hlook
    show next server disciplined s (.step i a) = _
    simp only [next, hth, hfunc, Option.bind_eq_bind, Option.bind_some]
  · exact absurd rfl (hnames _ (List.mem_of_getElem? hslot) hcount)

/-- With nothing held and no request in progress every slot is free. -/
theorem all_free (hrel : Rel lawful s t) (hinv : Inv disciplinedLawful t) (hclients : s.clients = [])
    (hexited : ∀ th ∈ s.threads, th.pc = .exited) : ∀ m ∈ s.store.slots, m.count = 0 := by
  intro m hm
  apply Classical.byContradiction
  intro hcount
  obtain ⟨p, hp⟩ := List.getElem?_of_mem hm
  have hpos := (hrel.entry hinv (view_of_slot hp hcount)).2.1
  have hzero : s.threads.countP (Thread.uses m.fileName) = 0 := by
    refine List.countP_eq_zero.mpr fun th hth => ?_
    simp [Thread.uses, hexited th hth]
  simp only [users, disciplinedLawful, hclients, grants, List.countP_nil, hzero] at hpos
  omega

end Proof

/-- **No slot is leaked.** In every reachable state the slots count just the locks and the
requests they are in use for; a request is refused for want of a slot only while all are in
use for others; a release finds its slot; and when all have unlocked and been answered,
every slot is free. -/
theorem no_leak {s : TableState} (h : Reachable lockMachine s) : NoLeak s ∧ FullWhenRefused s ∧ ReleasesFind s ∧
    (s.clients = [] → (∀ th ∈ s.threads, th.pc = .exited) → ∀ m ∈ s.store.slots, m.count = 0) := by
  obtain ⟨t, hrel, hinv⟩ := lockMachine_refines h
  exact ⟨noLeak hrel hinv, full_when_refused h hrel hinv, releases_find h hrel hinv, all_free hrel hinv⟩

/-- Client 7 has a file that client 8 waits for: their slot counts two. -/
theorem no_leak_waiting : ∃ s f, Reachable lockMachine s ∧ (7, f) ∈ s.clients ∧ NoLeak s ∧
    ∃ m, s.store.slots[0]? = some m ∧ m.fileName = f ∧ m.count = 2 := by
  let f : FileName := ⟨[102], by decide, by decide⟩
  obtain ⟨s, hreach, hs⟩ := Reach.exists_run (M := lockMachine) (R := always)
    [.accept ⟨mdLock, 7, f⟩, .accept ⟨mdLock, 8, f⟩, .step 0 (), .step 1 (), .step 0 (), .reply 0]
    (fun s => (7, f) ∈ s.clients && s.store.slots[0]? = some ⟨2, true, f⟩)
    (.start (s := ⟨mutexTableInit, [], []⟩) ⟨rfl, rfl, rfl⟩) (by decide)
  simp only [Bool.and_eq_true, decide_eq_true_eq] at hs
  exact ⟨s, f, hreach, hs.1, (no_leak hreach).1, _, hs.2, rfl, rfl⟩

end Table

end CacheFs.Mutex
