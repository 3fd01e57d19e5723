import CacheFs.Mutex.HashServer
import CacheFs.Mutex.Progress
import CacheFs.Mutex.TableServer

/-! Both lock servers go on until only waits for granted locks are left.

From any reachable state and whatever the order, `n` requests in progress make at most
`5 * n` moves in all; when they can make no more, each is answered but for the
`MD_LOCK`s of files that a client has been granted and has not asked to release. -/
namespace CacheFs.Mutex
open Transition

variable {S P L A : Type}

/-- The rule of runs in which no request is sent, and whose allocator gives the answers
that count. -/
def unasked {C : Type} (answers : A → Prop) : Rule (State S P L C) (Move A)
  | _, .accept _ => False
  | _, .step _ a => answers a
  | _, .reply _ => True

instance {C : Type} (answers : A → Prop) [DecidablePred answers] (s : State S P L C) :
    ∀ mv : Move A, Decidable (unasked answers s mv)
  | .accept _ => isFalse id
  | .step _ a => inferInstanceAs (Decidable (answers a))
  | .reply _ => isTrue trivial

/-- Where no request is sent and no other move is left, no thread has a move. -/
theorem not_moves_of_settled {C : Type} {V : Server S P L A} {K : Clients C} {empty : S} {fresh : C → Prop}
    {answers : A → Prop} {s : State S P L C} (h : Settled (machine V K empty fresh) (unasked answers) s)
    (i : Nat) : ¬ Moves V K answers s i := by
  intro hmoves
  obtain ⟨a, ha, hstep⟩ | hreply := hmoves
  · have hnone : next V K s (.step i a) = none := h (.step i a) ha
    rw [hnone] at hstep
    cases hstep
  · have hnone : next V K s (.reply i) = none := h (.reply i) trivial
    rw [hnone] at hreply
    cases hreply

/-- The request is not answered yet. -/
def Thread.inProgress (th : Thread P L) : Bool :=
  match th.pc with
  | .exited => false
  | _ => true

def unfinished (threads : List (Thread P L)) : Nat := threads.countP Thread.inProgress

theorem remaining_le (threads : List (Thread P L)) : remaining threads ≤ 5 * unfinished threads := by
  induction threads with
  | nil => simp [remaining]
  | cons th rest ih =>
    have hone : th.pc.remaining ≤ 5 * th.inProgress.toNat := by
      have hle := th.pc.remaining_le
      unfold Thread.inProgress
      split
      · rename_i hpc
        simp [hpc, Pc.remaining]
      · exact hle
    simp only [remaining, unfinished, List.map_cons, List.sum_cons, List.countP_cons] at ih ⊢
    cases hp : th.inProgress <;> simp only [hp, Bool.toNat_false, Bool.toNat_true] at hone ⊢ <;> simp <;> omega

/-- In a run in which no request is sent, `n` requests in progress make at most `5 * n` moves
in all. -/
theorem moves_le {C : Type} {V : Server S P L A} {K : Clients C} {empty : S} {fresh : C → Prop}
    {answers : A → Prop} [DecidablePred answers] {s s' : State S P L C} {moves : List (Move A)}
    (h : (machine V K empty fresh).run (unasked answers) s moves = some s') :
    moves.length ≤ 5 * unfinished s.threads := by
  refine Nat.le_trans (Machine.run_length_le_measure (fun s : State S P L C => remaining s.threads)
    (fun s mv s' hr hstep => ?_) moves h) (remaining_le s.threads)
  · have hlower := next_remaining (hstep : next V K s mv = some s')
    cases mv with
    | accept arg => exact absurd hr id
    | step i a => exact hlower
    | reply i => exact hlower

/-- A file with an acquisition not released has its client. -/
theorem exists_holds {s : State S P L (List (Nat × FileName))} {f : FileName}
    (h : 0 < holders disciplinedLawful s f) : ∃ c, Holds s c f := by
  by_cases hgrants : 0 < grants s.clients f
  · obtain ⟨x, hx, hf⟩ := List.countP_pos_iff.mp hgrants
    have hname : x.2 = f := by simpa using hf
    exact ⟨x.1, .inl (hname ▸ hx)⟩
  · have hthreads : 0 < s.threads.countP (Thread.holds f) := by
      simp only [holders, disciplinedLawful] at h
      omega
    obtain ⟨th, hth, hf⟩ := List.countP_pos_iff.mp hthreads
    exact ⟨th.arg.client, .inr ⟨th, hth, rfl, hf⟩⟩

theorem holders_eq_one_iff {s : State S P L (List (Nat × FileName))} {f : FileName}
    (hone : holders disciplinedLawful s f ≤ 1) : holders disciplinedLawful s f = 1 ↔ ∃ c, Holds s c f := by
  constructor
  · intro h
    exact exists_holds (by omega)
  · intro h
    obtain ⟨c, hc⟩ := h
    have := hc.holders_pos
    omega

theorem granted_of_pos {held : List (Nat × FileName)} {f : FileName} (h : 0 < grants held f) :
    ∃ c, (c, f) ∈ held := by
  obtain ⟨x, hx, hf⟩ := List.countP_pos_iff.mp h
  have hname : x.2 = f := by simpa using hf
  exact ⟨x.1, hname ▸ hx⟩

/-! ### The table -/

namespace Table

/-- No request is held up in the table. -/
theorem serving : lawful.Serving fun _ => True where
  get_returns := by
    intro t f opType _ _ hpos _
    have hcounts : ∀ m ∈ t.slots, 0 ≤ m.count := by
      intro m hm
      obtain ⟨p, hp⟩ := List.getElem?_of_mem hm
      by_cases hzero : m.count = 0
      · omega
      · have := hpos p (m.fileName, ⟨m.count, m.pMutex⟩) (view_some.mpr ⟨hp, hzero⟩)
        simp only at this
        omega
    obtain ⟨x, hx⟩ := getZMutex_returns hcounts f opType
    exact ⟨(), trivial, Option.isSome_of_eq_some hx⟩
  put_returns := by
    intro t p x _ hp
    obtain ⟨f, e⟩ := x
    obtain ⟨hm, -⟩ := view_some.mp hp
    have hlt : p < mutexNum := by
      rw [← t.length_eq]
      exact (List.getElem?_eq_some_iff.mp hm).1
    simp [server, putZMutex, hlt]

/-- **No lost wakeup.** In every reachable state a request thread has a move exactly when
it is not finished and is not an `MD_LOCK` at the mutex of a file whose lock a client
has, from its grant to its release. -/
theorem request_moves_iff {s : State MutexTable Nat Empty (List (Nat × FileName))} (h : Reachable lockMachine s)
    {i : Nat} {th : Thread Nat Empty} (hth : s.threads[i]? = some th) :
    Moves server disciplined (fun _ => True) s i ↔
      th.pc ≠ .exited ∧ ¬ (th.AtLock ∧ ∃ c, Holds s c th.arg.fileName) := by
  obtain ⟨t, hrel, hinv⟩ := lockMachine_refines h
  rw [hrel.moves_iff hinv serving hth (fun l => l.elim), holders_eq_one_iff (hrel.holders_le_one hinv _)]

/-- Client 8 waits at the lock that client 7 has been granted. -/
theorem request_moves_iff_waiting : ∃ s f, ∃ th : Thread Nat Empty, Reachable lockMachine s ∧
    s.threads[1]? = some th ∧ (7, f) ∈ s.clients ∧ ¬ Moves server disciplined (fun _ => True) s 1 := by
  let f : FileName := ⟨[102], by decide, by decide⟩
  obtain ⟨s, hreach, hs⟩ := Reach.exists_run (M := lockMachine) (R := always)
    [.accept ⟨mdLock, 7, f⟩, .accept ⟨mdLock, 8, f⟩, .step 0 (), .step 1 (), .step 0 (), .reply 0]
    (fun s => (7, f) ∈ s.clients && s.threads[1]? = some ⟨⟨mdLock, 8, f⟩, false, .call 0⟩)
    (.start (s := ⟨mutexTableInit, [], []⟩) ⟨rfl, rfl, rfl⟩) (by decide)
  simp only [Bool.and_eq_true, decide_eq_true_eq] at hs
  exact ⟨s, f, _, hreach, hs.2, hs.1, fun hmoves =>
    ((request_moves_iff hreach hs.2).mp hmoves).2 ⟨⟨rfl, 0, rfl⟩, 7, .inl hs.1⟩⟩

/-- **Requests settle.** From every reachable state, `n` requests in progress make at
most `5 * n` moves in all, in any order, if no other is sent; when they can make no more,
each is answered but for the `MD_LOCK`s of files that a client has been granted. -/
theorem requests_settle {s : State MutexTable Nat Empty (List (Nat × FileName))} (h : Reachable lockMachine s)
    {moves : List (Move Unit)} {s' : State MutexTable Nat Empty (List (Nat × FileName))}
    (hrun : lockMachine.run (unasked fun _ => True) s moves = some s') :
    moves.length ≤ 5 * unfinished s.threads ∧
    (Settled lockMachine (unasked fun _ => True) s' → ∀ th ∈ s'.threads, th.pc ≠ .exited →
      th.AtLock ∧ ∃ c, (c, th.arg.fileName) ∈ s'.clients) := by
  refine ⟨moves_le hrun, fun hsettled th hth hpc => ?_⟩
  obtain ⟨t, hrel, hinv⟩ := lockMachine_refines (h.extend hrun)
  obtain ⟨hat, hpos⟩ := hrel.granted_of_still hinv serving (fun _ _ l => l.elim)
    (not_moves_of_settled hsettled) hth hpc
  exact ⟨hat, granted_of_pos hpos⟩

/-- The request of client 7 is answered in three moves, and that of client 8 then waits
for it. -/
theorem requests_settle_waiting : ∃ s s' f, Reachable lockMachine s ∧
    lockMachine.run (unasked fun _ => True) s [.step 0 (), .step 1 (), .step 0 (), .reply 0] = some s' ∧
    4 ≤ 5 * unfinished s.threads ∧ (7, f) ∈ s'.clients := by
  let f : FileName := ⟨[102], by decide, by decide⟩
  obtain ⟨s, hreach, hs⟩ := Reach.exists_run (M := lockMachine) (R := always)
    [.accept ⟨mdLock, 7, f⟩, .accept ⟨mdLock, 8, f⟩]
    (fun s => (lockMachine.run (unasked fun _ => True) s
      [.step 0 (), .step 1 (), .step 0 (), .reply 0]).any fun s' => (7, f) ∈ s'.clients)
    (.start (s := ⟨mutexTableInit, [], []⟩) ⟨rfl, rfl, rfl⟩) (by decide)
  obtain ⟨s', hrun, hheld⟩ := Option.any_eq_true _ _ |>.mp hs
  exact ⟨s, s', f, hreach, hrun, (requests_settle hreach hrun).1, by simpa using hheld⟩

end Table

/-! ### The chains -/

namespace Hash

/-- `malloc` gives memory. -/
def memoryGiven (nmtx : Option Nat) : Prop := nmtx.isSome = true

instance : DecidablePred memoryGiven := fun nmtx => inferInstanceAs (Decidable (nmtx.isSome = true))

/-- No request is held up in the chains while `malloc` gives memory. -/
theorem servingOf {L : Type} {peek : HashTable → FileName → Option L}
    {head : HashTable → FileName → Option L → Option Nat} (Current : HashTable → FileName → L → Prop)
    (serves : ∀ {t chains f seen}, Shape t chains → (∀ l, seen = some l → Current t f l) →
      Serves t f (head t f seen)) : (lawfulOf Current serves : (serverOf peek head).Lawful).Serving memoryGiven where
  get_returns := by
    intro t f opType seen hshape _ hseen
    obtain ⟨chains, h⟩ := hshape
    -- memory above everything handed out is free
    have hfree : t.heap t.brk = none := by
      by_contra hne
      obtain ⟨m, hm⟩ := Option.ne_none_iff_exists'.mp hne
      exact absurd (h.below _ m hm) (Nat.lt_irrefl _)
    refine ⟨some t.brk, rfl, ?_⟩
    simp only [serverOf]
    rcases h.get (serves h hseen) opType (some t.brk) with ⟨p, m, _, _, hr⟩ |
      ⟨_, ⟨_, hr⟩ | ⟨_, hnone, _⟩ | ⟨_, p, hp, ⟨hused, _⟩ | ⟨_, t₁, _, hr, _⟩⟩⟩
    · simp [hr]
    · simp [hr]
    · cases hnone
    · cases hp
      exact absurd hfree hused
    · simp [hr]
  put_returns := by
    intro t p x hshape hp
    obtain ⟨chains, h⟩ := hshape
    obtain ⟨f, e⟩ := x
    obtain ⟨_, _, hm⟩ := view_some.mp hp
    obtain ⟨t₁, _, hr, _⟩ := h.put hm
    exact Option.isSome_of_eq_some hr

theorem serving : lawful.Serving memoryGiven := servingOf _ _

theorem atomicServing : atomicLawful.Serving memoryGiven := servingOf _ _

/-- **Requests settle.** From every reachable state with lookups in one step, `n`
requests in progress make at most `5 * n` moves in all, in any order, if no other is sent;
when they can make no more although `malloc` gives memory, each is answered but for
the `MD_LOCK`s of files that a client has been granted. If the clients then have
nothing granted, every request is answered and every chain is empty. -/
theorem requests_settle_atomic {s : State HashTable Nat Empty (List (Nat × FileName))} (h : Reachable atomicMachine s)
    {moves : List (Move (Option Nat))} {s' : State HashTable Nat Empty (List (Nat × FileName))}
    (hrun : atomicMachine.run (unasked memoryGiven) s moves = some s') :
    moves.length ≤ 5 * unfinished s.threads ∧
    (Settled atomicMachine (unasked memoryGiven) s' →
      (∀ th ∈ s'.threads, th.pc ≠ .exited → th.AtLock ∧ ∃ c, (c, th.arg.fileName) ∈ s'.clients) ∧
      (s'.clients = [] → (∀ th ∈ s'.threads, th.pc = .exited) ∧ ∀ b, s'.store.mutexHash b = none)) := by
  have hreach := h.extend hrun
  refine ⟨moves_le hrun, fun hsettled => ?_⟩
  have hgranted : ∀ th ∈ s'.threads, th.pc ≠ .exited →
      th.AtLock ∧ ∃ c, (c, th.arg.fileName) ∈ s'.clients := by
    intro th hth hpc
    obtain ⟨t, hrel, hinv⟩ := refines atomicLawful disciplinedLawful ⟨_, init_shape⟩ init_view
      disciplined_fresh (disciplined_sound atomicLawful hreach)
    obtain ⟨hat, hpos⟩ := hrel.granted_of_still hinv atomicServing (fun _ _ l => l.elim)
      (not_moves_of_settled hsettled) hth hpc
    exact ⟨hat, granted_of_pos hpos⟩
  refine ⟨hgranted, fun hclients => ?_⟩
  have hexited : ∀ th ∈ s'.threads, th.pc = .exited := by
    intro th hth
    by_contra hpc
    obtain ⟨_, c, hc⟩ := hgranted th hth hpc
    simp [hclients] at hc
  exact ⟨hexited, (chains_kept hreach).2 hclients hexited⟩

/-- The try of client 8 is refused while client 7 waits to be told that the lock is its
own. -/
theorem requests_settle_atomic_refused : ∃ s s', Reachable atomicMachine s ∧
    atomicMachine.run (unasked memoryGiven) s [.step 0 (some 0), .step 0 (some 0), .step 1 (some 0),
      .step 1 (some 0), .step 1 (some 0), .reply 1] = some s' ∧ 6 ≤ 5 * unfinished s.threads := by
  let f : FileName := ⟨[102], by decide, by decide⟩
  obtain ⟨s, hreach, hs⟩ := Reach.exists_run (M := atomicMachine) (R := always)
    [.accept ⟨mdLock, 7, f⟩, .accept ⟨mdTryLock, 8, f⟩]
    (fun s => (atomicMachine.run (unasked memoryGiven) s [.step 0 (some 0), .step 0 (some 0),
      .step 1 (some 0), .step 1 (some 0), .step 1 (some 0), .reply 1]).isSome)
    (.start (s := ⟨mutexHashInit, [], []⟩) ⟨rfl, rfl, rfl⟩) (by decide)
  obtain ⟨s', hrun⟩ := Option.isSome_iff_exists.mp hs
  exact ⟨s, s', hreach, hrun, (requests_settle_atomic hreach hrun).1⟩

end Hash

end CacheFs.Mutex
