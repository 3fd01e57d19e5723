import CacheFs.Library.Settling
import CacheFs.Mutex.Refinement

/-! What the request threads of a lock server can always go on with.

A thread makes at most five moves and is never held up but by its own
`pthread_mutex_lock`, and there only while some other request has the lock of the
file (`Rel.moves_iff`): no wakeup is lost and no two threads wait for each other.
So when no thread can move, each that is not finished waits for a lock that a
client was granted and has not asked to release (`Rel.granted_of_still`). -/
namespace CacheFs.Mutex
open Transition Registry Members

variable {S P L A C : Type}

/-- The thread is an `MD_LOCK` at its `pthread_mutex_lock`. -/
def Thread.AtLock (th : Thread P L) : Prop := th.arg.opType = mdLock ∧ ∃ m, th.pc = .call m

/-- Thread `i` has a move, for some answer of the allocator among those that count. -/
def Moves (V : Server S P L A) (K : Clients C) (answers : A → Prop) (s : State S P L C) (i : Nat) : Prop :=
  (∃ a, answers a ∧ (next V K s (.step i a)).isSome) ∨ (next V K s (.reply i)).isSome

/-! ### The moves a thread has left -/

/-- The moves from here to the exit, if none is left out. -/
def Pc.remaining : Pc P L → Nat
  | .get none => 5
  | .get (some _) => 4
  | .call _ => 3
  | .put _ _ => 2
  | .reply _ => 1
  | .exited => 0

/-- The moves that the threads have left. -/
def remaining (threads : List (Thread P L)) : Nat := (threads.map fun th => th.pc.remaining).sum

theorem Pc.remaining_le (pc : Pc P L) : pc.remaining ≤ 5 := by
  unfold remaining
  split <;> omega

theorem remaining_set {threads : List (Thread P L)} {i : Nat} {th : Thread P L} (hth : threads[i]? = some th)
    (th' : Thread P L) :
    remaining (threads.set i th') + th.pc.remaining = remaining threads + th'.pc.remaining :=
  sum_map_set (fun th => th.pc.remaining) hth

theorem Pc.ne_exited {pc : Pc P L} (h : 0 < pc.remaining) : pc ≠ .exited := by
  intro hpc
  rw [hpc] at h
  exact absurd h (Nat.lt_irrefl 0)

/-- A lookup goes on to the `switch` or to the reply. -/
theorem afterGet_remaining (r : Option P) :
    0 < (afterGet r : Pc P L).remaining ∧ (afterGet r : Pc P L).remaining ≤ 3 := by
  cases r <;> simp [Pc.remaining]

/-- Each step brings a thread nearer to its exit, but not there. -/
theorem threadFunc_remaining {V : Server S P L A} {arg : ThreadArg} {a : A} {s s' : S} {pc pc' : Pc P L}
    (h : V.threadFunc flagMutex arg a s pc = some (pc', s')) :
    0 < pc'.remaining ∧ pc'.remaining < pc.remaining := by
  rcases Server.threadFunc_cases h with ⟨l, rfl, _, rfl, _⟩ | ⟨seen, rfl, _, hlook⟩ | ⟨m, rfl, hcall⟩ |
    ⟨m, res, rfl, _, rfl⟩
  · simp [Pc.remaining]
  · obtain ⟨r, _, rfl⟩ := Server.lookup_eq_some.mp hlook
    have hr := afterGet_remaining (L := L) r
    refine ⟨hr.1, Nat.lt_of_le_of_lt hr.2 ?_⟩
    cases seen <;> simp [Pc.remaining]
  · rcases Server.call_cases hcall with ⟨_, _, _, rfl⟩ | ⟨_, _, _, rfl⟩ | ⟨_, _, _, rfl⟩ | ⟨_, _, _, rfl⟩ <;>
      simp [Pc.remaining]
  · simp [Pc.remaining]

/-- What a move adds to the moves that are left: a new request, its five. -/
def Move.brought : Move A → Nat
  | .accept _ => 6
  | _ => 0

theorem next_remaining {V : Server S P L A} {K : Clients C} {s s' : State S P L C} {mv : Move A}
    (h : next V K s mv = some s') : remaining s'.threads + 1 ≤ remaining s.threads + mv.brought := by
  cases mv with
  | accept arg =>
    obtain ⟨clients, holder, _, rfl⟩ := next_accept h
    simp [remaining, Move.brought, Pc.remaining]
  | step i a =>
    obtain ⟨th, pc, store, hth, hfunc, rfl⟩ := next_step h
    have hset := remaining_set hth {th with pc := pc}
    have hless := (threadFunc_remaining hfunc).2
    simp only [Move.brought] at hset ⊢
    omega
  | reply i =>
    obtain ⟨arg, holder, res, hth, rfl⟩ := next_reply h
    have hset := remaining_set hth ⟨arg, holder, .exited⟩
    simp only [Pc.remaining] at hset
    simp only [Move.brought]
    omega

/-! ### What holds a thread up -/

section
variable [DecidableEq P]

/-- What a table owes a thread so that it is not held up in it: while every cell
counts a user, a lookup from what is still current returns, for some answer of the
allocator, and the put of an entry in use does. -/
structure Server.Lawful.Serving {V : Server S P L A} (W : V.Lawful) (answers : A → Prop) : Prop where
  get_returns : ∀ {s} f opType {seen}, W.Inv s → (∀ p x, W.view s p = some x → 0 < x.2.count) →
    (∀ l, seen = some l → W.Current s f l) → ∃ a, answers a ∧ (V.get s f opType seen a).isSome
  put_returns : ∀ {s p x}, W.Inv s → W.view s p = some x → (V.put s p).isSome

variable {V : Server S P L A} {W : V.Lawful} {K : Clients C} {Q : K.Lawful} {answers : A → Prop}
  {s : State S P L C} {t : State Named FileName Empty C}

omit [DecidableEq P] in
theorem Moves.of_step {i : Nat} {th : Thread P L} {a : A} (hth : s.threads[i]? = some th) (ha : answers a)
    (h : (V.threadFunc flagMutex th.arg a s.store th.pc).isSome) : Moves V K answers s i := by
  obtain ⟨x, hx⟩ := Option.isSome_iff_exists.mp h
  exact .inl ⟨a, ha, by simp [next, hth, hx]⟩

omit [DecidableEq P] in
/-- The move of a thread is a step of `thread_func` or its reply. -/
theorem Moves.func_or_reply {i : Nat} {th : Thread P L} (hth : s.threads[i]? = some th)
    (h : Moves V K answers s i) :
    (∃ a x, V.threadFunc flagMutex th.arg a s.store th.pc = some x) ∨ ∃ res, th.pc = .reply res := by
  obtain ⟨a, _, hstep⟩ | hreply := h
  · obtain ⟨s', hs'⟩ := Option.isSome_iff_exists.mp hstep
    obtain ⟨th', pc, store, hth', hfunc, _⟩ := next_step hs'
    rw [hth] at hth'
    cases hth'
    exact .inl ⟨a, _, hfunc⟩
  · obtain ⟨s', hs'⟩ := Option.isSome_iff_exists.mp hreply
    obtain ⟨arg, holder, res, hth', _⟩ := next_reply hs'
    rw [hth] at hth'
    cases hth'
    exact .inr ⟨res, rfl⟩

/-- Every cell counts a user. -/
theorem Rel.count_pos (h : Rel W s t) (hinv : Inv Q t) (p : P) (x : FileName × Entry)
    (hp : W.view s.store p = some x) : 0 < x.2.count := by
  obtain ⟨hcount, hpos, -⟩ := h.entry hinv (f := x.1) (e := x.2) hp
  omega

/-- The allocator has an answer that counts. -/
theorem Rel.answer (h : Rel W s t) (hinv : Inv Q t) (serving : W.Serving answers) (f : FileName) :
    ∃ a, answers a := by
  have hnone : ∀ l : L, none = some l → W.Current s.store f l := by simp
  obtain ⟨a, ha, -⟩ := serving.get_returns f mdLock h.inv (h.count_pos hinv) hnone
  exact ⟨a, ha⟩

/-- A thread at its `switch` or its put has its pointer to an entry in use. -/
theorem Rel.entry_at (h : Rel W s t) (hinv : Inv Q t) {th : Thread P L} (hth : th ∈ s.threads) {p : P}
    (hat : th.At p) : ∃ e, W.view s.store p = some (th.arg.fileName, e) ∧
      V.mutex s.store p = some e.locked ∧ e.locked = decide (Mutex.holders Q s th.arg.fileName = 1) := by
  obtain ⟨e, he⟩ := h.pointers th hth p hat
  exact ⟨e, he, W.mutex_eq h.inv he, (h.entry hinv he).2.2⟩

/-- The `switch` returns but for an `MD_LOCK` of a lock that has its holder. -/
theorem Rel.call_returns (h : Rel W s t) (hinv : Inv Q t) {th : Thread P L} (hth : th ∈ s.threads) {p : P}
    (hpc : th.pc = .call p) :
    (V.call flagMutex th.arg p s.store).isSome ↔
      ¬ (th.arg.opType = mdLock ∧ Mutex.holders Q s th.arg.fileName = 1) := by
  by_cases hlock : th.arg.opType = mdLock
  · obtain ⟨e, _, hm, he⟩ := h.entry_at hinv hth ⟨.inl hpc, .inl (by simp [acquires, hlock])⟩
    simp only [Server.call, hlock, if_true, Server.pthreadCall, hm, he, true_and]
    by_cases hone : Mutex.holders Q s th.arg.fileName = 1 <;> simp [flagMutex, hone]
  · have hreturns : (V.call flagMutex th.arg p s.store).isSome := by
      by_cases htry : th.arg.opType = mdTryLock
      · obtain ⟨e, _, hm, _⟩ := h.entry_at hinv hth ⟨.inl hpc, .inl (by simp [acquires, htry])⟩
        cases hl : e.locked
        · rw [hl] at hm
          rw [Server.call_free (by simp [acquires, htry]) hm]
          rfl
        · rw [hl] at hm
          rw [Server.call_taken htry hm]
          rfl
      · by_cases hunlock : th.arg.opType = mdUnlock
        · obtain ⟨e, _, hm, _⟩ := h.entry_at hinv hth ⟨.inl hpc, .inr hunlock⟩
          rw [Server.call_unlock hunlock hm]
          rfl
        · simp [Server.call, hlock, htry, hunlock]
    simp [hreturns, hlock]

/-- **A thread is held up only at a taken lock**: it has a move exactly when it is not
finished and not an `MD_LOCK` at a mutex that a request or a client has. -/
theorem Rel.moves_iff (h : Rel W s t) (hinv : Inv Q t) (serving : W.Serving answers) {i : Nat}
    {th : Thread P L} (hth : s.threads[i]? = some th)
    (hcurrent : ∀ l, th.pc = .get (some l) → W.Current s.store th.arg.fileName l) :
    Moves V K answers s i ↔ th.pc ≠ .exited ∧ ¬ (th.AtLock ∧ Mutex.holders Q s th.arg.fileName = 1) := by
  have hmem := List.mem_of_getElem? hth
  obtain ⟨a₀, ha₀⟩ := h.answer hinv serving th.arg.fileName
  have looks (seen : Option L) (hseen : ∀ l, seen = some l → W.Current s.store th.arg.fileName l) :
      ∃ a, answers a ∧ (V.lookup th.arg seen a s.store).isSome := by
    obtain ⟨a, ha, hget⟩ := serving.get_returns _ th.arg.opType h.inv (h.count_pos hinv) hseen
    exact ⟨a, ha, by simpa [Server.lookup] using hget⟩
  cases hpc : th.pc with
  | get seen =>
    have hfree : ¬ th.AtLock := fun hat => by
      obtain ⟨_, m, hm⟩ := hat
      simp [hpc] at hm
    simp only [ne_eq, reduceCtorEq, not_false_eq_true, hfree, false_and, and_self, iff_true]
    cases seen with
    | none =>
      cases hpeek : V.peek s.store th.arg.fileName with
      | some l => exact Moves.of_step hth ha₀ (by simp [hpc, Server.threadFunc, hpeek])
      | none =>
        obtain ⟨a, ha, hlook⟩ := looks none (by simp)
        exact Moves.of_step hth ha (by simpa [hpc, Server.threadFunc, hpeek] using hlook)
    | some l =>
      obtain ⟨a, ha, hlook⟩ := looks (some l) fun l' hl => hcurrent l' (by rw [hpc, hl])
      exact Moves.of_step hth ha (by simpa [hpc, Server.threadFunc] using hlook)
  | call p =>
    have hcall := h.call_returns hinv hmem hpc
    have hat : th.AtLock ↔ th.arg.opType = mdLock := ⟨And.left, fun hop => ⟨hop, p, hpc⟩⟩
    simp only [ne_eq, reduceCtorEq, not_false_eq_true, true_and, hat, ← hcall]
    constructor
    · intro hmoves
      obtain ⟨a, x, hfunc⟩ | ⟨res, hres⟩ := hmoves.func_or_reply hth
      · rw [hpc] at hfunc
        exact Option.isSome_of_eq_some hfunc
      · rw [hpc] at hres
        cases hres
    · intro hreturns
      exact Moves.of_step hth ha₀ (by simpa [hpc, Server.threadFunc] using hreturns)
  | put p res =>
    have hfree : ¬ th.AtLock := fun hat => by
      obtain ⟨_, m, hm⟩ := hat
      simp [hpc] at hm
    have hok := hinv.threads th.named (by rw [h.threads]; exact List.mem_map_of_mem hmem)
    have hop : acquires th.arg.opType = true ∨ th.arg.opType = mdUnlock := by
      simp only [Thread.Ok, Thread.named, Pc.named, hpc] at hok
      exact hok.2.imp And.left id
    obtain ⟨e, he, _, _⟩ := h.entry_at hinv hmem ⟨.inr ⟨res, hpc⟩, hop⟩
    have hput := serving.put_returns h.inv he
    simp only [ne_eq, reduceCtorEq, not_false_eq_true, hfree, false_and, and_self, iff_true]
    exact Moves.of_step hth ha₀ (by simpa [hpc, Server.threadFunc] using hput)
  | reply res =>
    have hfree : ¬ th.AtLock := fun hat => by
      obtain ⟨_, m, hm⟩ := hat
      simp [hpc] at hm
    simp only [ne_eq, reduceCtorEq, not_false_eq_true, hfree, false_and, and_self, iff_true]
    obtain ⟨arg, holder, pc⟩ := th
    subst hpc
    exact .inr (by simp [next, hth])
  | exited =>
    simp only [ne_eq, not_true_eq_false, false_and, iff_false]
    intro hmoves
    obtain ⟨a, x, hfunc⟩ | ⟨res, hres⟩ := hmoves.func_or_reply hth
    · rw [hpc] at hfunc
      cases hfunc
    · rw [hpc] at hres
      cases hres

/-- **No deadlock.** Where no thread has a move, each that is not finished is an
`MD_LOCK` at the lock of a file that the clients have been granted and have not
asked to release. -/
theorem Rel.granted_of_still (h : Rel W s t) (hinv : Inv Q t) (serving : W.Serving answers)
    (hcurrent : ∀ th ∈ s.threads, ∀ l, th.pc = .get (some l) → W.Current s.store th.arg.fileName l)
    (hstill : ∀ i, ¬ Moves V K answers s i) {th : Thread P L} (hth : th ∈ s.threads)
    (hpc : th.pc ≠ .exited) : th.AtLock ∧ 0 < Q.acquired s.clients th.arg.fileName := by
  have held {th : Thread P L} (hth : th ∈ s.threads) (hpc : th.pc ≠ .exited) :
      th.AtLock ∧ Mutex.holders Q s th.arg.fileName = 1 := by
    obtain ⟨i, hi⟩ := List.getElem?_of_mem hth
    by_contra hfree
    exact hstill i ((h.moves_iff hinv serving hi (hcurrent th hth)).mpr ⟨hpc, hfree⟩)
  obtain ⟨hat, hone⟩ := held hth hpc
  refine ⟨hat, ?_⟩
  by_contra hnone
  -- then a thread holds the lock, and that thread is held up too
  have hpos : 0 < s.threads.countP (Thread.holds th.arg.fileName) := by
    simp only [Mutex.holders] at hone
    omega
  obtain ⟨th', hth', hholds⟩ := List.countP_pos_iff.mp hpos
  have hpc' : th'.pc ≠ .exited := by
    intro hex
    simp [Thread.holds, hex] at hholds
  obtain ⟨⟨hop, m, hm⟩, _⟩ := held hth' hpc'
  simp [Thread.holds, hm, hop, mdLock, mdUnlock] at hholds

end

end CacheFs.Mutex
