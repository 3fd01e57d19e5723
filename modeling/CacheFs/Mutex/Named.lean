import CacheFs.Mutex.Run

/-! The lock server as a map from file names to locks.

This is what both servers are for: each file name in use has one entry, with the
number of its users and whether its lock is taken. A lookup that takes a
reference finds the entry or, when it may, makes one; a put drops a reference and
with the last one the entry. Threads name an entry by its file. Under clients
that unlock what they hold — or whose other unlocks find no entry — every entry
counts exactly its users, and at most one acquisition of a file is unreleased
(`Inv.holders_le_one`). -/
namespace CacheFs.Mutex
open Transition Registry Members

/-- What a table keeps of a lock. -/
structure Entry where
  count : Int
  locked : Bool
  deriving DecidableEq

/-- An entry after one put; the last one drops it. -/
def Entry.put (e : Entry) : Option Entry :=
  if e.count - 1 = 0 then none else some {e with count := e.count - 1}

abbrev Named := FileName → Option Entry

/-- The abstract server. Its allocator answers whether a lookup that finds no entry
may make one. -/
def named : Server Named FileName Empty Bool where
  peek := fun _ _ => none
  get := fun m f opType _ grant =>
    if acquires opType then
      match m f with
      | some e => some (some f, Function.update m f (some {e with count := e.count + 1}))
      | none => if grant then some (some f, Function.update m f (some ⟨1, false⟩)) else some (none, m)
    else if opType = mdUnlock then some ((m f).map fun _ => f, m)
    else some (if grant then some f else none, m)
  mutex := fun m f => (m f).map Entry.locked
  setMutex := fun m f taken => Function.update m f ((m f).map ({· with locked := taken}))
  put := fun m f => (m f).map fun e => Function.update m f e.put

/-- What a lookup by name does. -/
theorem named_get_cases {m m' : Named} {f : FileName} {opType : UInt8} {seen : Option Empty}
    {grant : Bool} {r : Option FileName} (h : named.get m f opType seen grant = some (r, m')) :
    (acquires opType = true ∧ ∃ e, m f = some e ∧ r = some f ∧
      m' = Function.update m f (some {e with count := e.count + 1})) ∨
    (acquires opType = true ∧ m f = none ∧ r = some f ∧ m' = Function.update m f (some ⟨1, false⟩)) ∨
    (acquires opType = true ∧ m f = none ∧ r = none ∧ m' = m) ∨
    (opType = mdUnlock ∧ r = (m f).map (fun _ => f) ∧ m' = m) ∨
    (acquires opType = false ∧ opType ≠ mdUnlock ∧ (r = some f ∨ r = none) ∧ m' = m) := by
  simp only [named] at h
  split at h
  · rename_i hop
    cases hm : m f with
    | some e =>
      simp only [hm, Option.some.injEq, Prod.mk.injEq] at h
      exact .inl ⟨hop, e, rfl, h.1.symm, h.2.symm⟩
    | none =>
      cases grant <;> simp [hm] at h
      · exact .inr (.inr (.inl ⟨hop, rfl, h.1.symm, h.2.symm⟩))
      · exact .inr (.inl ⟨hop, rfl, h.1.symm, h.2.symm⟩)
  · rename_i hop
    split at h
    · rename_i hunlock
      cases h
      exact .inr (.inr (.inr (.inl ⟨hunlock, rfl, rfl⟩)))
    · rename_i hunlock
      cases h
      refine .inr (.inr (.inr (.inr ⟨by simpa using hop, hunlock, ?_, rfl⟩)))
      cases grant <;> simp

/-- The thread is at its lookup: nothing is left to read before `glob_mutex`. -/
def Looking {S P L A : Type} (V : Server S P L A) (s : S) (th : Thread P L) (seen : Option L) : Prop :=
  th.pc = .get seen ∧ (seen = none → V.peek s th.arg.fileName = none)

/-- An `MD_UNLOCK` from a client that holds nothing. -/
def Thread.Stray {P L : Type} (th : Thread P L) : Prop :=
  th.arg.opType = mdUnlock ∧ th.holder = false

/-- The rule that a stray `MD_UNLOCK` finds no entry for its file. -/
def strayMisses {S P L A C : Type} (V : Server S P L A) (absent : S → FileName → Prop) :
    Rule (State S P L C) (Move A)
  | s, .step i _ => ∀ th seen, s.threads[i]? = some th → Looking V s.store th seen → th.Stray →
      absent s.store th.arg.fileName
  | _, _ => True

theorem unlock_of_acquires {opType : UInt8} (h : acquires opType = true) :
    (opType == mdUnlock) = false := by
  simp only [acquires, Bool.or_eq_true, beq_iff_eq] at h
  rcases h with rfl | rfl <;> decide

theorem not_acquires_unlock : acquires mdUnlock = false := by decide

theorem Thread.not_stray {P L : Type} {th : Thread P L} (h : acquires th.arg.opType = true) :
    ¬ th.Stray := by
  intro hs
  rw [hs.1, not_acquires_unlock] at h
  cases h

section Counting
variable {S P L C : Type} {K : Clients C} (Q : K.Lawful)

theorem Thread.uses_of_holds {f : FileName} {th : Thread P L} (h : th.holds f = true) :
    th.uses f = true := by
  unfold Thread.holds at h
  unfold Thread.uses
  cases hpc : th.pc <;> simp only [hpc, Bool.and_eq_true, Bool.or_eq_true] at h ⊢ <;> simp_all

/-- Each holder is a user. -/
theorem holders_le_users (s : State S P L C) (f : FileName) : holders Q s f ≤ users Q s f :=
  Nat.add_le_add_left (List.countP_mono_left fun _ _ h => Thread.uses_of_holds h) _

/-- A thread's step changes the users and holders of its own file only, by what it
is before and after. -/
theorem users_step {s : State S P L C} {i : Nat} {th : Thread P L} (hth : s.threads[i]? = some th)
    (pc : Pc P L) (store : S) (f : FileName) :
    users Q {s with store := store, threads := s.threads.set i {th with pc := pc}} f + (th.uses f).toNat =
      users Q s f + (Thread.uses f {th with pc := pc}).toNat := by
  have := countP_set_add (Thread.uses f) hth {th with pc := pc}
  simp only [users]
  omega

theorem holders_step {s : State S P L C} {i : Nat} {th : Thread P L} (hth : s.threads[i]? = some th)
    (pc : Pc P L) (store : S) (f : FileName) :
    holders Q {s with store := store, threads := s.threads.set i {th with pc := pc}} f + (th.holds f).toNat =
      holders Q s f + (Thread.holds f {th with pc := pc}).toNat := by
  have := countP_set_add (Thread.holds f) hth {th with pc := pc}
  simp only [holders]
  omega

theorem uses_other {f : FileName} {th : Thread P L} (h : f ≠ th.arg.fileName) (pc : Pc P L) :
    Thread.uses f {th with pc := pc} = false := by
  simp [Thread.uses, h.symm]

theorem holds_other {f : FileName} {th : Thread P L} (h : f ≠ th.arg.fileName) (pc : Pc P L) :
    Thread.holds f {th with pc := pc} = false := by
  simp [Thread.holds, h.symm]

/-- A file with a thread that uses it has users. -/
theorem users_pos {s : State S P L C} {th : Thread P L} (hth : th ∈ s.threads) {f : FileName}
    (h : th.uses f = true) : 0 < users Q s f :=
  Nat.add_pos_right _ (List.countP_pos_iff.mpr ⟨th, hth, h⟩)

/-- A user that does not hold makes the users more than the holders. -/
theorem holders_lt_users {s : State S P L C} {i : Nat} {th : Thread P L} (hth : s.threads[i]? = some th)
    {f : FileName} (huses : th.uses f = true) (hholds : th.holds f = false) :
    holders Q s f < users Q s f := by
  have hu := users_step Q hth .exited s.store f
  have hk := holders_step Q hth .exited s.store f
  have hle := holders_le_users Q
    {s with store := s.store, threads := s.threads.set i {th with pc := .exited}} f
  have hu0 : Thread.uses f ({th with pc := .exited} : Thread P L) = false := by simp [Thread.uses]
  have hk0 : Thread.holds f ({th with pc := .exited} : Thread P L) = false := by simp [Thread.holds]
  simp only [huses, hholds, hu0, hk0, Bool.toNat_false, Bool.toNat_true, Nat.add_zero] at hu hk
  omega

end Counting

/-! ### The invariant -/

section Invariant
variable {C : Type} {K : Clients C} (Q : K.Lawful)

/-- An entry counts its users and is locked exactly while there is a holder; a file
without an entry has no user. -/
def EntryInv : Option Entry → Nat → Nat → Prop
  | none, users, _ => users = 0
  | some e, users, holders =>
    e.count = users ∧ 0 < users ∧ holders ≤ 1 ∧ e.locked = decide (holders = 1)

/-- A thread past its lookup names its own file, and only one that has or had a
reference puts one back. -/
def Thread.Ok (th : Thread FileName Empty) : Prop :=
  match th.pc with
  | .get _ | .reply _ | .exited => True
  | .call m => m = th.arg.fileName ∧ ¬ th.Stray
  | .put m res => m = th.arg.fileName ∧
      (acquires th.arg.opType = true ∧ res.isOk = false ∨ th.arg.opType = mdUnlock)

structure Inv (s : State Named FileName Empty C) : Prop where
  clients : Q.Fits s.clients (pending s.threads)
  threads : ∀ th ∈ s.threads, th.Ok
  entries : ∀ f, EntryInv (s.store f) (users Q s f) (holders Q s f)

/-- A reachable entry's lock has at most one holder. -/
theorem Inv.holders_le_one {s : State Named FileName Empty C} (h : Inv Q s) (f : FileName) :
    holders Q s f ≤ 1 := by
  have he := h.entries f
  cases hs : s.store f with
  | none =>
    rw [hs] at he
    have := holders_le_users Q s f
    simp only [EntryInv] at he
    omega
  | some e =>
    rw [hs] at he
    exact he.2.2.1

/-- A user has its entry. -/
theorem Inv.entry_of_users {s : State Named FileName Empty C} (h : Inv Q s) {f : FileName}
    (hu : 0 < users Q s f) : ∃ e, s.store f = some e := by
  have he := h.entries f
  cases hs : s.store f with
  | none =>
    rw [hs] at he
    simp only [EntryInv] at he
    omega
  | some e => exact ⟨e, rfl⟩

theorem pending_set {P L : Type} {threads : List (Thread P L)} {i : Nat} {th : Thread P L}
    (hth : threads[i]? = some th) {pc : Pc P L} (hold : th.pc ≠ .exited) (hnew : pc ≠ .exited) :
    pending (threads.set i {th with pc := pc}) = pending threads := by
  apply List.ext_getElem?
  intro j
  simp only [pending, List.getElem?_map, List.getElem?_set]
  split
  · rename_i hij
    subst hij
    obtain ⟨hi, -⟩ := List.getElem?_eq_some_iff.mp hth
    simp only [hi, if_true, hth, Option.map_some]
  · rfl

/-- A step of a thread keeps the invariant when it changes the entry of its own file
only, and that entry goes on counting its users. -/
theorem Inv.step {s : State Named FileName Empty C} (h : Inv Q s) {i : Nat}
    {th : Thread FileName Empty} (hth : s.threads[i]? = some th) {pc : Pc FileName Empty}
    {m : Named} (hold : th.pc ≠ .exited) (hnew : pc ≠ .exited) (hok : Thread.Ok {th with pc := pc})
    (hother : ∀ f, f ≠ th.arg.fileName → m f = s.store f)
    (hentry : ∀ u k, u + (th.uses th.arg.fileName).toNat =
        users Q s th.arg.fileName + (Thread.uses th.arg.fileName {th with pc := pc}).toNat →
      k + (th.holds th.arg.fileName).toNat =
        holders Q s th.arg.fileName + (Thread.holds th.arg.fileName {th with pc := pc}).toNat →
      EntryInv (m th.arg.fileName) u k) :
    Inv Q {s with store := m, threads := s.threads.set i {th with pc := pc}} := by
  refine ⟨?_, fun t ht => ?_, fun f => ?_⟩
  · rw [pending_set hth hold hnew]
    exact h.clients
  · obtain ht | rfl := List.mem_or_eq_of_mem_set ht
    · exact h.threads t ht
    · exact hok
  · have hu := users_step Q hth pc m f
    have hk := holders_step Q hth pc m f
    by_cases hf : f = th.arg.fileName
    · subst hf
      exact hentry _ _ hu hk
    · have huses : th.uses f = false := uses_other hf th.pc
      have hholds : th.holds f = false := holds_other hf th.pc
      rw [huses, uses_other hf, Nat.add_right_cancel_iff] at hu
      rw [hholds, holds_other hf, Nat.add_right_cancel_iff] at hk
      rw [hu, hk]
      show EntryInv (m f) _ _
      rw [hother f hf]
      exact h.entries f

/-- A lookup that is refused is that of a thread that neither uses nor holds anything. -/
theorem Inv.lookup_refused {s : State Named FileName Empty C} (h : Inv Q s) {i : Nat}
    {th : Thread FileName Empty} (hth : s.threads[i]? = some th) (hpc : th.pc = .get none) {grant : Bool}
    {m : Named} (hget : named.get s.store th.arg.fileName th.arg.opType none grant = some (none, m)) :
    Inv Q {s with store := m, threads := s.threads.set i {th with pc := .reply (.notOk .allocMutexFail)}} := by
  have hmem := List.mem_of_getElem? hth
  have hfree : (th.arg.opType == mdUnlock && th.holder) = false ∧ m = s.store := by
    rcases named_get_cases hget with ⟨_, _, _, hr, _⟩ | ⟨_, _, hr, _⟩ | ⟨hop, _, _, hm⟩ |
      ⟨hop, hr, hm⟩ | ⟨_, hop, _, hm⟩
    · cases hr
    · cases hr
    · exact ⟨by rw [unlock_of_acquires hop, Bool.false_and], hm⟩
    · refine ⟨?_, hm⟩
      by_contra hhold
      have huses : th.uses th.arg.fileName = true := by
        simp only [Thread.uses, hpc, beq_self_eq_true, Bool.true_and]
        simpa using hhold
      obtain ⟨e, he⟩ := h.entry_of_users Q (users_pos Q hmem huses)
      rw [he] at hr
      cases hr
    · exact ⟨by simp [hop], hm⟩
  refine h.step Q hth (by simp [hpc]) (by simp) trivial (fun f _ => by rw [hfree.2]) (fun u k hu hk => ?_)
  simp only [Thread.uses, Thread.holds, hpc, hfree.1, ResPacket.isOk_notOk, Bool.and_false,
    Bool.toNat_false, Nat.add_zero] at hu hk
  rw [hfree.2, hu, hk]
  exact h.entries th.arg.fileName

/-- The file's own entry after a lookup counts the reference it took. -/
theorem Inv.lookup {s : State Named FileName Empty C} (h : Inv Q s) {i : Nat}
    {th : Thread FileName Empty} (hth : s.threads[i]? = some th) (hpc : th.pc = .get none)
    (hstray : th.Stray → s.store th.arg.fileName = none) {grant : Bool} {pc : Pc FileName Empty}
    {m : Named} (hlook : named.lookup th.arg none grant s.store = some (pc, m)) :
    Inv Q {s with store := m, threads := s.threads.set i {th with pc := pc}} := by
  have hentry := h.entries th.arg.fileName
  have hle := holders_le_users Q s th.arg.fileName
  have hne : th.pc ≠ .exited := by simp [hpc]
  obtain ⟨r, hget, rfl⟩ := Server.lookup_eq_some.mp hlook
  obtain _ | f := r
  · rw [afterGet_none]
    exact h.lookup_refused Q hth hpc hget
  · rw [afterGet_some]
    rcases named_get_cases hget with ⟨hop, e, he, hf, rfl⟩ | ⟨hop, he, hf, rfl⟩ | ⟨_, _, hr, _⟩ |
      ⟨hop, hr, rfl⟩ | ⟨hop, hunlock, hr, rfl⟩
    · -- found: one more user
      cases hf
      refine h.step Q hth hne (by simp) ⟨rfl, Thread.not_stray hop⟩
        (fun g hg => Function.update_of_ne hg _ _) (fun u k hu hk => ?_)
      simp only [Thread.uses, Thread.holds, hpc, hop, unlock_of_acquires hop, beq_self_eq_true,
        Bool.false_and, Bool.or_false, Bool.and_true, Bool.and_false, Bool.toNat_false,
        Bool.toNat_true, Nat.add_zero] at hu hk
      rw [he] at hentry
      obtain ⟨hcount, hpos, hone, hlocked⟩ := hentry
      rw [Function.update_self, hu, hk]
      exact ⟨by simp only [hcount]; omega, by omega, hone, hlocked⟩
    · -- made: the first user, and a free lock
      cases hf
      refine h.step Q hth hne (by simp) ⟨rfl, Thread.not_stray hop⟩
        (fun g hg => Function.update_of_ne hg _ _) (fun u k hu hk => ?_)
      simp only [Thread.uses, Thread.holds, hpc, hop, unlock_of_acquires hop, beq_self_eq_true,
        Bool.false_and, Bool.or_false, Bool.and_true, Bool.and_false, Bool.toNat_false,
        Bool.toNat_true, Nat.add_zero] at hu hk
      rw [he] at hentry
      simp only [EntryInv] at hentry
      have hk0 : k = 0 := by omega
      have hu1 : u = 1 := by omega
      rw [Function.update_self, hu1, hk0]
      exact ⟨rfl, by omega, by omega, rfl⟩
    · cases hr
    · -- an unlock that finds its entry is no stray one
      obtain ⟨e, he, hf⟩ := Option.map_eq_some_iff.mp hr.symm
      have hns : ¬ th.Stray := fun hs => by simp [hstray hs] at he
      refine h.step Q hth hne (by simp) ⟨hf.symm, hns⟩ (fun _ _ => rfl) (fun u k hu hk => ?_)
      simp only [Thread.uses, Thread.holds, hpc, hop, not_acquires_unlock, Bool.false_or,
        Nat.add_right_cancel_iff] at hu hk
      rw [hu, hk]
      exact hentry
    · have hf : f = th.arg.fileName := by
        obtain hr | hr := hr
        · exact Option.some.inj hr
        · cases hr
      refine h.step Q hth hne (by simp) ⟨hf, fun hs => hunlock hs.1⟩ (fun _ _ => rfl)
        (fun u k hu hk => ?_)
      have hu' : (th.arg.opType == mdUnlock) = false := by simpa using hunlock
      simp only [Thread.uses, Thread.holds, hpc, hop, hu', Bool.false_and, Bool.or_false, Bool.and_false,
        Bool.toNat_false, Nat.add_zero] at hu hk
      rw [hu, hk]
      exact hentry

/-- Taking, refusing and freeing a lock keep the flag in step with its holder. -/
theorem Inv.call {s : State Named FileName Empty C} (h : Inv Q s) {i : Nat}
    {th : Thread FileName Empty} (hth : s.threads[i]? = some th) {f : FileName} (hpc : th.pc = .call f)
    {pc : Pc FileName Empty} {m : Named} (hcall : named.call flagMutex th.arg f s.store = some (pc, m)) :
    Inv Q {s with store := m, threads := s.threads.set i {th with pc := pc}} := by
  have hentry := h.entries th.arg.fileName
  have hmem := List.mem_of_getElem? hth
  have hne : th.pc ≠ .exited := by simp [hpc]
  have hok := h.threads th hmem
  simp only [Thread.Ok, hpc] at hok
  obtain ⟨rfl, hstray⟩ := hok
  have flag {e : Entry} {taken : Bool} (he : s.store th.arg.fileName = some e) :
      (named.setMutex s.store th.arg.fileName taken) th.arg.fileName = some {e with locked := taken} := by
    simp [named, he]
  have other {taken : Bool} (g : FileName) (hg : g ≠ th.arg.fileName) :
      (named.setMutex s.store th.arg.fileName taken) g = s.store g := Function.update_of_ne hg _ _
  rcases Server.call_cases hcall with ⟨hop, htaken, rfl, rfl⟩ | ⟨hop, htaken, rfl, rfl⟩ |
    ⟨hop, ⟨_, htaken⟩, rfl, rfl⟩ | ⟨hop, hunlock, rfl, rfl⟩
  · -- a free lock is taken: its first holder
    obtain ⟨e, he, hfree⟩ := Option.map_eq_some_iff.mp htaken
    refine h.step Q hth hne (by simp) trivial other (fun u k hu hk => ?_)
    simp only [Thread.uses, Thread.holds, hpc, hop, unlock_of_acquires hop, ResPacket.isOk_ok,
      beq_self_eq_true, Bool.false_and, Bool.true_or, Bool.and_true, Bool.and_false, Bool.toNat_false,
      Bool.toNat_true, Nat.add_zero] at hu hk
    rw [he] at hentry
    obtain ⟨hcount, hpos, hone, hlocked⟩ := hentry
    have hnone : holders Q s th.arg.fileName ≠ 1 := by simpa [hfree] using hlocked
    rw [flag he]
    exact ⟨by simp only [hcount]; omega, by omega, by omega, by simp only [hk]; simp; omega⟩
  · -- a try that fails: still a user, not a holder
    obtain ⟨e, he, hlock⟩ := Option.map_eq_some_iff.mp htaken
    refine h.step Q hth hne (by simp) ⟨rfl, .inl ⟨hop, rfl⟩⟩ other (fun u k hu hk => ?_)
    simp only [Thread.uses, Thread.holds, hpc, hop, unlock_of_acquires hop, beq_self_eq_true,
      Bool.false_and, Bool.true_or, Bool.and_true, Bool.and_false, Bool.toNat_false, Bool.toNat_true,
      Nat.add_zero, Nat.add_right_cancel_iff] at hu hk
    rw [he] at hentry
    rw [flag he, hu, hk, ← hlock]
    exact hentry
  · -- the holder frees the lock
    have hholder : th.holder = true := by
      by_contra hb
      exact hstray ⟨hop, by simpa using hb⟩
    obtain ⟨e, he, -⟩ := Option.map_eq_some_iff.mp htaken
    refine h.step Q hth hne (by simp) ⟨rfl, .inr hop⟩ other (fun u k hu hk => ?_)
    simp only [Thread.uses, Thread.holds, hpc, hop, not_acquires_unlock, hholder, beq_self_eq_true,
      Bool.false_or, Bool.and_self, Bool.and_false, Bool.toNat_false, Bool.toNat_true, Nat.add_zero,
      Nat.add_right_cancel_iff] at hu hk
    rw [he] at hentry
    obtain ⟨hcount, hpos, hone, -⟩ := hentry
    have hk0 : k = 0 := by omega
    rw [flag he, hu, hk0]
    exact ⟨hcount, hpos, by omega, rfl⟩
  · refine h.step Q hth hne (by simp) trivial (fun _ _ => rfl) (fun u k hu hk => ?_)
    have hu' : (th.arg.opType == mdUnlock) = false := by simpa using hunlock
    simp only [Thread.uses, Thread.holds, hpc, hop, hu', Bool.false_and, Bool.or_false,
      Bool.and_false, Bool.toNat_false, Nat.add_zero] at hu hk
    rw [hu, hk]
    exact hentry

/-- A put drops the thread's own reference, and with the last one the entry. -/
theorem Inv.put {s : State Named FileName Empty C} (h : Inv Q s) {i : Nat}
    {th : Thread FileName Empty} (hth : s.threads[i]? = some th) {f : FileName} {res : ResPacket}
    (hpc : th.pc = .put f res) {m : Named} (hput : named.put s.store f = some m) :
    Inv Q {s with store := m, threads := s.threads.set i {th with pc := .reply res}} := by
  have hentry := h.entries th.arg.fileName
  have hmem := List.mem_of_getElem? hth
  have hok := h.threads th hmem
  simp only [Thread.Ok, hpc] at hok
  obtain ⟨rfl, hres⟩ := hok
  obtain ⟨e, he, rfl⟩ := Option.map_eq_some_iff.mp hput
  refine h.step Q hth (by simp [hpc]) (by simp) trivial (fun g hg => Function.update_of_ne hg _ _)
    (fun u k hu hk => ?_)
  have hgrant : (acquires th.arg.opType && res.isOk) = false := by
    obtain ⟨_, hnot⟩ | hop := hres
    · rw [hnot, Bool.and_false]
    · rw [hop, not_acquires_unlock, Bool.false_and]
  have hlt : holders Q s th.arg.fileName < users Q s th.arg.fileName :=
    holders_lt_users Q hth (by simp [Thread.uses, hpc]) (by simp [Thread.holds, hpc])
  simp only [Thread.uses, Thread.holds, hpc, hgrant, beq_self_eq_true, Bool.and_self, Bool.and_false,
    Bool.toNat_false, Bool.toNat_true, Nat.add_zero] at hu hk
  rw [he] at hentry
  obtain ⟨hcount, hpos, hone, hlocked⟩ := hentry
  rw [Function.update_self, Entry.put]
  split
  · show u = 0
    omega
  · exact ⟨by simp only [hcount]; omega, by omega, by omega, by rw [hk]; exact hlocked⟩

/-- The last put is of a free lock. -/
theorem Inv.free_of_last_put {s : State Named FileName Empty C} (h : Inv Q s) {i : Nat}
    {th : Thread FileName Empty} (hth : s.threads[i]? = some th) {f : FileName} {res : ResPacket}
    (hpc : th.pc = .put f res) {e : Entry} (he : s.store th.arg.fileName = some e)
    (hlast : e.put = none) : e.locked = false := by
  have hentry := h.entries th.arg.fileName
  have hlt : holders Q s th.arg.fileName < users Q s th.arg.fileName :=
    holders_lt_users Q hth (by simp [Thread.uses, hpc]) (by simp [Thread.holds, hpc])
  rw [he] at hentry
  obtain ⟨hcount, -, -, hlocked⟩ := hentry
  have hone : e.count - 1 = 0 := by
    by_contra hne
    simp [Entry.put, hne] at hlast
  rw [hlocked, decide_eq_false_iff_not]
  omega

/-- A new request brings no user: what gives a lock back was counted with its client. -/
theorem Inv.accept {s : State Named FileName Empty C} (h : Inv Q s) {arg : ThreadArg} {clients : C}
    {holder : Bool} (hsend : K.send s.clients arg = some (clients, holder)) :
    Inv Q {s with threads := s.threads ++ [⟨arg, holder, .get none⟩], clients := clients} := by
  refine ⟨?_, fun t ht => ?_, fun f => ?_⟩
  · have hfits := Q.send_fits h.clients hsend
    simpa [pending] using hfits
  · obtain ht | ht := List.mem_append.mp ht
    · exact h.threads t ht
    · rw [List.mem_singleton.mp ht]
      trivial
  · have hacq := Q.send_acquired h.clients hsend f
    have hu : users Q {s with threads := s.threads ++ [⟨arg, holder, .get none⟩], clients := clients} f =
        users Q s f := by
      simp only [users, countP_append_one, Thread.uses]
      omega
    have hk : holders Q {s with threads := s.threads ++ [⟨arg, holder, .get none⟩], clients := clients} f =
        holders Q s f := by
      simp only [holders, countP_append_one, Thread.holds]
      omega
    rw [hu, hk]
    exact h.entries f

/-- A reply hands a grant over to its client. -/
theorem Inv.reply {s : State Named FileName Empty C} (h : Inv Q s) {i : Nat} {arg : ThreadArg}
    {holder : Bool} {res : ResPacket} (hth : s.threads[i]? = some ⟨arg, holder, .reply res⟩) :
    Inv Q {s with
      threads := s.threads.set i ⟨arg, holder, .exited⟩
      clients := K.receive s.clients arg res} := by
  have hpending : (pending s.threads)[i]? = some (some arg) := by
    simp [pending, hth]
  refine ⟨?_, fun t ht => ?_, fun f => ?_⟩
  · have hfits := Q.receive_fits res h.clients hpending
    simpa [pending, List.map_set] using hfits
  · obtain ht | rfl := List.mem_or_eq_of_mem_set ht
    · exact h.threads t ht
    · trivial
  · have hacq := Q.receive_acquired res h.clients hpending f
    have hcu := countP_set_add (Thread.uses f) hth ⟨arg, holder, .exited⟩
    have hck := countP_set_add (Thread.holds f) hth ⟨arg, holder, .exited⟩
    simp only [Thread.uses, Thread.holds, Bool.and_false, Bool.toNat_false, Nat.add_zero] at hcu hck
    have hu : users Q {s with
        threads := s.threads.set i ⟨arg, holder, .exited⟩
        clients := K.receive s.clients arg res} f = users Q s f := by
      simp only [users]
      omega
    have hk : holders Q {s with
        threads := s.threads.set i ⟨arg, holder, .exited⟩
        clients := K.receive s.clients arg res} f = holders Q s f := by
      simp only [holders]
      omega
    rw [hu, hk]
    exact h.entries f

/-- The invariant survives every move of a run whose stray unlocks find no entry. -/
theorem Inv.preserved {s s' : State Named FileName Empty C} (h : Inv Q s) {mv : Move Bool}
    (hrule : strayMisses named (fun m f => m f = none) s mv) (hnext : next named K s mv = some s') :
    Inv Q s' := by
  cases mv with
  | accept arg =>
    obtain ⟨clients, holder, hsend, rfl⟩ := next_accept hnext
    exact h.accept Q hsend
  | step i grant =>
    obtain ⟨th, pc, m, hth, hfunc, rfl⟩ := next_step hnext
    rcases Server.threadFunc_cases hfunc with ⟨_, _, hpeek, _⟩ | ⟨seen, hpc, hpeek, hlook⟩ |
      ⟨f, hpc, hcall⟩ | ⟨f, res, hpc, hput, rfl⟩
    · cases hpeek
    · cases seen with
      | none => exact h.lookup Q hth hpc (hrule th none hth ⟨hpc, hpeek⟩) hlook
      | some l => cases l
    · exact h.call Q hth hpc hcall
    · exact h.put Q hth hpc hput
  | reply i =>
    obtain ⟨arg, holder, res, hth, rfl⟩ := next_reply hnext
    exact h.reply Q hth

/-- Clients that have been granted nothing. -/
def Fresh (c : C) : Prop := Q.Fits c [] ∧ ∀ f, Q.acquired c f = 0

/-- The machine of the abstract server. -/
abbrev namedMachine : Machine (State Named FileName Empty C) (Move Bool) :=
  machine named K (fun _ => none) (Fresh Q)

/-- In every run whose stray unlocks find no entry, entries count their users and
locks have at most one holder. -/
theorem named_inv {s : State Named FileName Empty C}
    (h : Reach (namedMachine Q) (strayMisses named fun m f => m f = none) s) : Inv Q s := by
  refine h.invariant ?_ (fun s mv s' hinv hrule hnext => hinv.preserved Q hrule hnext)
  intro s h
  obtain ⟨hstore, hthreads, hfits, hacq⟩ := h
  refine ⟨by rw [hthreads]; exact hfits, by simp [hthreads], fun f => ?_⟩
  rw [hstore]
  show users Q s f = 0
  simp [users, hthreads, hacq]

end Invariant

end CacheFs.Mutex
