import CacheFs.Mutex.Named

/-! A table of locks refines the map of locks by name.

What a table owes (`Server.Lawful`) is said once: which cells are in use and for
what file, and what each of its functions does to them. From that, every run of
threads on the table is a run on the map (`refines`), step for step: the pointers
threads keep are to entries of their own files, none is dropped while a thread
still uses it, and so whatever holds of the map's runs holds of the table's. A
lookup that has read something before `glob_mutex` is asked to be `Current` when
it goes on; one that reads nothing is always so. -/
namespace CacheFs.Mutex
open Transition Registry Members

variable {S P L A C : Type}

/-! ### Threads that name their entry -/

/-- The same place in `thread_func`, with the entry named by its file. -/
def Pc.named (f : FileName) : Pc P L → Pc FileName Empty
  | .get _ => .get none
  | .call _ => .call f
  | .put _ res => .put f res
  | .reply res => .reply res
  | .exited => .exited

def Thread.named (th : Thread P L) : Thread FileName Empty :=
  ⟨th.arg, th.holder, th.pc.named th.arg.fileName⟩

theorem Thread.uses_named (f : FileName) (th : Thread P L) : th.named.uses f = th.uses f := by
  cases hpc : th.pc <;> simp [Thread.named, Thread.uses, Pc.named, hpc]

theorem Thread.holds_named (f : FileName) (th : Thread P L) : th.named.holds f = th.holds f := by
  cases hpc : th.pc <;> simp [Thread.named, Thread.holds, Pc.named, hpc]

/-- The thread keeps this pointer and may still follow it. -/
def Thread.At (th : Thread P L) (p : P) : Prop :=
  (th.pc = .call p ∨ ∃ res, th.pc = .put p res) ∧
    (acquires th.arg.opType = true ∨ th.arg.opType = mdUnlock)

/-- A thread that is not past its lookup, or is past its put, keeps no pointer. -/
theorem Thread.not_at {th : Thread P L} {p : P} (hcall : ∀ m, th.pc ≠ .call m)
    (hput : ∀ m res, th.pc ≠ .put m res) : ¬ th.At p := by
  intro h
  obtain ⟨hpc | ⟨res, hpc⟩, _⟩ := h
  · exact hcall _ hpc
  · exact hput _ _ hpc

/-- A thread that may follow a pointer has a reference to the entry. -/
theorem Thread.At.uses {th : Thread P L} {p : P} (hat : th.At p) (hok : th.named.Ok) :
    th.uses th.arg.fileName = true := by
  obtain ⟨hpc | ⟨res, hpc⟩, hop⟩ := hat
  · have hstray : ¬ th.named.Stray := by
      simp only [Thread.named, Thread.Ok, Pc.named, hpc] at hok
      exact hok.2
    obtain hop | hop := hop
    · simp [Thread.uses, hpc, hop]
    · have hholder : th.holder = true := by
        by_contra hb
        exact hstray ⟨hop, by simpa [Thread.named] using hb⟩
      simp [Thread.uses, hpc, hop, hholder]
  · simp [Thread.uses, hpc]

/-! ### What a table owes -/

section
variable [DecidableEq P]

/-- What a lookup of `f` may do to the cells, by what it gives back. -/
inductive Looked (view view' : P → Option (FileName × Entry)) (f : FileName) (opType : UInt8) :
    Option P → Prop where
  | found {p e} : acquires opType = true → view p = some (f, e) →
      view' = Function.update view p (some (f, {e with count := e.count + 1})) → Looked view view' f opType (some p)
  | made {p} : acquires opType = true → Absent view f → view p = none →
      view' = Function.update view p (some (f, ⟨1, false⟩)) → Looked view view' f opType (some p)
  | refused : acquires opType = true → Absent view f → view' = view → Looked view view' f opType none
  | unlock {p e} : opType = mdUnlock → view p = some (f, e) → view' = view → Looked view view' f opType (some p)
  | missing : opType = mdUnlock → Absent view f → view' = view → Looked view view' f opType none
  | other {r} : acquires opType = false → opType ≠ mdUnlock → view' = view → Looked view view' f opType r

/-- What a table owes. -/
structure Server.Lawful (V : Server S P L A) where
  Inv : S → Prop
  /-- The cells in use: the file and the lock. -/
  view : S → P → Option (FileName × Entry)
  /-- What was read before `glob_mutex` still serves a lookup of the file. -/
  Current : S → FileName → L → Prop
  get_inv : ∀ {s s' f opType seen a r}, Inv s → (∀ l, seen = some l → Current s f l) →
    V.get s f opType seen a = some (r, s') → Inv s'
  get_looked : ∀ {s s' f opType seen a r}, Inv s → (∀ l, seen = some l → Current s f l) →
    V.get s f opType seen a = some (r, s') → Looked (view s) (view s') f opType r
  mutex_eq : ∀ {s p f e}, Inv s → view s p = some (f, e) → V.mutex s p = some e.locked
  setMutex_inv : ∀ {s p f e taken}, Inv s → view s p = some (f, e) → Inv (V.setMutex s p taken)
  setMutex_view : ∀ {s p f e taken}, Inv s → view s p = some (f, e) →
    view (V.setMutex s p taken) = Function.update (view s) p (some (f, {e with locked := taken}))
  /-- The last put is of a free lock. -/
  put_inv : ∀ {s s' p f e}, Inv s → view s p = some (f, e) → (e.put = none → e.locked = false) →
    V.put s p = some s' → Inv s'
  put_view : ∀ {s s' p f e}, Inv s → view s p = some (f, e) → V.put s p = some s' →
    view s' = Function.update (view s) p (e.put.map fun e' => (f, e'))

/-! ### The relation -/

structure Rel {V : Server S P L A} (W : V.Lawful) (s : State S P L C)
    (t : State Named FileName Empty C) : Prop where
  clients : t.clients = s.clients
  threads : t.threads = s.threads.map Thread.named
  store : Represents (W.view s.store) t.store
  inv : W.Inv s.store
  pointers : ∀ th ∈ s.threads, ∀ p, th.At p → ∃ e, W.view s.store p = some (th.arg.fileName, e)

/-- A lookup goes on from what is still current, and a stray unlock finds no entry. -/
def Sound {V : Server S P L A} (W : V.Lawful) : Rule (State S P L C) (Move A)
  | s, .step i _ => ∀ th seen, s.threads[i]? = some th → Looking V s.store th seen →
      (∀ l, seen = some l → W.Current s.store th.arg.fileName l) ∧
      (th.Stray → Absent (W.view s.store) th.arg.fileName)
  | _, _ => True

section Rel
variable {V : Server S P L A} {W : V.Lawful} {K : Clients C}

theorem Rel.users {s : State S P L C} {t : State Named FileName Empty C} (h : Rel W s t) (Q : K.Lawful)
    (f : FileName) : users Q t f = users Q s f := by
  simp only [Mutex.users, h.clients, h.threads, List.countP_map]
  congr 1
  exact List.countP_congr fun th _ => by simp only [Function.comp_apply, Thread.uses_named]

theorem Rel.holders {s : State S P L C} {t : State Named FileName Empty C} (h : Rel W s t)
    (Q : K.Lawful) (f : FileName) : holders Q t f = holders Q s f := by
  simp only [Mutex.holders, h.clients, h.threads, List.countP_map]
  congr 1
  exact List.countP_congr fun th _ => by simp only [Function.comp_apply, Thread.holds_named]

/-- A step of one thread keeps the relation when the new store represents the new
map, and the pointers of the others and its own are still to entries of their files. -/
theorem Rel.step {s : State S P L C} {t : State Named FileName Empty C} (h : Rel W s t) {i : Nat}
    {th : Thread P L} {pc : Pc P L} {store : S} {m : Named}
    (hstore : Represents (W.view store) m) (hinv : W.Inv store)
    (hkeep : ∀ j th', j ≠ i → s.threads[j]? = some th' → ∀ p, th'.At p → ∀ e,
      W.view s.store p = some (th'.arg.fileName, e) → ∃ e', W.view store p = some (th'.arg.fileName, e'))
    (hown : ∀ p, Thread.At {th with pc := pc} p → ∃ e, W.view store p = some (th.arg.fileName, e)) :
    Rel W {s with store := store, threads := s.threads.set i {th with pc := pc}}
      {t with
        store := m
        threads := t.threads.set i {th.named with pc := pc.named th.arg.fileName}} := by
  refine ⟨h.clients, ?_, hstore, hinv, fun th' hth' p hp => ?_⟩
  · simp only [h.threads, List.map_set]
    rfl
  · obtain ⟨j, hj⟩ := List.getElem?_of_mem hth'
    obtain ⟨rfl, rfl⟩ | ⟨hne, hj⟩ := getElem?_set_cases hj
    · exact hown p hp
    · obtain ⟨e, he⟩ := h.pointers th' (List.mem_of_getElem? hj) p hp
      exact hkeep j th' (Ne.symm hne) hj p hp e he

/-- A lookup in the table is a lookup in the map. -/
theorem Rel.lookup {s : State S P L C} {t : State Named FileName Empty C} (h : Rel W s t) {i : Nat}
    {th : Thread P L} {seen : Option L} {a : A} {pc : Pc P L} {store : S}
    (hcurrent : ∀ l, seen = some l → W.Current s.store th.arg.fileName l)
    (hlook : V.lookup th.arg seen a s.store = some (pc, store)) :
    ∃ grant m, named.lookup th.arg none grant t.store = some (pc.named th.arg.fileName, m) ∧
      Rel W {s with store := store, threads := s.threads.set i {th with pc := pc}}
        {t with
          store := m
          threads := t.threads.set i {th.named with pc := pc.named th.arg.fileName}} := by
  obtain ⟨r, hget, hr⟩ := Server.lookup_eq_some.mp hlook
  have hinv := W.get_inv h.inv hcurrent hget
  have hlooked := W.get_looked h.inv hcurrent hget
  cases hlooked with
  | @found p e hop hp hview =>
    subst hr
    refine ⟨true, _, ?_, h.step (m := Function.update t.store th.arg.fileName
      (some {e with count := e.count + 1})) ?_ hinv (fun j th' _ _ q hq x hx => ?_) (fun q hq => ?_)⟩
    · simp [Server.lookup, named, hop, h.store.sound hp, Pc.named]
    · rw [hview]
      exact h.store.alter hp _
    · rw [hview]
      exact Represents.name_kept hp hx
    · rcases hq.1 with hpc | ⟨_, hpc⟩ <;> cases hpc
      exact ⟨_, by rw [hview, Function.update_self]⟩
  | @made p hop habsent hp hview =>
    subst hr
    refine ⟨true, _, ?_, h.step (m := Function.update t.store th.arg.fileName (some ⟨1, false⟩)) ?_ hinv
      (fun j th' _ _ q hq x hx => ⟨x, ?_⟩) (fun q hq => ?_)⟩
    · simp [Server.lookup, named, hop, (h.store.absent_iff _).mp habsent, Pc.named]
    · rw [hview]
      exact h.store.fill hp ((h.store.absent_iff _).mp habsent) _
    · rw [hview]
      exact Represents.fill_kept hp hx
    · rcases hq.1 with hpc | ⟨_, hpc⟩ <;> cases hpc
      exact ⟨_, by rw [hview, Function.update_self]⟩
  | refused hop habsent hview =>
    subst hr
    refine ⟨false, t.store, ?_, h.step ?_ hinv (fun j th' _ _ q hq x hx => ⟨x, by rw [hview, hx]⟩)
      (fun q hq => absurd hq (Thread.not_at (by simp) (by simp)))⟩
    · simp [Server.lookup, named, hop, (h.store.absent_iff _).mp habsent, Pc.named]
    · rw [hview]
      exact h.store
  | @unlock p e hop hp hview =>
    subst hr
    refine ⟨false, t.store, ?_, h.step ?_ hinv (fun j th' _ _ q hq x hx => ⟨x, by rw [hview, hx]⟩)
      (fun q hq => ?_)⟩
    · simp [Server.lookup, named, hop, not_acquires_unlock, h.store.sound hp, Pc.named]
    · rw [hview]
      exact h.store
    · rcases hq.1 with hpc | ⟨_, hpc⟩ <;> cases hpc
      exact ⟨e, by rw [hview, hp]⟩
  | missing hop habsent hview =>
    subst hr
    refine ⟨false, t.store, ?_, h.step ?_ hinv (fun j th' _ _ q hq x hx => ⟨x, by rw [hview, hx]⟩)
      (fun q hq => absurd hq (Thread.not_at (by simp) (by simp)))⟩
    · simp [Server.lookup, named, hop, not_acquires_unlock, (h.store.absent_iff _).mp habsent, Pc.named]
    · rw [hview]
      exact h.store
  | other hop hunlock hview =>
    refine ⟨r.isSome, t.store, ?_, h.step ?_ hinv (fun j th' _ _ q hq x hx => ⟨x, by rw [hview, hx]⟩)
      (fun q hq => ?_)⟩
    · subst hr
      cases r <;> simp [Server.lookup, named, hop, hunlock, Pc.named]
    · rw [hview]
      exact h.store
    · obtain hacq | hun := hq.2
      · exact absurd (hop.symm.trans hacq) (by decide)
      · exact absurd hun hunlock

/-- The pthread call on a table's mutex is the call on the map's. -/
theorem Rel.call {s : State S P L C} {t : State Named FileName Empty C} (h : Rel W s t) {i : Nat}
    {th : Thread P L} (hth : s.threads[i]? = some th) {p : P} (hpc : th.pc = .call p) {pc : Pc P L}
    {store : S} (hcall : V.call flagMutex th.arg p s.store = some (pc, store)) :
    ∃ m, named.call flagMutex th.arg th.arg.fileName t.store = some (pc.named th.arg.fileName, m) ∧
      Rel W {s with store := store, threads := s.threads.set i {th with pc := pc}}
        {t with
          store := m
          threads := t.threads.set i {th.named with pc := pc.named th.arg.fileName}} := by
  have own (hop : acquires th.arg.opType = true ∨ th.arg.opType = mdUnlock) :
      ∃ e, W.view s.store p = some (th.arg.fileName, e) :=
    h.pointers th (List.mem_of_getElem? hth) p ⟨.inl hpc, hop⟩
  -- setting the flag alters the entry in both
  have set {e : Entry} (he : W.view s.store p = some (th.arg.fileName, e)) (taken : Bool) (pc' : Pc P L)
      (hat : ∀ q, Thread.At {th with pc := pc'} q → q = p) :
      Rel W {s with store := V.setMutex s.store p taken, threads := s.threads.set i {th with pc := pc'}}
        {t with
          store := named.setMutex t.store th.arg.fileName taken
          threads := t.threads.set i {th.named with pc := pc'.named th.arg.fileName}} := by
    have hview : W.view (V.setMutex s.store p taken) = _ := W.setMutex_view h.inv he
    refine h.step ?_ (W.setMutex_inv h.inv he) (fun j th' _ _ q hq x hx => ?_) (fun q hq => ?_)
    · simp only [named, h.store.sound he, Option.map_some]
      rw [hview]
      exact h.store.alter he _
    · rw [hview]
      exact Represents.name_kept he hx
    · rw [hview, hat q hq, Function.update_self]
      exact ⟨_, rfl⟩
  rcases Server.call_cases hcall with ⟨hop, htaken, rfl, rfl⟩ | ⟨hop, htaken, rfl, rfl⟩ |
    ⟨hop, htaken, rfl, rfl⟩ | ⟨hop, hunlock, rfl, rfl⟩
  · obtain ⟨e, he⟩ := own (.inl hop)
    rw [W.mutex_eq h.inv he] at htaken
    refine ⟨_, ?_, set he true _ fun q hq => absurd hq (Thread.not_at (by simp) (by simp))⟩
    simp only [acquires, Bool.or_eq_true, beq_iff_eq] at hop
    rcases hop with hop | hop <;>
      simp_all [Server.call, Server.pthreadCall, named, h.store.sound he, flagMutex, Pc.named, mdTryLock, mdLock]
  · obtain ⟨e, he⟩ := own (.inl hop)
    rw [W.mutex_eq h.inv he] at htaken
    refine ⟨_, ?_, set he true _ fun q hq => ?_⟩
    · simp only [acquires, Bool.or_eq_true, beq_iff_eq] at hop
      obtain hop | hop := hop
      · -- `pthread_mutex_lock` waits: it does not refuse
        simp_all [Server.call, Server.pthreadCall, W.mutex_eq h.inv he, flagMutex]
      · simp_all [Server.call, Server.pthreadCall, named, h.store.sound he, flagMutex, Pc.named, mdTryLock,
          mdLock, ebusy]
    · rcases hq.1 with hpc' | ⟨_, hpc'⟩ <;> cases hpc'
      rfl
  · obtain ⟨e, he⟩ := own (.inr hop)
    refine ⟨_, ?_, set he false _ fun q hq => ?_⟩
    · simp [Server.call, Server.pthreadCall, named, h.store.sound he, flagMutex, Pc.named, hop, mdUnlock,
        mdTryLock, mdLock]
    · rcases hq.1 with hpc' | ⟨_, hpc'⟩ <;> cases hpc'
      rfl
  · refine ⟨t.store, ?_, h.step h.store h.inv (fun j th' _ _ q hq x hx => ⟨x, hx⟩)
      (fun q hq => absurd hq (Thread.not_at (by simp) (by simp)))⟩
    have hlock : th.arg.opType ≠ mdLock := by
      intro heq
      simp [acquires, heq] at hop
    have htry : th.arg.opType ≠ mdTryLock := by
      intro heq
      simp [acquires, heq] at hop
    simp [Server.call, hlock, htry, hunlock, Pc.named]

/-- A put in the table is a put in the map, and drops no entry another thread uses. -/
theorem Rel.put {Q : K.Lawful} {s : State S P L C} {t : State Named FileName Empty C} (h : Rel W s t)
    (hinv : Inv Q t) {i : Nat} {th : Thread P L} (hth : s.threads[i]? = some th) {p : P}
    {res : ResPacket} (hpc : th.pc = .put p res) {store : S} (hput : V.put s.store p = some store) :
    ∃ m, named.put t.store th.arg.fileName = some m ∧
      Rel W {s with store := store, threads := s.threads.set i {th with pc := .reply res}}
        {t with store := m, threads := t.threads.set i {th.named with pc := .reply res}} := by
  have hnamed {j : Nat} {th' : Thread P L} (hj : s.threads[j]? = some th') :
      t.threads[j]? = some th'.named := by
    rw [h.threads, List.getElem?_map, hj, Option.map_some]
  have hpc' : th.named.pc = .put th.arg.fileName res := by simp [Thread.named, Pc.named, hpc]
  have hop : acquires th.arg.opType = true ∨ th.arg.opType = mdUnlock := by
    have hok := hinv.threads _ (List.mem_of_getElem? (hnamed hth))
    simp only [Thread.Ok, hpc'] at hok
    exact hok.2.imp And.left id
  have hat : th.At p := ⟨.inr ⟨res, hpc⟩, hop⟩
  obtain ⟨e, he⟩ := h.pointers th (List.mem_of_getElem? hth) p hat
  have hsound := h.store.sound he
  have hview := W.put_view h.inv he hput
  refine ⟨Function.update t.store th.arg.fileName e.put, by simp [named, hsound],
    h.step (m := Function.update t.store th.arg.fileName e.put) ?_
      (W.put_inv h.inv he (hinv.free_of_last_put Q (hnamed hth) hpc' hsound) hput)
      (fun j th' hj hth' q hq x hx => ?_)
      (fun q hq => absurd hq (Thread.not_at (by simp) (by simp)))⟩
  · rw [hview]
    cases e.put with
    | none => exact h.store.erase he
    | some e' => exact h.store.alter he e'
  · by_cases hqp : q = p
    · -- another thread at the same entry: the put is not the last
      subst hqp
      have hok' := hinv.threads _ (List.mem_of_getElem? (hnamed hth'))
      have hok := hinv.threads _ (List.mem_of_getElem? (hnamed hth))
      have hname : th'.arg.fileName = th.arg.fileName := by
        rw [he, Option.some.injEq, Prod.mk.injEq] at hx
        exact hx.1.symm
      have htwo := two_le_countP (Thread.uses th.arg.fileName) hj hth' hth (hname ▸ hq.uses hok')
        (hat.uses hok)
      have hentry := hinv.entries th.arg.fileName
      rw [hsound] at hentry
      have hcount := hentry.1
      rw [h.users Q] at hcount
      simp only [Mutex.users] at hcount
      have hmore : e.count - 1 ≠ 0 := by omega
      rw [hview, Function.update_self, hname]
      simp [Entry.put, hmore]
    · exact ⟨x, by rw [hview, Function.update_of_ne hqp, hx]⟩

/-- Every move of a sound run is matched by at most one move on the map. -/
theorem Rel.matched {Q : K.Lawful} {s s' : State S P L C} {t : State Named FileName Empty C}
    (h : Rel W s t) (hinv : Inv Q t) {mv : Move A} (hrule : Sound W s mv)
    (hnext : next V K s mv = some s') :
    ∃ t', (t' = t ∨ ∃ mv', strayMisses named (fun m f => m f = none) t mv' ∧
      next named K t mv' = some t') ∧ Rel W s' t' := by
  have hnamed {j : Nat} {th' : Thread P L} (hj : s.threads[j]? = some th') :
      t.threads[j]? = some th'.named := by
    rw [h.threads, List.getElem?_map, hj, Option.map_some]
  cases mv with
  | accept arg =>
    obtain ⟨clients, holder, hsend, rfl⟩ := next_accept hnext
    refine ⟨{t with threads := t.threads ++ [⟨arg, holder, .get none⟩], clients := clients},
      .inr ⟨.accept arg, trivial, ?_⟩, rfl, ?_, h.store, h.inv, fun th hth p hp => ?_⟩
    · simp [next, h.clients, hsend]
    · simp [h.threads, Thread.named, Pc.named]
    · obtain hth | hth := List.mem_append.mp hth
      · exact h.pointers th hth p hp
      · rw [List.mem_singleton.mp hth] at hp
        exact absurd hp (Thread.not_at (by simp) (by simp))
  | step i a =>
    obtain ⟨th, pc, store, hth, hfunc, rfl⟩ := next_step hnext
    -- a move of the map's thread, from what its `threadFunc` does
    have move (grant : Bool) {pc' : Pc FileName Empty} {m : Named}
        (hstray : ∀ seen, th.named.pc = .get seen → th.Stray → t.store th.arg.fileName = none)
        (hf : named.threadFunc flagMutex th.arg grant t.store th.named.pc = some (pc', m)) :
        ∃ mv', strayMisses named (fun m f => m f = none) t mv' ∧ next named K t mv' =
          some {t with store := m, threads := t.threads.set i {th.named with pc := pc'}} := by
      refine ⟨.step i grant, fun th' seen hth' hlook hs => ?_, ?_⟩
      · rw [hnamed hth] at hth'
        cases hth'
        exact hstray seen hlook.1 hs
      · simp only [next, hnamed hth, Option.bind_eq_bind, Option.bind_some]
        rw [show th.named.arg = th.arg from rfl, hf, Option.bind_some]
    rcases Server.threadFunc_cases hfunc with ⟨l, hpc, hpeek, rfl, rfl⟩ | ⟨seen, hpc, hpeek, hlook⟩ |
      ⟨p, hpc, hcall⟩ | ⟨p, res, hpc, hput, rfl⟩
    · -- the read before `glob_mutex` is no move of the map
      have hsame : t.threads.set i {th.named with pc := .get none} = t.threads := by
        obtain ⟨hi, hget⟩ := List.getElem?_eq_some_iff.mp (hnamed hth)
        rw [← List.set_getElem_self hi, hget]
        simp [Thread.named, Pc.named, hpc]
      have hrel : Rel W {s with threads := s.threads.set i {th with pc := .get (some l)}}
          {t with threads := t.threads.set i {th.named with pc := .get none}} :=
        h.step h.store h.inv (fun j th' _ _ q _ x hx => ⟨x, hx⟩)
          (fun q hq => absurd hq (Thread.not_at (by simp) (by simp)))
      simp only [hsame] at hrel
      exact ⟨t, .inl rfl, hrel⟩
    · obtain ⟨hcurrent, hstray⟩ := hrule th seen hth ⟨hpc, hpeek⟩
      obtain ⟨grant, m, hm, hrel⟩ := h.lookup (i := i) hcurrent hlook
      have hpc' : th.named.pc = .get none := by simp [Thread.named, Pc.named, hpc]
      exact ⟨_, .inr (move grant
        (fun _ _ hs => (h.store.absent_iff _).mp (hstray hs)) (by rw [hpc']; exact hm)), hrel⟩
    · obtain ⟨m, hm, hrel⟩ := h.call hth hpc hcall
      have hpc' : th.named.pc = .call th.arg.fileName := by simp [Thread.named, Pc.named, hpc]
      exact ⟨_, .inr (move false (fun _ hget => by rw [hpc'] at hget; cases hget)
        (by rw [hpc']; exact hm)), hrel⟩
    · obtain ⟨m, hm, hrel⟩ := h.put hinv hth hpc hput
      have hpc' : th.named.pc = .put th.arg.fileName res := by simp [Thread.named, Pc.named, hpc]
      exact ⟨_, .inr (move false (fun _ hget => by rw [hpc'] at hget; cases hget)
        (by rw [hpc']; simp [Server.threadFunc, hm])), hrel⟩
  | reply i =>
    obtain ⟨arg, holder, res, hth, rfl⟩ := next_reply hnext
    refine ⟨{t with
        threads := t.threads.set i ⟨arg, holder, .exited⟩
        clients := K.receive t.clients arg res},
      .inr ⟨.reply i, trivial, ?_⟩, by simp [h.clients], ?_, h.store, h.inv, fun th' hth' p hp => ?_⟩
    · simp [next, hnamed hth, Thread.named, Pc.named]
    · simp only [h.threads, List.map_set]
      rfl
    · obtain hth' | rfl := List.mem_or_eq_of_mem_set hth'
      · exact h.pointers th' hth' p hp
      · exact absurd hp (Thread.not_at (by simp) (by simp))

/-- **Every sound run on a lawful table is a run on the map**, with the same threads
at the same places and the same clients, and so keeps the map's invariant. -/
theorem refines {V : Server S P L A} (W : V.Lawful) {K : Clients C} (Q : K.Lawful) {empty : S}
    (hinv : W.Inv empty) (hempty : ∀ p, W.view empty p = none) {fresh : C → Prop}
    (hfresh : ∀ c, fresh c → Fresh Q c) {s : State S P L C}
    (h : Reach (machine V K empty fresh) (Sound W) s) :
    ∃ t : State Named FileName Empty C, Rel W s t ∧ Inv Q t := by
  suffices ∃ t, Reach (namedMachine Q) (strayMisses named fun m f => m f = none) t ∧ Rel W s t by
    obtain ⟨t, ht, hrel⟩ := this
    exact ⟨t, hrel, named_inv Q ht⟩
  refine h.simulates ?_ ?_
  · intro s h
    obtain ⟨hstore, hthreads, hclients⟩ := h
    have hview : W.view s.store = fun _ => none := by
      funext p
      rw [hstore, hempty]
    exact ⟨⟨fun _ => none, [], s.clients⟩, ⟨rfl, rfl, hfresh _ hclients⟩, rfl, by simp [hthreads],
      by rw [hview]; exact Represents.empty, by rw [hstore]; exact hinv, by simp [hthreads]⟩
  · intro s t mv s' _ ht hrel hrule hnext
    obtain ⟨t', hmove, hrel'⟩ := hrel.matched (named_inv Q ht) hrule hnext
    obtain rfl | ⟨mv', hrule', hnext'⟩ := hmove
    · exact ⟨t', ht, hrel'⟩
    · exact ⟨t', .step ht hrule' hnext', hrel'⟩

/-! ### What the map says of the table -/

section Consequences
variable {Q : K.Lawful} {s : State S P L C} {t : State Named FileName Empty C}

theorem Rel.holders_le_one (h : Rel W s t) (hinv : Inv Q t) (f : FileName) : Mutex.holders Q s f ≤ 1 := by
  rw [← h.holders Q]
  exact hinv.holders_le_one Q f

/-- An entry counts its users and is locked exactly while there is a holder. -/
theorem Rel.entry (h : Rel W s t) (hinv : Inv Q t) {p : P} {f : FileName} {e : Entry}
    (hp : W.view s.store p = some (f, e)) :
    e.count = Mutex.users Q s f ∧ 0 < Mutex.users Q s f ∧ e.locked = decide (Mutex.holders Q s f = 1) := by
  have hentry := hinv.entries f
  rw [h.store.sound hp, h.users Q, h.holders Q] at hentry
  exact ⟨hentry.1, hentry.2.1, hentry.2.2.2⟩

/-- A user's file has an entry. -/
theorem Rel.entry_of_users (h : Rel W s t) (hinv : Inv Q t) {f : FileName}
    (hu : 0 < Mutex.users Q s f) : ∃ p e, W.view s.store p = some (f, e) := by
  rw [← h.users Q] at hu
  obtain ⟨e, he⟩ := hinv.entry_of_users Q hu
  obtain ⟨p, hp⟩ := h.store.complete he
  exact ⟨p, e, hp⟩

end Consequences

end Rel

end

/-! ### Clients that unlock what they hold -/

/-- Clients that have been granted nothing. -/
theorem disciplined_fresh (held : List (Nat × FileName)) (h : held = []) : Fresh disciplinedLawful held := by
  subst h
  exact ⟨trivial, fun _ => rfl⟩

/-- They send no stray unlock. -/
theorem disciplined_not_stray {V : Server S P L A} {empty : S} {fresh : List (Nat × FileName) → Prop}
    {R : Rule (State S P L (List (Nat × FileName))) (Move A)}
    {s : State S P L (List (Nat × FileName))} (h : Reach (machine V disciplined empty fresh) R s) :
    ∀ th ∈ s.threads, ¬ th.Stray := by
  refine h.invariant (I := fun s => ∀ th ∈ s.threads, ¬ th.Stray) ?_ ?_
  · intro s h
    obtain ⟨_, hthreads, _⟩ := h
    simp [hthreads]
  · intro s mv s' hinv _ (hnext : next V disciplined s mv = some s')
    cases mv with
    | accept arg =>
      obtain ⟨clients, holder, hsend, rfl⟩ := next_accept hnext
      intro th hth
      obtain hth | hth := List.mem_append.mp hth
      · exact hinv th hth
      · rw [List.mem_singleton.mp hth]
        intro h
        obtain ⟨hop, hholder⟩ := h
        simp only at hop hholder
        subst hholder
        simp only [disciplined, hop, if_true] at hsend
        split at hsend <;> cases hsend
    | step i a =>
      obtain ⟨th, pc, store, hth, _, rfl⟩ := next_step hnext
      intro th' hth'
      obtain hth' | rfl := List.mem_or_eq_of_mem_set hth'
      · exact hinv th' hth'
      · exact hinv th (List.mem_of_getElem? hth)
    | reply i =>
      obtain ⟨arg, holder, res, hth, rfl⟩ := next_reply hnext
      intro th' hth'
      obtain hth' | rfl := List.mem_or_eq_of_mem_set hth'
      · exact hinv th' hth'
      · exact fun hs => hinv _ (List.mem_of_getElem? hth) ⟨hs.1, hs.2⟩

/-- Where a lookup reads nothing before `glob_mutex`, all their runs are sound. -/
theorem disciplined_sound [DecidableEq P] {V : Server S P Empty A} (W : V.Lawful) {empty : S}
    {fresh : List (Nat × FileName) → Prop} {s : State S P Empty (List (Nat × FileName))}
    (h : Reachable (machine V disciplined empty fresh) s) :
    Reach (machine V disciplined empty fresh) (Sound W) s := by
  refine h.mono fun s mv _ hs _ => ?_
  cases mv with
  | accept arg => trivial
  | step i a =>
    intro th seen hth _
    exact ⟨fun l => l.elim, fun hstray =>
      absurd hstray (disciplined_not_stray hs th (List.mem_of_getElem? hth))⟩
  | reply i => trivial

end CacheFs.Mutex
