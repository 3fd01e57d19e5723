import CacheFs.Mutex.HashServer
import CacheFs.Mutex.TableServer

/-! What a request that is answered `NOT_OK` leaves.

A request is refused at its lookup, by a pthread call that fails, or because its
operation is not known (`serve_refused`). Where the lookup had counted a user or made an
entry, the put takes that back: in the table up to the name of a free slot, in the hash
table link for link (`refused_unchanged`). -/
namespace CacheFs.Mutex
open Transition Registry

/-- A pthread call that fails leaves `p_mutex` as it was. -/
def Pthread.FailsClean (pt : Pthread) : Prop :=
  ∀ call ∈ [pt.lock, pt.trylock, pt.unlock], ∀ taken rc taken',
    call taken = some (rc, taken') → rc ≠ 0 → taken' = taken

namespace Server
variable {S P L A : Type}

/-- How a request comes to be refused, where a lookup is one step. It has no entry; or it has
one, and then takes what it counted back when its call failed, releases nothing, or asks
for what is not known. -/
inductive Refused (V : Server S P L A) (arg : ThreadArg) (a : A) (s : S) : S → Prop where
  | noEntry {s'} : V.get s arg.fileName arg.opType none a = some (none, s') → Refused V arg a s s'
  | putBack {s₁ s' m taken} : V.get s arg.fileName arg.opType none a = some (some m, s₁) →
      acquires arg.opType = true → V.mutex s₁ m = some taken → V.put (V.setMutex s₁ m taken) m = some s' →
      Refused V arg a s s'
  | notReleased {s₁ m taken} : V.get s arg.fileName arg.opType none a = some (some m, s₁) →
      arg.opType = mdUnlock → V.mutex s₁ m = some taken → Refused V arg a s (V.setMutex s₁ m taken)
  | notKnown {s' m} : V.get s arg.fileName arg.opType none a = some (some m, s') →
      acquires arg.opType = false → arg.opType ≠ mdUnlock → Refused V arg a s s'

variable {V : Server S P L A} {pt : Pthread} {arg : ThreadArg} {a : A} {s s' : S} {res : ResPacket}

theorem uninterrupted_reply (n : Nat) : V.uninterrupted pt arg a n s (.reply res) = some (res, s) := by
  cases n <;> rfl

/-- From the put on. -/
theorem uninterrupted_put {n : Nat} {m : P} {res' : ResPacket}
    (h : V.uninterrupted pt arg a (n + 1) s (.put m res) = some (res', s')) : res' = res ∧ V.put s m = some s' := by
  simp only [uninterrupted, threadFunc] at h
  cases hput : V.put s m with
  | none => simp [hput] at h
  | some s₁ =>
    simp only [hput, Option.map_some, Option.bind_eq_bind, Option.bind_some, uninterrupted_reply, Option.some.injEq,
      Prod.mk.injEq] at h
    obtain ⟨rfl, rfl⟩ := h
    exact ⟨rfl, rfl⟩

/-- A pthread call, made on the flag as it is. -/
theorem pthreadCall_eq_some {f : Bool → Option (Nat × Bool)} {m : P} {rc : Nat} :
    V.pthreadCall f m s = some (rc, s') ↔
      ∃ taken taken', V.mutex s m = some taken ∧ f taken = some (rc, taken') ∧ s' = V.setMutex s m taken' := by
  simp only [pthreadCall, Option.bind_eq_bind, Option.bind_eq_some_iff, Option.some.injEq, Prod.mk.injEq, Prod.exists]
  constructor
  · intro h
    obtain ⟨taken, htaken, rc', taken', hf, rfl, rfl⟩ := h
    exact ⟨taken, taken', htaken, hf, rfl⟩
  · intro h
    obtain ⟨taken, taken', htaken, hf, rfl⟩ := h
    exact ⟨taken, htaken, rc, taken', hf, rfl, rfl⟩

/-- From the `switch` on. -/
theorem uninterrupted_call_refused (hpt : pt.FailsClean) {n : Nat} {m : P}
    (h : V.uninterrupted pt arg a (n + 2) s (.call m) = some (res, s')) (hres : res.isOk = false) :
    (acquires arg.opType = true ∧ ∃ taken, V.mutex s m = some taken ∧ V.put (V.setMutex s m taken) m = some s') ∨
    (arg.opType = mdUnlock ∧ ∃ taken, V.mutex s m = some taken ∧ s' = V.setMutex s m taken) ∨
    (acquires arg.opType = false ∧ arg.opType ≠ mdUnlock ∧ s' = s) := by
  simp only [uninterrupted, Option.bind_eq_bind, Option.bind_eq_some_iff, Prod.exists, threadFunc, call] at h
  obtain ⟨pc, s₁, hcall, h⟩ := h
  -- a call that takes the lock and fails goes on to the put
  have failed {f : Bool → Option (Nat × Bool)} {why : FailT} (hf : f ∈ [pt.lock, pt.trylock, pt.unlock])
      (hcall : (V.pthreadCall f m s).map (fun x =>
        (if x.1 ≠ 0 then Pc.put m (.notOk why) else .reply .ok, x.2)) = some (pc, s₁)) :
      ∃ taken, V.mutex s m = some taken ∧ V.put (V.setMutex s m taken) m = some s' := by
    obtain ⟨⟨rc, s₂⟩, hpthread, hpc⟩ := Option.map_eq_some_iff.mp hcall
    obtain ⟨taken, taken', htaken, hrc, rfl⟩ := pthreadCall_eq_some.mp hpthread
    simp only [Prod.mk.injEq] at hpc
    obtain ⟨rfl, rfl⟩ := hpc
    by_cases hzero : rc = 0
    · simp only [hzero, ne_eq, not_true_eq_false, if_false, uninterrupted_reply, Option.some.injEq, Prod.mk.injEq] at h
      rw [← h.1] at hres
      cases hres
    · simp only [ne_eq, hzero, not_false_eq_true, if_true] at h
      cases hpt f hf taken rc taken' hrc hzero
      exact ⟨taken, htaken, (uninterrupted_put h).2⟩
  split at hcall
  · rename_i hop
    exact .inl ⟨by simp [acquires, hop], failed (by simp) hcall⟩
  split at hcall
  · rename_i hop
    exact .inl ⟨by simp [acquires, hop], failed (by simp) hcall⟩
  rename_i hlock htry
  split at hcall
  · rename_i hop
    refine .inr (.inl ⟨hop, ?_⟩)
    obtain ⟨⟨rc, s₂⟩, hpthread, hpc⟩ := Option.map_eq_some_iff.mp hcall
    obtain ⟨taken, taken', htaken, hrc, rfl⟩ := pthreadCall_eq_some.mp hpthread
    simp only [Prod.mk.injEq] at hpc
    obtain ⟨rfl, rfl⟩ := hpc
    by_cases hzero : rc = 0
    · simp only [hzero, if_true] at h
      rw [(uninterrupted_put h).1] at hres
      cases hres
    · simp only [hzero, if_false, uninterrupted_reply, Option.some.injEq, Prod.mk.injEq] at h
      cases hpt pt.unlock (by simp) taken rc taken' hrc hzero
      exact ⟨taken, htaken, h.2.symm⟩
  · rename_i hunlock
    cases hcall
    rw [uninterrupted_reply] at h
    cases h
    exact .inr (.inr ⟨by simp [acquires, hlock, htry], hunlock, rfl⟩)

theorem serve_refused (hpt : pt.FailsClean) (hpeek : V.peek s arg.fileName = none)
    (h : V.serve pt arg a s = some (res, s')) (hres : res.isOk = false) : Refused V arg a s s' := by
  simp only [serve, uninterrupted, threadFunc, hpeek, Option.bind_eq_bind, Option.bind_eq_some_iff, Prod.exists] at h
  obtain ⟨pc, s₁, hlook, h⟩ := h
  obtain ⟨r, hget, rfl⟩ := lookup_eq_some.mp hlook
  cases r with
  | none =>
    rw [afterGet_none, uninterrupted_reply] at h
    cases h
    exact .noEntry hget
  | some m =>
    obtain ⟨hop, taken, htaken, hput⟩ | ⟨hop, taken, htaken, rfl⟩ | ⟨hop, hunlock, rfl⟩ :=
      uninterrupted_call_refused hpt h hres
    · exact .putBack hget hop htaken hput
    · exact .notReleased hget hop htaken
    · exact .notKnown hget hop hunlock

end Server

/-! ### The table -/

namespace Table

/-- The same slots, but for the names of free ones. -/
def SameSlots (t t' : MutexTable) : Prop :=
  ∀ (p : Nat) (m : ZMutex), t.slots[p]? = some m → ∃ m', t'.slots[p]? = some m' ∧ m'.count = m.count ∧
    m'.pMutex = m.pMutex ∧ (m.count ≠ 0 → m'.fileName = m.fileName)

theorem SameSlots.refl (t : MutexTable) : SameSlots t t := fun _ m hm => ⟨m, hm, rfl, rfl, fun _ => rfl⟩

/-- A write that leaves its slot as it was, but for the name if the slot is free. -/
theorem SameSlots.modify {t : MutexTable} {p : Nat} {m : ZMutex} (hm : t.slots[p]? = some m) {g : ZMutex → ZMutex}
    (hcount : (g m).count = m.count) (hflag : (g m).pMutex = m.pMutex)
    (hname : m.count ≠ 0 → (g m).fileName = m.fileName) : SameSlots t (t.modify p g) := by
  intro q x hx
  by_cases hq : p = q
  · subst hq
    cases hm.symm.trans hx
    exact ⟨g m, by simp [hm], hcount, hflag, hname⟩
  · exact ⟨x, by simp [hq, hx], rfl, rfl, fun _ => rfl⟩

theorem modify_modify (t : MutexTable) (p : Nat) (g g' : ZMutex → ZMutex) :
    (t.modify p g).modify p g' = t.modify p (g' ∘ g) := by
  simp [MutexTable.modify, List.modify_modify_eq]

theorem refused_same {arg : ThreadArg} {t t' : MutexTable} (h : server.Refused arg () t t') : SameSlots t t' := by
  have put {t₁ : MutexTable} {p : Nat} (hput : putZMutex t₁ p = some t') :
      t' = t₁.modify p fun m => {m with count := m.count - 1} := by
    rw [putZMutex] at hput
    split at hput <;> cases hput
    rfl
  cases h with
  | noEntry hget =>
    rcases getZMutex_cases hget with ⟨_, _, _, _, _, hr, _⟩ | ⟨_, ⟨_, _, _, rfl⟩ | ⟨_, _, _, _, _, hr, _⟩ | ⟨_, _, rfl⟩⟩
    · cases hr
    · exact .refl _
    · cases hr
    · exact .refl _
  | @putBack t₁ _ p taken hget hop htaken hput =>
    rw [put hput]
    rcases getZMutex_cases hget with ⟨q, m, hm, _, _, hr, ht₁⟩ | ⟨_, ⟨_, _, hr, _⟩ | ⟨_, q, m, hm, hzero, hr, ht₁⟩ |
      ⟨hno, _⟩⟩
    · cases hr
      rw [if_pos hop] at ht₁
      subst ht₁
      simp only [server, MutexTable.getElem?_modify, if_true, hm, Option.map_some, Option.some.injEq] at htaken
      simp only [server, modify_modify]
      refine .modify hm ?_ htaken.symm fun _ => rfl
      simp
    · cases hr
    · cases hr
      subst ht₁
      simp only [server, MutexTable.getElem?_modify, if_true, hm, Option.map_some, Option.some.injEq] at htaken
      simp only [server, modify_modify]
      refine .modify hm ?_ htaken.symm fun hcount => absurd hzero hcount
      simp [hzero]
    · rw [hop] at hno
      cases hno
  | @notReleased t₁ p taken hget hop htaken =>
    have hacq : acquires arg.opType = false := by rw [hop, not_acquires_unlock]
    rcases getZMutex_cases hget with ⟨q, m, hm, _, _, hr, ht₁⟩ | ⟨_, ⟨hyes, _⟩ | ⟨hyes, _⟩ | ⟨_, hr, _⟩⟩
    · cases hr
      rw [hacq, if_neg Bool.false_ne_true] at ht₁
      subst ht₁
      simp only [server, hm, Option.map_some, Option.some.injEq] at htaken
      exact .modify hm rfl htaken.symm fun _ => rfl
    · rw [hacq] at hyes
      cases hyes
    · rw [hacq] at hyes
      cases hyes
    · cases hr hop
  | notKnown hget hop hunlock =>
    rcases getZMutex_cases hget with ⟨_, _, _, _, _, _, ht⟩ | ⟨_, ⟨_, _, _, rfl⟩ | ⟨hyes, _⟩ | ⟨_, _, rfl⟩⟩
    · rw [hop, if_neg Bool.false_ne_true] at ht
      subst ht
      exact .refl _
    · exact .refl _
    · rw [hop] at hyes
      cases hyes
    · exact .refl _

end Table

/-! ### The hash table -/

namespace Hash

section Refused
variable {t t' : HashTable} {chains : Fin nhash → List Nat}

/-- The table with one entry written. -/
def HashTable.set (t : HashTable) (p : Nat) (m : ZzMutex) : HashTable :=
  {t with heap := Function.update t.heap p (some m)}

theorem HashTable.set_set (t : HashTable) (p : Nat) (m m' : ZzMutex) : (t.set p m).set p m' = t.set p m' := by
  simp [set]

theorem HashTable.set_eq {t : HashTable} {p : Nat} {m : ZzMutex} (hm : t.heap p = some m) : t.set p m = t := by
  simp [set, ← hm]

theorem setMutex_eq {p : Nat} {m : ZzMutex} (hm : t.heap p = some m) (taken : Bool) :
    atomicServer.setMutex t p taken = t.set p {m with pMutex := taken} := by
  simp only [atomicServer, serverOf, write_eq hm, Option.getD_some]
  rfl

/-- The put of an entry that has other users. -/
theorem putZzMutex_of_ne {p : Nat} {m : ZzMutex} (hm : t.heap p = some m) (hcount : m.count - 1 ≠ 0) :
    putZzMutex t p = some (t.set p {m with count := m.count - 1}) := by
  simp only [putZzMutex, hm, write_eq hm, Option.bind_eq_bind, Option.bind_some, if_neg hcount]
  rfl

/-- The entry that a lookup makes. -/
def HashTable.made (t : HashTable) (f : FileName) : ZzMutex := ⟨1, false, f, none, t.mutexHash (hashFunc f)⟩

theorem pushed_self (t : HashTable) (p : Nat) (f : FileName) : (t.pushed p f).heap p = some (t.made f) := by
  simp [HashTable.pushed, HashTable.made]

/-- An entry that was pushed in front of its chain and is put back at once leaves the chain,
and the entry after it, as they were. -/
theorem pushed_put (h : Shape t chains) {p : Nat} {f : FileName} (hp : t.heap p = none) :
    ∃ t', putZzMutex (t.pushed p f) p = some t' ∧ t'.mutexHash = t.mutexHash ∧ t'.heap = t.heap := by
  have hself := pushed_self t p f
  have hnext (q : Nat) (hq : (t.made f).next = some q) :
      ∃ x, ((t.pushed p f).set p {t.made f with count := (t.made f).count - 1}).heap q = some x := by
    by_cases hqp : q = p
    · subst hqp
      exact ⟨_, Function.update_self ..⟩
    · obtain ⟨x, hx, -⟩ := h.head_pre hq
      simp [HashTable.set, hqp, HashTable.pushed, hx]
  have hput : putZzMutex (t.pushed p f) p =
      some (((t.pushed p f).set p {t.made f with count := (t.made f).count - 1}).unlinked p (t.made f)) := by
    simp only [putZzMutex, hself, write_eq hself, Option.bind_eq_bind, Option.bind_some]
    rw [if_pos (show (t.made f).count - 1 = 0 by rfl)]
    exact unlinkZzMutex_eq hnext fun q hq => by cases hq
  refine ⟨_, hput, ?_, ?_⟩
  · simp [HashTable.unlinked, HashTable.set, HashTable.pushed, HashTable.made]
  · funext q
    by_cases hq : q = p
    · simp [HashTable.unlinked, hq, hp]
    · simp only [HashTable.unlinked, HashTable.set, hq, if_false, Function.update_of_ne, ne_eq, not_false_eq_true,
        HashTable.pushed, HashTable.made, Option.map_map]
      cases hx : t.heap q with
      | none => rfl
      | some x =>
        by_cases hhead : t.mutexHash (hashFunc f) = some q
        · obtain ⟨y, hy, hpre⟩ := h.head_pre hhead
          cases hx.symm.trans hy
          obtain ⟨count, taken, name, pre, next⟩ := x
          cases hpre
          simp [hhead]
        · simp [hhead]

/-- What a lookup stops at, in the hash table. -/
theorem Shape.get_cases (h : Shape t chains) {f : FileName} {opType : UInt8} {nmtx r : Option Nat}
    (hget : getZzMutex t (t.mutexHash (hashFunc f)) f opType nmtx = some (r, t')) :
    (∃ p m, t.heap p = some m ∧ m.fileName = f ∧ r = some p ∧
      t' = if acquires opType then t.set p {m with count := m.count + 1} else t) ∨
    (r = none ∧ t' = t) ∨
    (acquires opType = true ∧ ∃ p, t.heap p = none ∧ r = some p ∧ t' = t.pushed p f) := by
  obtain ⟨p, m, htrav, hm, hname⟩ | ⟨htrav, -⟩ := h.traverse (h.serves f)
  · refine .inl ⟨p, m, hm, hname, ?_⟩
    simp only [getZzMutex, htrav, Option.bind_eq_bind, Option.bind_some, write_eq hm] at hget
    split at hget
    · rename_i hop
      cases hget
      exact ⟨rfl, (if_pos hop).symm⟩
    · rename_i hop
      cases hget
      exact ⟨rfl, (if_neg hop).symm⟩
  · refine .inr ?_
    simp only [getZzMutex, htrav, Option.bind_eq_bind, Option.bind_some] at hget
    split at hget
    · rename_i hop
      cases nmtx with
      | none =>
        cases hget
        exact .inl ⟨rfl, rfl⟩
      | some p =>
        cases hp : t.heap p with
        | some m => simp [hp] at hget
        | none =>
          simp only [hp, h.insert hp f, Option.isSome_none, Bool.false_eq_true, if_false, Option.bind_some,
            Option.some.injEq, Prod.mk.injEq] at hget
          exact .inr ⟨hop, p, hp, hget.1.symm, hget.2.symm⟩
    · cases hget
      exact .inl ⟨rfl, rfl⟩

/-- The chains and the entries are as they were, link for link. -/
def SameChains (t t' : HashTable) : Prop := t'.mutexHash = t.mutexHash ∧ t'.heap = t.heap

theorem SameChains.refl (t : HashTable) : SameChains t t := ⟨rfl, rfl⟩

theorem refused_same (h : Shape t chains) (hcounts : ∀ p m, t.heap p = some m → 0 < m.count) {arg : ThreadArg}
    {a : Option Nat} (hrefused : atomicServer.Refused arg a t t') : SameChains t t' := by
  cases hrefused with
  | noEntry hget =>
    obtain ⟨_, _, _, _, hr, _⟩ | ⟨_, rfl⟩ | ⟨_, _, _, hr, _⟩ := h.get_cases hget
    · cases hr
    · exact .refl _
    · cases hr
  | @putBack t₁ _ p taken hget hop htaken hput =>
    obtain ⟨q, m, hm, _, hr, ht₁⟩ | ⟨hr, _⟩ | ⟨_, q, hq, hr, ht₁⟩ := h.get_cases hget
    · cases hr
      rw [if_pos hop] at ht₁
      subst ht₁
      have hself : (t.set p {m with count := m.count + 1}).heap p = some {m with count := m.count + 1} :=
        Function.update_self ..
      simp only [atomicServer, serverOf, hself, Option.map_some, Option.some.injEq] at htaken
      subst htaken
      rw [setMutex_eq hself, HashTable.set_eq hself] at hput
      have hcount : ({m with count := m.count + 1} : ZzMutex).count - 1 ≠ 0 := by
        have := hcounts p m hm
        simp only
        omega
      have hput' := hput.symm.trans (putZzMutex_of_ne hself hcount)
      simp only [HashTable.set_set, Int.add_sub_cancel, HashTable.set_eq hm, Option.some.injEq] at hput'
      rw [hput']
      exact .refl t
    · cases hr
    · cases hr
      subst ht₁
      have hself := pushed_self t p arg.fileName
      simp only [atomicServer, serverOf, hself, Option.map_some, Option.some.injEq] at htaken
      subst htaken
      rw [setMutex_eq hself, HashTable.set_eq hself] at hput
      obtain ⟨t₂, hput', hsame⟩ := pushed_put h (f := arg.fileName) hq
      cases hput.symm.trans hput'
      exact hsame
  | @notReleased t₁ p taken hget hop htaken =>
    have hacq : acquires arg.opType = false := by rw [hop, not_acquires_unlock]
    obtain ⟨q, m, hm, _, hr, ht₁⟩ | ⟨hr, _⟩ | ⟨hyes, _⟩ := h.get_cases hget
    · cases hr
      rw [hacq, if_neg Bool.false_ne_true] at ht₁
      subst ht₁
      simp only [atomicServer, serverOf, hm, Option.map_some, Option.some.injEq] at htaken
      subst htaken
      rw [setMutex_eq hm, HashTable.set_eq hm]
      exact .refl _
    · cases hr
    · rw [hacq] at hyes
      cases hyes
  | notKnown hget hop hunlock =>
    obtain ⟨_, _, _, _, _, ht⟩ | ⟨_, rfl⟩ | ⟨hyes, _⟩ := h.get_cases hget
    · rw [hop, if_neg Bool.false_ne_true] at ht
      subst ht
      exact .refl _
    · exact .refl _
    · rw [hop] at hyes
      cases hyes

end Refused

end Hash

/-- **A request that is answered `NOT_OK` changes nothing**: in every reachable state of
either server, whatever the pthread calls return, the table has the same slots, but for
the names of free ones, and the hash table the same chains. -/
theorem refused_unchanged {pt : Pthread} (hpt : pt.FailsClean) (arg : ThreadArg) {res : ResPacket}
    (hres : res.isOk = false) :
    (∀ s t', Reachable Table.lockMachine s → Table.server.serve pt arg () s.store = some (res, t') →
      Table.SameSlots s.store t') ∧
    ∀ s a t', Reachable Hash.atomicMachine s → Hash.atomicServer.serve pt arg a s.store = some (res, t') →
      Hash.SameChains s.store t' := by
  constructor
  · intro s t' _ hserve
    exact Table.refused_same (Server.serve_refused hpt rfl hserve hres)
  · intro s a t' hs hserve
    obtain ⟨t, hrel, hinv⟩ := refines Hash.atomicLawful disciplinedLawful ⟨_, Hash.init_shape⟩ Hash.init_view
      disciplined_fresh (disciplined_sound Hash.atomicLawful hs)
    obtain ⟨chains, hshape⟩ := hrel.inv
    refine Hash.refused_same hshape (fun p m hm => ?_) (Server.serve_refused hpt rfl hserve hres)
    have hp : Hash.view s.store p = some (m.fileName, ⟨m.count, m.pMutex⟩) := by simp [Hash.view, hm]
    obtain ⟨hcount, hpos, -⟩ := hrel.entry hinv hp
    simp only at hcount
    omega

/-- A mutex whose `lock` fails with `EINVAL`. -/
def failingLock : Pthread := {flagMutex with lock := fun taken => some (22, taken)}

/-- The lock of a file that has no entry yet fails, in both servers. -/
theorem refused_unchanged_new : ∃ arg t t',
    Table.server.serve failingLock arg () Table.mutexTableInit = some (.notOk .lockFail, t) ∧
    Table.SameSlots Table.mutexTableInit t ∧ t ≠ Table.mutexTableInit ∧
    Hash.atomicServer.serve failingLock arg (some 0) Hash.mutexHashInit = some (.notOk .lockFail, t') ∧
    Hash.SameChains Hash.mutexHashInit t' := by
  let arg : ThreadArg := ⟨mdLock, 7, ⟨[102], by decide, by decide⟩⟩
  have hclean : failingLock.FailsClean := by
    intro call hcall taken rc taken' hret hrc
    simp only [List.mem_cons, List.not_mem_nil, or_false] at hcall
    obtain rfl | rfl | rfl := hcall
    · simp only [failingLock, Option.some.injEq, Prod.mk.injEq] at hret
      exact hret.2.symm
    · cases taken with
      | false =>
        simp only [failingLock, flagMutex, Bool.false_eq_true, if_false, Option.some.injEq, Prod.mk.injEq] at hret
        exact absurd hret.1.symm hrc
      | true =>
        simp only [failingLock, flagMutex, if_true, Option.some.injEq, Prod.mk.injEq] at hret
        exact hret.2.symm
    · simp only [failingLock, flagMutex, Option.some.injEq, Prod.mk.injEq] at hret
      exact absurd hret.1.symm hrc
  have hres : (ResPacket.notOk .lockFail).isOk = false := rfl
  obtain ⟨htable, hhash⟩ := refused_unchanged hclean arg hres
  have hstart : Reachable Table.lockMachine ⟨Table.mutexTableInit, [], []⟩ := .start ⟨rfl, rfl, rfl⟩
  have hstart' : Reachable Hash.atomicMachine ⟨Hash.mutexHashInit, [], []⟩ := .start ⟨rfl, rfl, rfl⟩
  have hserve : Table.server.serve failingLock arg () Table.mutexTableInit =
      some (.notOk .lockFail, Table.mutexTableInit.modify 0 ({· with fileName := arg.fileName})) := by
    decide +kernel
  have hserve' : (Hash.atomicServer.serve failingLock arg (some 0) Hash.mutexHashInit).map Prod.fst =
      some (.notOk .lockFail) := by decide +kernel
  obtain ⟨⟨res, t'⟩, hserve', rfl⟩ := Option.map_eq_some_iff.mp hserve'
  exact ⟨arg, _, t', hserve, htable _ _ hstart hserve, by decide +kernel, hserve', hhash _ _ _ hstart' hserve'⟩

end CacheFs.Mutex
