import CacheFs.Mutex.Leaks
import CacheFs.Mutex.Refusals

/-! Operation codes that no lock operation has.

`main` keeps the 32-bit code of a packet in the `char` of its `thread_arg`, and the lookup
comes before the `switch`. So a code whose low byte is that of an operation is taken for
it, and where the lookup finds nothing to give, the answer is the lookup's. A request
with an unknown code is refused as such, and changes nothing, just when neither happens
(`unknown_harmless`). -/
namespace CacheFs.Mutex
open Transition Registry

/-- `md_mutex_req_packet`. -/
structure ReqPacket where
  opType : UInt32
  fileName : FileName
  deriving DecidableEq

/-- The `thread_arg` that `main` makes of a packet: the code is cut to a `char`. -/
def ReqPacket.threadArg (pkt : ReqPacket) (client : Nat) : ThreadArg := ⟨pkt.opType.toUInt8, client, pkt.fileName⟩

/-- The code is that of no operation. -/
def Unknown (opType : UInt8) : Prop := opType ≠ mdLock ∧ opType ≠ mdTryLock ∧ opType ≠ mdUnlock

instance (opType : UInt8) : Decidable (Unknown opType) :=
  inferInstanceAs (Decidable (opType ≠ mdLock ∧ opType ≠ mdTryLock ∧ opType ≠ mdUnlock))

theorem Unknown.not_acquires {opType : UInt8} (h : Unknown opType) : acquires opType = false := by
  simp [acquires, h.1, h.2.1]

section Harmless
variable {S P L A : Type} {V : Server S P L A} {arg : ThreadArg} {s s' : S}

/-- Whatever the allocator answers, the request is refused as unknown and changes nothing. -/
def Harmless (V : Server S P L A) (arg : ThreadArg) (s : S) : Prop :=
  ∀ a, V.serve flagMutex arg a s = some (.notOk .unrecognizedOpType, s)

/-- Only at the `switch` is a code found to be unknown. -/
theorem Server.uninterrupted_unrecognized {a : A} {n : Nat} {m : P}
    (h : V.uninterrupted flagMutex arg a (n + 2) s (.call m) = some (.notOk .unrecognizedOpType, s')) :
    Unknown arg.opType := by
  simp only [uninterrupted, threadFunc, Option.bind_eq_bind, Option.bind_eq_some_iff, Prod.exists] at h
  obtain ⟨pc, s₁, hcall, h⟩ := h
  rcases call_cases hcall with ⟨_, _, _, rfl⟩ | ⟨_, _, _, rfl⟩ | ⟨_, _, _, rfl⟩ | ⟨hop, hunlock, _, rfl⟩
  · rw [uninterrupted_reply] at h
    cases h
  · cases (uninterrupted_put h).1
  · cases (uninterrupted_put h).1
  · refine ⟨?_, ?_, hunlock⟩
    · intro heq
      rw [heq] at hop
      cases hop
    · intro heq
      rw [heq] at hop
      cases hop

theorem Server.call_unknown {pt : Pthread} {m : P} (h : Unknown arg.opType) :
    V.call pt arg m s = some (.reply (.notOk .unrecognizedOpType), s) := by
  simp [call, h.1, h.2.1, h.2.2]

/-- A request from its lookup on, where the lookup is all that happens before the `switch`. -/
theorem Server.uninterrupted_lookup {n : Nat} {a : A} {seen : Option L}
    (hstep : V.threadFunc flagMutex arg a s (.get seen) = V.lookup arg seen a s) :
    V.uninterrupted flagMutex arg a (n + 3) s (.get seen) = some (.notOk .unrecognizedOpType, s') ↔
      Unknown arg.opType ∧ ∃ m, V.get s arg.fileName arg.opType seen a = some (some m, s') := by
  have hunfold : V.uninterrupted flagMutex arg a (n + 3) s (.get seen) =
      (V.lookup arg seen a s).bind fun x => V.uninterrupted flagMutex arg a (n + 2) x.2 x.1 := by
    rw [← hstep]
    rfl
  rw [hunfold]
  constructor
  · intro h
    obtain ⟨⟨pc, s₁⟩, hlook, h⟩ := Option.bind_eq_some_iff.mp h
    obtain ⟨r, hget, rfl⟩ := lookup_eq_some.mp hlook
    cases r with
    | none =>
      simp only [afterGet_none, uninterrupted_reply] at h
      cases h
    | some m =>
      have hunknown := uninterrupted_unrecognized h
      simp only [afterGet_some, uninterrupted, threadFunc, call_unknown hunknown, Option.bind_eq_bind, Option.bind_some,
        Option.some.injEq, Prod.mk.injEq, true_and] at h
      exact ⟨hunknown, m, by rw [hget, h]⟩
  · intro h
    obtain ⟨hunknown, m, hget⟩ := h
    rw [lookup_eq_some.mpr ⟨some m, hget, rfl⟩]
    simp only [Option.bind_some, afterGet_some, uninterrupted, threadFunc, call_unknown hunknown, Option.bind_eq_bind]

end Harmless

/-! ### The table -/

namespace Table

/-- A slot with a negative count, at which the traversal ends the process, comes only after
the file's own slot. -/
def Traversable (f : FileName) (l : List ZMutex) : Prop :=
  ∀ (p : Nat) (m : ZMutex), l[p]? = some m → m.count < 0 →
    ∃ (q : Nat) (x : ZMutex), q < p ∧ l[q]? = some x ∧ 0 < x.count ∧ x.fileName = f

theorem traversable_cons {f : FileName} {m : ZMutex} {l : List ZMutex} :
    Traversable f (m :: l) ↔ 0 < m.count ∧ m.fileName = f ∨ 0 ≤ m.count ∧ Traversable f l := by
  constructor
  · intro h
    have hm : 0 ≤ m.count := by
      apply Classical.byContradiction
      intro hneg
      obtain ⟨q, -, hq, -⟩ := h 0 m rfl (by omega)
      omega
    by_cases hown : 0 < m.count ∧ m.fileName = f
    · exact .inl hown
    · refine .inr ⟨hm, fun p x hx hneg => ?_⟩
      obtain ⟨q, y, hq, hy, hpos, hname⟩ := h (p + 1) x hx hneg
      cases q with
      | zero =>
        cases hy
        exact absurd ⟨hpos, hname⟩ hown
      | succ q => exact ⟨q, y, by omega, hy, hpos, hname⟩
  · intro h p x hx hneg
    cases p with
    | zero =>
      cases hx
      obtain h | h := h
      · omega
      · omega
    | succ p =>
      obtain h | h := h
      · exact ⟨0, m, by omega, rfl, h.1, h.2⟩
      · obtain ⟨q, y, hq, hy, hrest⟩ := h.2 p x hx hneg
        exact ⟨q + 1, y, by omega, hy, hrest⟩

theorem traverse_isSome {f : FileName} {l : List ZMutex} (i : Nat) (free : Option Nat) :
    (traverse f l i free).isSome ↔ Traversable f l := by
  induction l generalizing i free with
  | nil => simp [traverse, Traversable]
  | cons m l ih =>
    rw [traversable_cons, traverse]
    split
    · rename_i hzero
      rw [ih]
      constructor
      · exact fun h => .inr ⟨by omega, h⟩
      · intro h
        obtain h | h := h
        · omega
        · exact h.2
    · rename_i hzero
      split
      · rename_i hpos
        split
        · rename_i hname
          simp [hpos, hname]
        · rename_i hname
          rw [ih]
          simp [hname, Int.le_of_lt hpos]
      · rename_i hneg
        simp only [Option.isSome_none, Bool.false_eq_true, false_iff]
        omega

theorem harmless_iff {arg : ThreadArg} {t : MutexTable} :
    Harmless server arg t ↔ Unknown arg.opType ∧ Traversable arg.fileName t.slots := by
  have hserve : Harmless server arg t ↔ Unknown arg.opType ∧
      ∃ m, getZMutex t arg.fileName arg.opType = some (some m, t) :=
    ⟨fun h => (Server.uninterrupted_lookup (n := 1) (a := ()) rfl).mp (h ()),
      fun h a => (Server.uninterrupted_lookup (n := 1) rfl).mpr h⟩
  rw [hserve]
  refine and_congr_right fun hunknown => ?_
  rw [← traverse_isSome 0 none, Option.isSome_iff_exists]
  simp only [getZMutex, hunknown.not_acquires, hunknown.2.2, Bool.false_eq_true, if_false, Option.bind_eq_bind]
  constructor
  · intro h
    obtain ⟨m, hm⟩ := h
    obtain ⟨x, hx, -⟩ := Option.bind_eq_some_iff.mp hm
    exact ⟨x, hx⟩
  · intro h
    obtain ⟨x, hx⟩ := h
    exact ⟨x.1, by rw [hx]; rfl⟩

/-- Clients that unlock what they hold leave no negative count. -/
theorem traversable_of_reach {s : TableState} (h : Reachable lockMachine s) (f : FileName) :
    Traversable f s.store.slots := by
  obtain ⟨t, hrel, hinv⟩ := lockMachine_refines h
  intro p m hm hneg
  have := counts_nonneg hrel hinv m (List.mem_of_getElem? hm)
  omega

end Table

/-! ### The hash table -/

namespace Hash

section Runs
variable {L C : Type} {peek : HashTable → FileName → Option L} {head : HashTable → FileName → Option L → Option Nat}
  {t t' : HashTable} {chains : Fin nhash → List Nat}

/-- Wherever a lookup goes on from, it leaves chains. -/
theorem Shape.get_kept (h : Shape t chains) {start : Option Nat} {f : FileName} {opType : UInt8} {nmtx r : Option Nat}
    (hget : getZzMutex t start f opType nmtx = some (r, t')) : ∃ chains', Shape t' chains' := by
  simp only [getZzMutex, Option.bind_eq_bind, Option.bind_eq_some_iff] at hget
  obtain ⟨found, -, hget⟩ := hget
  split at hget
  · cases found with
    | none =>
      cases nmtx with
      | none =>
        cases hget
        exact ⟨chains, h⟩
      | some p =>
        cases hp : t.heap p with
        | some m => simp [hp] at hget
        | none =>
          simp only [hp, h.insert hp f, Option.isSome_none, Bool.false_eq_true, if_false, Option.bind_some,
            Option.some.injEq, Prod.mk.injEq] at hget
          rw [← hget.2]
          exact ⟨_, h.push hp⟩
    | some p =>
      cases hp : t.heap p with
      | none => simp [HashTable.write, hp] at hget
      | some m =>
        simp only [write_eq hp, Option.bind_some, Option.some.injEq, Prod.mk.injEq] at hget
        rw [← hget.2]
        exact ⟨chains, h.alter hp _ rfl rfl rfl⟩
  · cases hget
    exact ⟨chains, h⟩

theorem Shape.setMutex_kept (h : Shape t chains) (p : Nat) (taken : Bool) :
    ∃ chains', Shape ((t.write p ({· with pMutex := taken})).getD t) chains' := by
  refine ⟨chains, ?_⟩
  cases hp : t.heap p with
  | none =>
    simp only [HashTable.write, hp, Option.map_none, Option.getD_none]
    exact h
  | some m =>
    simp only [write_eq hp, Option.getD_some]
    exact h.alter hp _ rfl rfl rfl

theorem Shape.put_kept (h : Shape t chains) {p : Nat} (hput : putZzMutex t p = some t') :
    ∃ chains', Shape t' chains' := by
  cases hp : t.heap p with
  | none => simp [putZzMutex, hp] at hput
  | some m =>
    obtain ⟨t₁, chains', hput', hshape, -⟩ := h.put hp
    cases hput.symm.trans hput'
    exact ⟨chains', hshape⟩

/-- Every interleaving of any requests leaves chains, wherever the lookups begin. -/
theorem shape_of_reach {K : Clients C} {fresh : C → Prop} {s : State HashTable Nat L C}
    (h : Reachable (machine (serverOf peek head) K mutexHashInit fresh) s) : ∃ chains, Shape s.store chains := by
  refine h.invariant (I := fun s => ∃ chains, Shape s.store chains) ?_ ?_
  · intro s hs
    rw [hs.1]
    exact ⟨_, init_shape⟩
  · intro s mv s' hshape _ (hnext : next (serverOf peek head) K s mv = some s')
    obtain ⟨chains, hshape⟩ := hshape
    cases mv with
    | accept arg =>
      obtain ⟨clients, holder, -, rfl⟩ := next_accept hnext
      exact ⟨chains, hshape⟩
    | reply i =>
      obtain ⟨arg, holder, res, -, rfl⟩ := next_reply hnext
      exact ⟨chains, hshape⟩
    | step i a =>
      obtain ⟨th, pc, store, -, hfunc, rfl⟩ := next_step hnext
      rcases Server.threadFunc_cases hfunc with ⟨_, _, _, _, rfl⟩ | ⟨seen, _, _, hlook⟩ | ⟨m, _, hcall⟩ |
        ⟨m, res, _, hput, _⟩
      · exact ⟨chains, hshape⟩
      · obtain ⟨r, hget, -⟩ := Server.lookup_eq_some.mp hlook
        exact hshape.get_kept hget
      · rcases Server.call_cases hcall with ⟨_, _, rfl, _⟩ | ⟨_, _, rfl, _⟩ | ⟨_, _, rfl, _⟩ | ⟨_, _, rfl, _⟩
        · exact hshape.setMutex_kept m true
        · exact hshape.setMutex_kept m true
        · exact hshape.setMutex_kept m false
        · exact ⟨chains, hshape⟩
      · exact hshape.put_kept hput

end Runs

theorem Shape.harmless_iff {t : HashTable} {chains : Fin nhash → List Nat} (h : Shape t chains) {arg : ThreadArg} :
    Harmless server arg t ↔ Unknown arg.opType ∧ ∃ p m, t.heap p = some m ∧ m.fileName = arg.fileName := by
  have hserve : Harmless server arg t ↔ Unknown arg.opType ∧
      ∀ a, ∃ m, getZzMutex t (t.mutexHash (hashFunc arg.fileName)) arg.fileName arg.opType a = some (some m, t) := by
    have hone (a : Option Nat) : server.serve flagMutex arg a t = some (.notOk .unrecognizedOpType, t) ↔
        Unknown arg.opType ∧
        ∃ m, getZzMutex t (t.mutexHash (hashFunc arg.fileName)) arg.fileName arg.opType a = some (some m, t) :=
      Server.uninterrupted_lookup (n := 0) rfl
    constructor
    · exact fun h => ⟨((hone none).mp (h none)).1, fun a => ((hone a).mp (h a)).2⟩
    · exact fun h a => (hone a).mpr ⟨h.1, h.2 a⟩
  rw [hserve]
  refine and_congr_right fun hunknown => ?_
  simp only [getZzMutex, hunknown.not_acquires, Bool.false_eq_true, if_false, Option.bind_eq_bind]
  obtain ⟨p, m, htrav, hm, hname⟩ | ⟨htrav, habsent⟩ := h.traverse (h.serves arg.fileName)
  · simp only [htrav, Option.bind_some, Option.some.injEq, Prod.mk.injEq, and_true, exists_eq', forall_const, true_iff]
    exact ⟨p, m, hm, hname⟩
  · simp only [htrav, Option.bind_some, Option.some.injEq, Prod.mk.injEq, reduceCtorEq, false_and, exists_false,
      forall_const, false_iff]
    intro h
    obtain ⟨p, m, hm, hname⟩ := h
    exact habsent p m hm hname

end Hash

/-- **An unknown code is harmless** just when its low byte is none of the three operations',
and the lookup gives something: the table's always does, unless it meets a negative count
first, and the hash table's when the file has an entry. -/
theorem unknown_harmless (pkt : ReqPacket) (client : Nat) :
    (∀ t : Table.MutexTable, Harmless Table.server (pkt.threadArg client) t ↔
      Unknown pkt.opType.toUInt8 ∧ Table.Traversable pkt.fileName t.slots) ∧
    (∀ s, Reachable Table.lockMachine s → Table.Traversable pkt.fileName s.store.slots) ∧
    ∀ (C : Type) (K : Clients C) (fresh : C → Prop) s,
      Reachable (machine Hash.server K Hash.mutexHashInit fresh) s →
      (Harmless Hash.server (pkt.threadArg client) s.store ↔
        Unknown pkt.opType.toUInt8 ∧ ∃ p m, s.store.heap p = some m ∧ m.fileName = pkt.fileName) := by
  refine ⟨fun t => Table.harmless_iff, fun s hs => Table.traversable_of_reach hs _, fun C K fresh s hs => ?_⟩
  obtain ⟨chains, hshape⟩ := Hash.shape_of_reach hs
  exact hshape.harmless_iff

/-- The code 256 locks a file of the table, and the code 3 is answered by the lookup of the hash
table, where the file has no entry. -/
theorem unknown_harmful : ∃ (pkt pkt' : ReqPacket) (t : Table.MutexTable), pkt.opType = 256 ∧ pkt'.opType = 3 ∧
    Reachable Table.lockMachine ⟨Table.mutexTableInit, [], []⟩ ∧
    Table.server.serve flagMutex (pkt.threadArg 7) () Table.mutexTableInit = some (.ok, t) ∧
    t.slots[0]? = some ⟨1, true, pkt.fileName⟩ ∧ ¬ Harmless Table.server (pkt.threadArg 7) Table.mutexTableInit ∧
    Reachable Hash.lockMachine ⟨Hash.mutexHashInit, [], []⟩ ∧
    (∀ a, (Hash.server.serve flagMutex (pkt'.threadArg 7) a Hash.mutexHashInit).map Prod.fst =
      some (.notOk .allocMutexFail)) ∧ ¬ Harmless Hash.server (pkt'.threadArg 7) Hash.mutexHashInit := by
  let f : FileName := ⟨[102], by decide, by decide⟩
  have htable : (Table.server.serve flagMutex ((ReqPacket.mk 256 f).threadArg 7) () Table.mutexTableInit).map Prod.fst =
      some .ok := by decide +kernel
  obtain ⟨⟨res, t⟩, hserve, rfl⟩ := Option.map_eq_some_iff.mp htable
  have hslot : (Table.server.serve flagMutex ((ReqPacket.mk 256 f).threadArg 7) () Table.mutexTableInit).map
      (fun x => x.2.slots[0]?) = some (some ⟨1, true, f⟩) := by decide +kernel
  rw [hserve, Option.map_some, Option.some.injEq] at hslot
  have hhash (a : Option Nat) : (Hash.server.serve flagMutex ((ReqPacket.mk 3 f).threadArg 7) a
      Hash.mutexHashInit).map Prod.fst = some (.notOk .allocMutexFail) := rfl
  refine ⟨⟨256, f⟩, ⟨3, f⟩, t, rfl, rfl, .start ⟨rfl, rfl, rfl⟩, hserve, hslot, fun h => ?_, .start ⟨rfl, rfl, rfl⟩,
    hhash, fun h => ?_⟩
  · have hres := congrArg (Option.map Prod.fst) (h ())
    rw [htable] at hres
    exact absurd hres (by decide)
  · have hres := congrArg (Option.map Prod.fst) (h none)
    rw [hhash] at hres
    exact absurd hres (by decide)

/-- The code 3 on the two fresh servers: harmless on the table, and not on the hash table. -/
theorem unknown_harmless_three : ∃ pkt : ReqPacket, pkt.opType = 3 ∧
    Harmless Table.server (pkt.threadArg 7) Table.mutexTableInit ∧
    ¬ Harmless Hash.server (pkt.threadArg 7) Hash.mutexHashInit := by
  let pkt : ReqPacket := ⟨3, ⟨[102], by decide, by decide⟩⟩
  obtain ⟨htable, htraversable, hhash⟩ := unknown_harmless pkt 7
  refine ⟨pkt, rfl, (htable _).mpr ⟨by decide +kernel, ?_⟩, fun h => ?_⟩
  · exact htraversable ⟨Table.mutexTableInit, [], []⟩ (.start ⟨rfl, rfl, rfl⟩)
  · obtain ⟨-, p, m, hm, -⟩ :=
      (hhash _ disciplined (· = []) ⟨Hash.mutexHashInit, [], []⟩ (.start ⟨rfl, rfl, rfl⟩)).mp h
    cases hm

end CacheFs.Mutex
