import CacheFs.Mutex.Refinement

/-! The table-based lock server (`md_mutex_server_process.c`).

`MUTEX_NUM` slots; a slot is in use while its count is positive, for the file
whose name it has. A lookup finds the slot in use for a file or takes the first
free one, whose old name it overwrites. Pointers to slots are their indices, with
`MUTEX_NUM` the address past the end that an unsuccessful traversal leaves. -/
namespace CacheFs.Mutex.Table
open Transition Registry

/-- `MUTEX_NUM`. -/
def mutexNum : Nat := 8

/-- `z_mutex`. The `int` count is unbounded here: it never exceeds the number of
threads. -/
structure ZMutex where
  count : Int
  pMutex : Bool
  fileName : FileName
  deriving DecidableEq

/-- `mutex_table`. -/
structure MutexTable where
  slots : List ZMutex
  length_eq : slots.length = mutexNum
  deriving DecidableEq

namespace MutexTable

/-- A write through the pointer `p`. -/
def modify (t : MutexTable) (p : Nat) (g : ZMutex → ZMutex) : MutexTable :=
  ⟨t.slots.modify p g, by rw [List.length_modify, t.length_eq]⟩

@[simp] theorem getElem?_modify (t : MutexTable) (p : Nat) (g : ZMutex → ZMutex) (q : Nat) :
    (t.modify p g).slots[q]? = if p = q then t.slots[q]?.map g else t.slots[q]? := by
  rw [modify, List.getElem?_modify]
  split <;> simp

end MutexTable

/-- The empty name that `bzero` leaves. -/
def noName : FileName := ⟨[], by decide, by decide⟩

/-- `mutex_table_init`. -/
def mutexTableInit : MutexTable := ⟨List.replicate mutexNum ⟨0, false, noName⟩, List.length_replicate⟩

/-- The `for` loop of `get_z_mutex`, from index `i` with the first free slot seen so
far: the index it stops at and the first free slot. A negative count ends the
process. -/
def traverse (f : FileName) : List ZMutex → Nat → Option Nat → Option (Nat × Option Nat)
  | [], i, firstFree => some (i, firstFree)
  | m :: rest, i, firstFree =>
    if m.count = 0 then traverse f rest (i + 1) (if firstFree = none then some i else firstFree)
    else if m.count > 0 then
      if m.fileName = f then some (i, firstFree) else traverse f rest (i + 1) firstFree
    else none

/-- `get_z_mutex`. -/
def getZMutex (t : MutexTable) (f : FileName) (opType : UInt8) : Option (Option Nat × MutexTable) := do
  let (i, firstFree) ← traverse f t.slots 0 none
  if acquires opType then
    if i = mutexNum then
      match firstFree with
      | none => some (none, t)
      | some k => some (some k, t.modify k fun m => {m with fileName := f, count := 1})
    else some (some i, t.modify i fun m => {m with count := m.count + 1})
  else if opType = mdUnlock then
    if i = mutexNum then some (none, t) else some (some i, t)
  else some (some i, t)

/-- `put_z_mutex`. -/
def putZMutex (t : MutexTable) (p : Nat) : Option MutexTable :=
  if p < mutexNum then some (t.modify p fun m => {m with count := m.count - 1}) else none

/-- The server: its lookup is wholly under `glob_mutex` and never allocates. -/
def server : Server MutexTable Nat Empty Unit where
  peek := fun _ _ => none
  get := fun t f opType _ _ => getZMutex t f opType
  mutex := fun t p => t.slots[p]?.map ZMutex.pMutex
  setMutex := fun t p taken => t.modify p ({· with pMutex := taken})
  put := putZMutex

/-! ### The slots in use -/

/-- The slots in use. -/
def view (t : MutexTable) (p : Nat) : Option (FileName × Entry) :=
  t.slots[p]?.bind fun m => if m.count = 0 then none else some (m.fileName, ⟨m.count, m.pMutex⟩)

theorem view_some {t : MutexTable} {p : Nat} {f : FileName} {e : Entry} :
    view t p = some (f, e) ↔ t.slots[p]? = some ⟨e.count, e.locked, f⟩ ∧ e.count ≠ 0 := by
  constructor
  · intro h
    obtain ⟨m, hm, hview⟩ := Option.bind_eq_some_iff.mp h
    split at hview
    · cases hview
    · rename_i hcount
      cases hview
      exact ⟨hm, hcount⟩
  · intro h
    obtain ⟨hm, hcount⟩ := h
    simp [view, hm, hcount]

/-- A slot that a write leaves in use, or frees, changes that cell only. -/
theorem view_modify {t : MutexTable} {p : Nat} {m : ZMutex} (hm : t.slots[p]? = some m)
    (g : ZMutex → ZMutex) :
    view (t.modify p g) = Function.update (view t) p
      (if (g m).count = 0 then none else some ((g m).fileName, ⟨(g m).count, (g m).pMutex⟩)) := by
  funext q
  by_cases hq : p = q
  · subst hq
    simp [view, hm]
  · rw [Function.update_of_ne (Ne.symm hq)]
    simp [view, hq]

/-- A first free slot once seen is kept. -/
theorem traverse_free {f : FileName} {l : List ZMutex} {i j k : Nat} {free' : Option Nat}
    (h : traverse f l i (some k) = some (j, free')) : free' = some k := by
  induction l generalizing i with
  | nil =>
    cases h
    rfl
  | cons m rest ih =>
    simp only [traverse, reduceCtorEq, if_false] at h
    split at h
    · exact ih h
    · split at h
      · split at h
        · cases h
          rfl
        · exact ih h
      · cases h

/-- Where the traversal stops: at a slot in use for the file, or past the end with
none, having seen the first free slot if there is one. -/
theorem traverse_spec {f : FileName} {l : List ZMutex} {i j : Nat} {free free' : Option Nat}
    (h : traverse f l i free = some (j, free')) :
    (∃ k m, l[k]? = some m ∧ j = i + k ∧ 0 < m.count ∧ m.fileName = f) ∨
    (j = i + l.length ∧ (∀ m ∈ l, m.count ≠ 0 → m.fileName ≠ f) ∧
      (free' = none → ∀ m ∈ l, m.count ≠ 0) ∧
      ∀ k, free' = some k → free = some k ∨ ∃ n m, k = i + n ∧ l[n]? = some m ∧ m.count = 0) := by
  induction l generalizing i free with
  | nil =>
    cases h
    exact .inr ⟨rfl, by simp, by simp, fun k hk => .inl hk⟩
  | cons m rest ih =>
    -- what the rest of the traversal says, with `m` passed over
    have pass {free₁ : Option Nat} (hrest : traverse f rest (i + 1) free₁ = some (j, free'))
        (hname : m.count ≠ 0 → m.fileName ≠ f) (hnone : free' = none → m.count ≠ 0)
        (hfree : ∀ k, free₁ = some k → free = some k ∨ k = i ∧ m.count = 0) :
        (∃ k m', (m :: rest)[k]? = some m' ∧ j = i + k ∧ 0 < m'.count ∧ m'.fileName = f) ∨
        (j = i + (m :: rest).length ∧ (∀ m' ∈ m :: rest, m'.count ≠ 0 → m'.fileName ≠ f) ∧
          (free' = none → ∀ m' ∈ m :: rest, m'.count ≠ 0) ∧
          ∀ k, free' = some k →
            free = some k ∨ ∃ n m', k = i + n ∧ (m :: rest)[n]? = some m' ∧ m'.count = 0) := by
      obtain ⟨k, x, hx, rfl, hpos, hx'⟩ | ⟨rfl, hnames, hall, hfrees⟩ := ih hrest
      · exact .inl ⟨k + 1, x, by rw [List.getElem?_cons_succ, hx], by omega, hpos, hx'⟩
      · refine .inr ⟨by rw [List.length_cons]; omega, List.forall_mem_cons.mpr ⟨hname, hnames⟩,
          fun hn => List.forall_mem_cons.mpr ⟨hnone hn, hall hn⟩, fun k hk => ?_⟩
        obtain hk | ⟨n, x, rfl, hx, hzero⟩ := hfrees k hk
        · obtain hk | ⟨rfl, hzero⟩ := hfree k hk
          · exact .inl hk
          · exact .inr ⟨0, m, rfl, rfl, hzero⟩
        · exact .inr ⟨n + 1, x, by omega, by rw [List.getElem?_cons_succ, hx], hzero⟩
    simp only [traverse] at h
    split at h
    · rename_i hzero
      refine pass h (absurd hzero) (fun hn => ?_) (fun k hk => ?_)
      · -- `m` is free, so a first free slot is seen and kept
        cases free with
        | none => exact absurd (hn.symm.trans (traverse_free (by simpa using h))) (by simp)
        | some k => exact absurd (hn.symm.trans (traverse_free (by simpa using h))) (by simp)
      · split at hk
        · exact .inr ⟨(Option.some.inj hk).symm, hzero⟩
        · exact .inl hk
    · rename_i hzero
      split at h
      · rename_i hpos
        split at h
        · rename_i hname
          cases h
          exact .inl ⟨0, m, rfl, rfl, hpos, hname⟩
        · rename_i hname
          exact pass h (fun _ => hname) (fun _ => hzero) (fun k hk => .inl hk)
      · cases h

/-- With no negative count the traversal does not end the process. -/
theorem traverse_returns {f : FileName} {l : List ZMutex} (h : ∀ m ∈ l, 0 ≤ m.count) (i : Nat)
    (free : Option Nat) : ∃ x, traverse f l i free = some x := by
  induction l generalizing i free with
  | nil => exact ⟨_, rfl⟩
  | cons m l ih =>
    have hm := h m List.mem_cons_self
    have hl := fun x hx => h x (List.mem_cons_of_mem m hx)
    simp only [traverse]
    split
    · exact ih hl _ _
    · split
      · split
        · exact ⟨_, rfl⟩
        · exact ih hl _ _
      · omega

theorem getZMutex_returns {t : MutexTable} (h : ∀ m ∈ t.slots, 0 ≤ m.count) (f : FileName) (opType : UInt8) :
    ∃ x, getZMutex t f opType = some x := by
  obtain ⟨⟨i, free⟩, htrav⟩ := traverse_returns (f := f) h 0 none
  simp only [getZMutex, htrav, Option.bind_eq_bind, Option.bind_some]
  split
  · split
    · cases free <;> exact ⟨_, rfl⟩
    · exact ⟨_, rfl⟩
  · split
    · split <;> exact ⟨_, rfl⟩
    · exact ⟨_, rfl⟩

/-- A free slot's lock is free. -/
def FreeClear (t : MutexTable) : Prop := ∀ m ∈ t.slots, m.count = 0 → m.pMutex = false

theorem FreeClear.modify {t : MutexTable} (h : FreeClear t) {p : Nat} {g : ZMutex → ZMutex}
    (hg : ∀ m, t.slots[p]? = some m → (g m).count = 0 → (g m).pMutex = false) :
    FreeClear (t.modify p g) := by
  intro m hm
  obtain ⟨q, hq⟩ := List.getElem?_of_mem hm
  rw [MutexTable.getElem?_modify] at hq
  split at hq
  · rename_i hpq
    subst hpq
    obtain ⟨x, hx, rfl⟩ := Option.map_eq_some_iff.mp hq
    exact hg x hx
  · exact h m (List.mem_of_getElem? hq)

/-- What a lookup stops at, in the table. -/
theorem getZMutex_cases {t t' : MutexTable} {f : FileName} {opType : UInt8} {r : Option Nat}
    (h : getZMutex t f opType = some (r, t')) :
    (∃ p m, t.slots[p]? = some m ∧ 0 < m.count ∧ m.fileName = f ∧ r = some p ∧
      t' = if acquires opType then t.modify p fun m => {m with count := m.count + 1} else t) ∨
    ((∀ m ∈ t.slots, m.count ≠ 0 → m.fileName ≠ f) ∧
      ((acquires opType = true ∧ (∀ m ∈ t.slots, m.count ≠ 0) ∧ r = none ∧ t' = t) ∨
       (acquires opType = true ∧ ∃ p m, t.slots[p]? = some m ∧ m.count = 0 ∧ r = some p ∧
          t' = t.modify p fun m => {m with fileName := f, count := 1}) ∨
       (acquires opType = false ∧ (opType = mdUnlock → r = none) ∧ t' = t))) := by
  simp only [getZMutex, Option.bind_eq_bind, Option.bind_eq_some_iff, Prod.exists] at h
  obtain ⟨j, free, htrav, h⟩ := h
  obtain ⟨k, m, hk, hj, hpos, hname⟩ | ⟨hj, hnames, hnone, hfree⟩ := traverse_spec htrav
  · have hlt : k < mutexNum := by
      rw [← t.length_eq]
      exact (List.getElem?_eq_some_iff.mp hk).1
    have hne : j ≠ mutexNum := by omega
    have hjk : j = k := by omega
    subst hjk
    refine .inl ⟨j, m, hk, hpos, hname, ?_⟩
    simp only [hne, if_false] at h
    split at h
    · rename_i hop
      cases h
      exact ⟨rfl, (if_pos hop).symm⟩
    · rename_i hop
      split at h <;> cases h <;> exact ⟨rfl, (if_neg hop).symm⟩
  · have hend : j = mutexNum := by rw [hj, t.length_eq, Nat.zero_add]
    refine .inr ⟨hnames, ?_⟩
    simp only [hend, if_true] at h
    split at h
    · rename_i hop
      split at h
      · cases h
        exact .inl ⟨hop, hnone rfl, rfl, rfl⟩
      · rename_i k
        cases h
        obtain hk | ⟨n, m, rfl, hm, hzero⟩ := hfree k rfl
        · cases hk
        · exact .inr (.inl ⟨hop, n, m, hm, hzero, by rw [Nat.zero_add], by rw [Nat.zero_add]⟩)
    · rename_i hop
      have hop' : acquires opType = false := by simpa using hop
      split at h
      · cases h
        exact .inr (.inr ⟨hop', fun _ => rfl, rfl⟩)
      · rename_i hunlock
        cases h
        exact .inr (.inr ⟨hop', fun hu => absurd hu hunlock, rfl⟩)

/-- The table does what a table owes. -/
def lawful : server.Lawful where
  Inv := FreeClear
  view := view
  Current := fun _ _ _ => True
  get_inv := by
    intro t t' f opType _ _ r hinv _ hget
    rcases getZMutex_cases hget with ⟨p, m, hm, hpos, _, _, rfl⟩ | ⟨_, ⟨_, _, _, rfl⟩ |
      ⟨_, p, m, hm, _, _, rfl⟩ | ⟨_, _, rfl⟩⟩
    · split
      · refine hinv.modify fun x hx hzero => ?_
        rw [hm] at hx
        cases hx
        simp only at hzero
        omega
      · exact hinv
    · exact hinv
    · exact hinv.modify fun x _ hone => absurd hone (by simp)
    · exact hinv
  get_looked := by
    intro t t' f opType _ _ r hinv _ hget
    have absent (hnames : ∀ m ∈ t.slots, m.count ≠ 0 → m.fileName ≠ f) : Absent (view t) f := by
      intro p e hp
      obtain ⟨hm, hcount⟩ := view_some.mp hp
      exact hnames _ (List.mem_of_getElem? hm) hcount rfl
    rcases getZMutex_cases hget with ⟨p, m, hm, hpos, rfl, rfl, rfl⟩ | ⟨hnames, ⟨hop, _, rfl, rfl⟩ |
      ⟨hop, p, m, hm, hzero, rfl, rfl⟩ | ⟨hop, hr, rfl⟩⟩
    · have hview : view t p = some (m.fileName, ⟨m.count, m.pMutex⟩) :=
        view_some.mpr ⟨hm, by simp only; omega⟩
      split
      · rename_i hop
        refine .found hop hview ?_
        rw [view_modify hm, if_neg (by simp only; omega)]
      · rename_i hop
        by_cases hunlock : opType = mdUnlock
        · exact .unlock hunlock hview rfl
        · exact .other (by simpa using hop) hunlock rfl
    · exact .refused hop (absent hnames) rfl
    · refine .made hop (absent hnames) (by simp [view, hm, hzero]) ?_
      have hclear := hinv m (List.mem_of_getElem? hm) hzero
      rw [view_modify hm, if_neg (by simp), hclear]
    · by_cases hunlock : opType = mdUnlock
      · rw [hr hunlock]
        exact .missing hunlock (absent hnames) rfl
      · exact .other hop hunlock rfl
  mutex_eq := by
    intro t p f e _ hp
    simp [server, (view_some.mp hp).1]
  setMutex_inv := by
    intro t p f e taken hinv hp
    obtain ⟨hm, hcount⟩ := view_some.mp hp
    refine hinv.modify fun x hx hzero => ?_
    rw [hm] at hx
    cases hx
    exact absurd hzero hcount
  setMutex_view := by
    intro t p f e taken _ hp
    obtain ⟨hm, hcount⟩ := view_some.mp hp
    simp only [server]
    rw [view_modify hm, if_neg (by simpa using hcount)]
  put_inv := by
    intro t t' p f e hinv hp hlast hput
    obtain ⟨hm, hcount⟩ := view_some.mp hp
    simp only [server, putZMutex] at hput
    split at hput
    · cases hput
      refine hinv.modify fun x hx hzero => ?_
      rw [hm] at hx
      cases hx
      exact hlast (by simp only [Entry.put]; rw [if_pos hzero])
    · cases hput
  put_view := by
    intro t t' p f e _ hp hput
    obtain ⟨hm, hcount⟩ := view_some.mp hp
    simp only [server, putZMutex] at hput
    split at hput
    · cases hput
      rw [view_modify hm]
      simp only [Entry.put]
      split <;> rfl
    · cases hput

theorem init_clear : FreeClear mutexTableInit := by
  intro m hm _
  rw [List.eq_of_mem_replicate hm]

theorem init_view (p : Nat) : view mutexTableInit p = none := by
  rw [Option.eq_none_iff_forall_not_mem]
  intro cell hp
  obtain ⟨f, e⟩ := cell
  obtain ⟨hm, hcount⟩ := view_some.mp hp
  have := List.eq_of_mem_replicate (List.mem_of_getElem? hm)
  cases e
  simp only [ZMutex.mk.injEq] at this
  exact hcount this.1

end CacheFs.Mutex.Table
