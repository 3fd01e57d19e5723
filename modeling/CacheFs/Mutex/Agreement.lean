import Mathlib.Data.Finset.Card
import CacheFs.Mutex.Chains
import CacheFs.Mutex.Table

/-! The two lock servers answer alike.

With each request handled to completion before the next, a lock server is the set
of the names that are locked: `setServe`. A table at rest (`AtRest`) has one entry
for each of them, of count one and locked, and serving a request keeps it so with
the reply of the set (`AtRest.serve`). That holds of every table that is `Ready`:
whose calls return, and which refuses a lookup only with `MUTEX_NUM` names in
use. -/
namespace CacheFs.Mutex
open Registry

/-- What a server that keeps just the set of locked names answers. -/
def setServe (locked : Finset FileName) (arg : ThreadArg) : ResPacket × Finset FileName :=
  if arg.opType = mdUnlock then
    if arg.fileName ∈ locked then (.ok, locked.erase arg.fileName) else (.notOk .allocMutexFail, locked)
  else if arg.fileName ∈ locked then (.notOk .tryLockFail, locked)
  else (.ok, insert arg.fileName locked)

/-- A request that may come next: an operation of the protocol, `MD_LOCK` only on a
name that is not locked, and at most `capacity` names locked after it. -/
structure Legal (capacity : Nat) (locked : Finset FileName) (arg : ThreadArg) : Prop where
  operation : acquires arg.opType = true ∨ arg.opType = mdUnlock
  lock_free : arg.opType = mdLock → arg.fileName ∉ locked
  fits : (setServe locked arg).2.card ≤ capacity

instance (capacity : Nat) (locked : Finset FileName) (arg : ThreadArg) :
    Decidable (Legal capacity locked arg) :=
  decidable_of_iff ((acquires arg.opType = true ∨ arg.opType = mdUnlock) ∧
      (arg.opType = mdLock → arg.fileName ∉ locked) ∧ (setServe locked arg).2.card ≤ capacity)
    ⟨fun ⟨h₁, h₂, h₃⟩ => ⟨h₁, h₂, h₃⟩, fun ⟨h₁, h₂, h₃⟩ => ⟨h₁, h₂, h₃⟩⟩

/-- A sequence of requests, each legal in its turn. -/
def AllLegal (capacity : Nat) : Finset FileName → List ThreadArg → Prop
  | _, [] => True
  | locked, arg :: args => Legal capacity locked arg ∧ AllLegal capacity (setServe locked arg).2 args

instance decidableAllLegal (capacity : Nat) :
    ∀ locked args, Decidable (AllLegal capacity locked args)
  | _, [] => isTrue trivial
  | locked, arg :: args =>
    have := decidableAllLegal capacity (setServe locked arg).2 args
    inferInstanceAs (Decidable (_ ∧ _))

/-- The replies of the set. -/
def setReplies : Finset FileName → List ThreadArg → List ResPacket
  | _, [] => []
  | locked, arg :: args => (setServe locked arg).1 :: setReplies (setServe locked arg).2 args

variable {S P L A : Type}

/-- A server handling requests one after the other, its allocator answering as it
may: the replies and the store after them. -/
inductive Replies (V : Server S P L A) (answers : S → A → Prop) :
    S → List ThreadArg → List ResPacket → S → Prop where
  | nil {s} : Replies V answers s [] [] s
  | cons {s s' s'' a arg args res ress} : answers s a → V.serve flagMutex arg a s = some (res, s') →
      Replies V answers s' args ress s'' → Replies V answers s (arg :: args) (res :: ress) s''

/-! ### Tables at rest -/

/-- The entries of the locked names, and no others. -/
def resting (locked : Finset FileName) : Named := fun f => if f ∈ locked then some ⟨1, true⟩ else none

theorem resting_insert (locked : Finset FileName) (f : FileName) :
    Function.update (resting locked) f (some ⟨1, true⟩) = resting (insert f locked) := by
  funext g
  by_cases hg : g = f
  · subst hg
    simp [resting]
  · simp [resting, hg]

theorem resting_erase (locked : Finset FileName) (f : FileName) :
    Function.update (resting locked) f none = resting (locked.erase f) := by
  funext g
  by_cases hg : g = f
  · subst hg
    simp [resting]
  · simp [resting, hg]

theorem resting_some {locked : Finset FileName} {f : FileName} {e : Entry} :
    resting locked f = some e ↔ f ∈ locked ∧ e = ⟨1, true⟩ := by
  by_cases hf : f ∈ locked <;> simp [resting, hf, eq_comm]

theorem resting_none {locked : Finset FileName} {f : FileName} : resting locked f = none ↔ f ∉ locked := by
  by_cases hf : f ∈ locked <;> simp [resting, hf]

variable [DecidableEq P] {V : Server S P L A}

/-- No request in progress, and the names of `locked` locked. -/
structure AtRest (W : V.Lawful) (s : S) (locked : Finset FileName) : Prop where
  inv : W.Inv s
  entries : Represents (W.view s) (resting locked)

/-- The calls on a table at rest, or with one request in progress, return, and a
lookup that may make an entry is refused only when `capacity` names are in use. -/
structure Server.Lawful.Ready (W : V.Lawful) (answers : S → A → Prop) (capacity : Nat) : Prop where
  answers_exist : ∀ {s}, W.Inv s → ∃ a, answers s a
  peek_current : ∀ {s f l}, W.Inv s → V.peek s f = some l → W.Current s f l
  get_returns : ∀ {s f opType seen a}, W.Inv s → (∀ p f e, W.view s p = some (f, e) → 0 < e.count) →
    (∀ l, seen = some l → W.Current s f l) → answers s a → ∃ r s', V.get s f opType seen a = some (r, s')
  refused_full : ∀ {s s' f opType seen a m}, W.Inv s → Represents (W.view s) m →
    (∀ l, seen = some l → W.Current s f l) → answers s a → acquires opType = true →
    V.get s f opType seen a = some (none, s') → ∀ used : Finset FileName,
    (∀ g, m g ≠ none → g ∈ used) → capacity ≤ used.card
  put_returns : ∀ {s p f e}, W.Inv s → W.view s p = some (f, e) → ∃ s', V.put s p = some s'

/-! ### One request -/

omit [DecidableEq P] in
/-- More steps do not change a request that has been answered. -/
theorem Server.uninterrupted_mono {pt : Pthread} {arg : ThreadArg} {a : A} {m n : Nat} {s : S}
    {pc : Pc P L} {x : ResPacket × S} (h : V.uninterrupted pt arg a m s pc = some x) (hmn : m ≤ n) :
    V.uninterrupted pt arg a n s pc = some x := by
  induction m generalizing n s pc with
  | zero =>
    cases pc with
    | reply res => cases n <;> exact h
    | get _ | call _ | put _ _ | exited => cases h
  | succ m ih =>
    cases n with
    | zero => omega
    | succ n =>
      cases pc with
      | reply res => exact h
      | get _ | call _ | put _ _ | exited =>
        simp only [uninterrupted, Option.bind_eq_bind, Option.bind_eq_some_iff] at h ⊢
        obtain ⟨x, hx, h⟩ := h
        exact ⟨x, hx, ih h (Nat.le_of_succ_le_succ hmn)⟩

/-- A request is its lookup, from what is current, and what follows. -/
theorem Server.Lawful.Ready.serve {W : V.Lawful} {answers : S → A → Prop} {capacity : Nat}
    (R : W.Ready answers capacity) {s : S} {a : A} (hinv : W.Inv s)
    (hcount : ∀ p f e, W.view s p = some (f, e) → 0 < e.count) (ha : answers s a) (arg : ThreadArg) :
    ∃ seen r s', (∀ l, seen = some l → W.Current s arg.fileName l) ∧
      V.get s arg.fileName arg.opType seen a = some (r, s') ∧
      ∀ x, V.uninterrupted flagMutex arg a 2 s' (afterGet r) = some x → V.serve flagMutex arg a s = some x := by
  have lookup {seen : Option L} {r : Option P} {s' : S}
      (hget : V.get s arg.fileName arg.opType seen a = some (r, s')) :
      V.lookup arg seen a s = some (afterGet r, s') := Server.lookup_eq_some.mpr ⟨r, hget, rfl⟩
  cases hpeek : V.peek s arg.fileName with
  | none =>
    obtain ⟨r, s', hget⟩ : ∃ r s', V.get s arg.fileName arg.opType none a = some (r, s') :=
      R.get_returns hinv hcount (by simp) ha
    refine ⟨none, r, s', by simp, hget, fun x hx => ?_⟩
    simp only [Server.serve, Server.uninterrupted, Server.threadFunc, hpeek, lookup hget,
      Option.bind_eq_bind, Option.bind_some]
    exact V.uninterrupted_mono hx (by decide)
  | some l =>
    have hcur : ∀ l', some l = some l' → W.Current s arg.fileName l' := fun l' hl =>
      R.peek_current hinv (hl ▸ hpeek)
    obtain ⟨r, s', hget⟩ : ∃ r s', V.get s arg.fileName arg.opType (some l) a = some (r, s') :=
      R.get_returns hinv hcount hcur ha
    refine ⟨some l, r, s', hcur, hget, fun x hx => ?_⟩
    simp only [Server.serve, Server.uninterrupted, Server.threadFunc, hpeek, lookup hget,
      Option.bind_eq_bind, Option.bind_some]
    exact hx

/-- The flag of an entry is set and its reference put back. -/
theorem Server.Lawful.Ready.setPut {W : V.Lawful} {answers : S → A → Prop} {capacity : Nat}
    (R : W.Ready answers capacity) {s : S} {p : P} {f : FileName} {e : Entry} (hinv : W.Inv s)
    (hp : W.view s p = some (f, e)) {taken : Bool} (hlast : Entry.put ⟨e.count, taken⟩ = none → taken = false) :
    ∃ s', V.put (V.setMutex s p taken) p = some s' ∧ W.Inv s' ∧
      W.view s' = Function.update (W.view s) p ((Entry.put ⟨e.count, taken⟩).map fun e' => (f, e')) := by
  have hinv' : W.Inv (V.setMutex s p taken) := W.setMutex_inv hinv hp
  have hview : W.view (V.setMutex s p taken) = _ := W.setMutex_view hinv hp
  have hp' : W.view (V.setMutex s p taken) p = some (f, {e with locked := taken}) := by
    rw [hview, Function.update_self]
  obtain ⟨s', hput⟩ := R.put_returns hinv' hp'
  refine ⟨s', hput, W.put_inv hinv' hp' hlast hput, ?_⟩
  rw [W.put_view hinv' hp' hput, hview, Function.update_idem]

/-- Serving a legal request of a table at rest answers as the set does, and leaves
the table at rest. -/
theorem AtRest.serve {W : V.Lawful} {answers : S → A → Prop} {capacity : Nat}
    (R : W.Ready answers capacity) {s : S} {locked : Finset FileName} (h : AtRest W s locked)
    {arg : ThreadArg} (hlegal : Legal capacity locked arg) {a : A} (ha : answers s a) :
    ∃ s', V.serve flagMutex arg a s = some ((setServe locked arg).1, s') ∧
      AtRest W s' (setServe locked arg).2 := by
  have hcount : ∀ p f e, W.view s p = some (f, e) → 0 < e.count := fun p f e hp => by
    rw [(resting_some.mp (h.entries.sound hp)).2]
    decide
  obtain ⟨seen, r, s₁, hcur, hget, hserve⟩ := R.serve h.inv hcount ha arg
  have hinv₁ := W.get_inv h.inv hcur hget
  have notLock (hop : acquires arg.opType = true) : arg.opType ≠ mdUnlock := by
    intro heq
    rw [heq] at hop
    cases hop
  cases W.get_looked h.inv hcur hget with
  | @found p e hop hp hview =>
    -- a try for a locked name: refused, and its reference put back
    obtain ⟨hmem, rfl⟩ := resting_some.mp (h.entries.sound hp)
    have htry : arg.opType = mdTryLock := by
      simp only [acquires, Bool.or_eq_true, beq_iff_eq] at hop
      exact hop.resolve_left fun hlock => hlegal.lock_free hlock hmem
    have hp₁ : W.view s₁ p = some (arg.fileName, ⟨1 + 1, true⟩) := by rw [hview, Function.update_self]
    have hcall := V.call_taken htry (W.mutex_eq hinv₁ hp₁)
    have hkeeps : Entry.put ⟨1 + 1, true⟩ = some ⟨1, true⟩ := rfl
    obtain ⟨s₃, hput, hinv₃, hview₃⟩ := R.setPut hinv₁ hp₁ fun hnone => by cases hkeeps.symm.trans hnone
    refine ⟨s₃, ?_, hinv₃, ?_⟩
    · refine hserve _ ?_
      simp [Server.uninterrupted, afterGet, Server.threadFunc, hcall, hput, setServe, notLock hop, hmem]
    · rw [hview₃, hview, Function.update_idem]
      have hkept := h.entries.alter hp ⟨1, true⟩
      rw [resting_insert, Finset.insert_eq_of_mem hmem] at hkept
      simpa [setServe, notLock hop, hmem, Entry.put] using hkept
  | @made p hop habsent hp hview =>
    have hfree : arg.fileName ∉ locked := resting_none.mp ((h.entries.absent_iff _).mp habsent)
    have hp₁ : W.view s₁ p = some (arg.fileName, ⟨1, false⟩) := by rw [hview, Function.update_self]
    have hcall := V.call_free hop (W.mutex_eq hinv₁ hp₁)
    have hview₂ : W.view (V.setMutex s₁ p true) = _ := W.setMutex_view hinv₁ hp₁
    refine ⟨V.setMutex s₁ p true, ?_, W.setMutex_inv hinv₁ hp₁, ?_⟩
    · refine hserve _ ?_
      simp [Server.uninterrupted, afterGet, Server.threadFunc, hcall, setServe, notLock hop, hfree]
    · rw [hview₂, hview, Function.update_idem]
      have hnew := h.entries.fill hp (resting_none.mpr hfree) ⟨1, true⟩
      rw [resting_insert] at hnew
      simpa [setServe, notLock hop, hfree] using hnew
  | refused hop habsent hview =>
    -- a refusal would leave more names in use than may be locked
    have hfree : arg.fileName ∉ locked := resting_none.mp ((h.entries.absent_iff _).mp habsent)
    have hfull := R.refused_full h.inv h.entries hcur ha hop hget locked fun g hg => by
      by_contra hout
      exact hg (resting_none.mpr hout)
    have hfits := hlegal.fits
    simp only [setServe, if_neg (notLock hop), if_neg hfree, Finset.card_insert_of_notMem hfree] at hfits
    omega
  | @unlock p e hop hp hview =>
    obtain ⟨hmem, rfl⟩ := resting_some.mp (h.entries.sound hp)
    have hp₁ : W.view s₁ p = some (arg.fileName, ⟨1, true⟩) := by rw [hview, hp]
    have hcall := V.call_unlock hop (W.mutex_eq hinv₁ hp₁)
    obtain ⟨s₃, hput, hinv₃, hview₃⟩ := R.setPut hinv₁ hp₁ fun _ => rfl
    refine ⟨s₃, ?_, hinv₃, ?_⟩
    · refine hserve _ ?_
      simp [Server.uninterrupted, afterGet, Server.threadFunc, hcall, hput, setServe, hop, hmem]
    · rw [hview₃, hview]
      have hgone := h.entries.erase hp
      rw [resting_erase] at hgone
      simpa [setServe, hop, hmem, Entry.put] using hgone
  | missing hop habsent hview =>
    have hfree : arg.fileName ∉ locked := resting_none.mp ((h.entries.absent_iff _).mp habsent)
    refine ⟨s₁, ?_, hinv₁, ?_⟩
    · simp only [setServe, if_pos hop, if_neg hfree]
      exact hserve _ rfl
    · simp only [setServe, if_pos hop, if_neg hfree, hview]
      exact h.entries
  | other hop hunlock hview =>
    obtain hacq | hun := hlegal.operation
    · exact absurd (hop.symm.trans hacq) (by decide)
    · exact absurd hun hunlock

/-- Every sequence of legal requests is answered as the set answers it. -/
theorem AtRest.replies {W : V.Lawful} {answers : S → A → Prop} {capacity : Nat}
    (R : W.Ready answers capacity) {s s' : S} {locked : Finset FileName} (h : AtRest W s locked)
    {args : List ThreadArg} {ress : List ResPacket} (hlegal : AllLegal capacity locked args)
    (hrun : Replies V answers s args ress s') : ress = setReplies locked args := by
  induction hrun generalizing locked with
  | nil => rfl
  | cons ha hserve _ ih =>
    obtain ⟨s₁, hserve', hrest⟩ := h.serve R hlegal.1 ha
    cases hserve.symm.trans hserve'
    rw [setReplies, ih hrest hlegal.2]

/-- Every sequence of legal requests is answered. -/
theorem AtRest.returns {W : V.Lawful} {answers : S → A → Prop} {capacity : Nat}
    (R : W.Ready answers capacity) {s : S} {locked : Finset FileName} (h : AtRest W s locked)
    {args : List ThreadArg} (hlegal : AllLegal capacity locked args) :
    ∃ s', Replies V answers s args (setReplies locked args) s' := by
  induction args generalizing s locked with
  | nil => exact ⟨s, .nil⟩
  | cons arg args ih =>
    obtain ⟨a, ha⟩ := R.answers_exist h.inv
    obtain ⟨s₁, hserve, hrest⟩ := h.serve R hlegal.1 ha
    obtain ⟨s', hrun⟩ := ih hrest hlegal.2
    exact ⟨s', .cons ha hserve hrun⟩

/-! ### The two servers -/

/-- The table serves up to `MUTEX_NUM` names. -/
theorem Table.ready : Table.lawful.Ready (fun _ _ => True) Table.mutexNum where
  answers_exist := fun _ => ⟨(), trivial⟩
  peek_current := fun {_ _ l} => l.elim
  get_returns := by
    intro t f opType _ _ _ hcount _ _
    have hnonneg : ∀ m ∈ t.slots, 0 ≤ m.count := by
      intro m hm
      obtain ⟨p, hp⟩ := List.getElem?_of_mem hm
      by_cases hzero : m.count = 0
      · omega
      · have := hcount p m.fileName ⟨m.count, m.pMutex⟩ (Table.view_some.mpr ⟨hp, hzero⟩)
        simp only at this
        omega
    obtain ⟨⟨r, t'⟩, hget⟩ := Table.getZMutex_returns hnonneg f opType
    exact ⟨r, t', hget⟩
  refused_full := by
    intro t t' f opType _ _ m hinv hrep _ _ hop hget used hused
    rcases Table.getZMutex_cases hget with ⟨_, _, _, _, _, hr, _⟩ | ⟨_, ⟨_, hall, _, _⟩ |
      ⟨_, _, _, _, _, hr, _⟩ | ⟨hop', _, _⟩⟩
    · cases hr
    · -- every slot is in use, each for a name of its own
      have slot {p : Nat} (hp : p ∈ Finset.range Table.mutexNum) :
          ∃ z, t.slots[p]? = some z ∧ Table.view t p = some (z.fileName, ⟨z.count, z.pMutex⟩) := by
        rw [Finset.mem_range, ← t.length_eq] at hp
        have hz : t.slots[p]? = some t.slots[p] := List.getElem?_eq_getElem hp
        exact ⟨_, hz, Table.view_some.mpr ⟨hz, hall _ (List.getElem_mem hp)⟩⟩
      rw [← Finset.card_range Table.mutexNum]
      refine Finset.card_le_card_of_injOn (fun p => ((t.slots[p]?).map Table.ZMutex.fileName).getD Table.noName)
        (fun p hp => ?_) (fun p hp q hq hpq => ?_)
      · obtain ⟨z, hz, hview⟩ := slot hp
        simp only [hz, Option.map_some, Option.getD_some]
        exact hused _ (by rw [hrep.sound hview]; simp)
      · obtain ⟨z, hz, hview⟩ := slot hp
        obtain ⟨y, hy, hview'⟩ := slot hq
        simp only [hz, hy, Option.map_some, Option.getD_some] at hpq
        exact hrep.unique hview (hpq ▸ hview')
    · cases hr
    · exact absurd (hop'.symm.trans hop) (by decide)
  put_returns := by
    intro t p f e _ hp
    have hlt : p < Table.mutexNum := by
      rw [← t.length_eq]
      exact (List.getElem?_eq_some_iff.mp (Table.view_some.mp hp).1).1
    simp [Table.server, Table.putZMutex, hlt]

/-- An allocation that does not fail: memory not in use. -/
def Hash.allocates (t : Hash.HashTable) (nmtx : Option Nat) : Prop := ∃ p, nmtx = some p ∧ t.heap p = none

/-- The hash table serves any number of names while no allocation fails. -/
theorem Hash.ready (capacity : Nat) : Hash.lawful.Ready Hash.allocates capacity where
  answers_exist := by
    intro t hshape
    obtain ⟨chains, h⟩ := hshape
    refine ⟨some t.brk, t.brk, rfl, ?_⟩
    cases hbrk : t.heap t.brk with
    | none => rfl
    | some m => exact absurd (h.below _ _ hbrk) (Nat.lt_irrefl _)
  peek_current := by
    intro t f l hshape hpeek
    obtain ⟨chains, h⟩ := hshape
    cases hpeek
    exact h.serves f
  get_returns := by
    intro t f opType seen a hshape _ hcur halloc
    obtain ⟨chains, h⟩ := hshape
    obtain ⟨p, rfl, hp⟩ := halloc
    rcases h.get (h.serves_seen hcur) opType (some p) with ⟨q, m, _, _, hr⟩ |
      ⟨_, ⟨_, hr⟩ | ⟨_, hnull, _⟩ | ⟨_, q, hq, ⟨hlive, _⟩ | ⟨_, t', _, hr, _⟩⟩⟩
    · exact ⟨_, _, hr⟩
    · exact ⟨_, _, hr⟩
    · cases hnull
    · cases hq
      exact absurd hp hlive
    · exact ⟨_, _, hr⟩
  refused_full := by
    intro t t' f opType seen a m hshape _ hcur halloc hop hget
    obtain ⟨chains, h⟩ := hshape
    obtain ⟨p, rfl, hp⟩ := halloc
    exfalso
    rcases h.get (h.serves_seen hcur) opType (some p) with ⟨q, m, _, _, hr⟩ |
      ⟨_, ⟨hop', _⟩ | ⟨_, hnull, _⟩ | ⟨_, q, hq, ⟨hlive, _⟩ | ⟨_, t', _, hr, _⟩⟩⟩
    · cases hr.symm.trans hget
    · exact absurd (hop'.symm.trans hop) (by decide)
    · cases hnull
    · cases hq
      exact hlive hp
    · cases hr.symm.trans hget
  put_returns := by
    intro t p f e hshape hp
    obtain ⟨chains, h⟩ := hshape
    obtain ⟨_, _, hm⟩ := Hash.view_some.mp hp
    obtain ⟨t', _, hput, _⟩ := h.put hm
    exact ⟨t', hput⟩

theorem Table.init_atRest : AtRest Table.lawful Table.mutexTableInit ∅ := by
  refine ⟨Table.init_clear, ?_⟩
  have hview : Table.lawful.view Table.mutexTableInit = fun _ => none := funext Table.init_view
  rw [hview]
  exact Represents.empty

theorem Hash.init_atRest : AtRest Hash.lawful Hash.mutexHashInit ∅ :=
  ⟨⟨_, Hash.init_shape⟩, Represents.empty⟩

/-- **The two servers agree.** On every sequence of requests, each handled to
completion, that locks only names that are not locked and never more than
`MUTEX_NUM`, both servers answer every request, with the reply of the set of locked
names. -/
theorem servers_agree {args : List ThreadArg} (hlegal : AllLegal Table.mutexNum ∅ args) :
    (∃ t, Replies Table.server (fun _ _ => True) Table.mutexTableInit args (setReplies ∅ args) t) ∧
    (∃ t, Replies Hash.server Hash.allocates Hash.mutexHashInit args (setReplies ∅ args) t) ∧
    (∀ ress t, Replies Table.server (fun _ _ => True) Table.mutexTableInit args ress t →
      ress = setReplies ∅ args) ∧
    ∀ ress t, Replies Hash.server Hash.allocates Hash.mutexHashInit args ress t → ress = setReplies ∅ args :=
  ⟨Table.init_atRest.returns Table.ready hlegal, Hash.init_atRest.returns (Hash.ready _) hlegal,
    fun _ _ h => Table.init_atRest.replies Table.ready hlegal h,
    fun _ _ h => Hash.init_atRest.replies (Hash.ready _) hlegal h⟩

/-- A lock, a refused try, a release and a release of what is no longer locked. -/
theorem servers_agree_once : ∃ args, setReplies ∅ args =
      [.ok, .notOk .tryLockFail, .ok, .notOk .allocMutexFail] ∧
    (∃ t, Replies Table.server (fun _ _ => True) Table.mutexTableInit args (setReplies ∅ args) t) ∧
    ∃ t, Replies Hash.server Hash.allocates Hash.mutexHashInit args (setReplies ∅ args) t := by
  let f : FileName := ⟨[102], by decide, by decide⟩
  have h := @servers_agree [⟨mdLock, 1, f⟩, ⟨mdTryLock, 2, f⟩, ⟨mdUnlock, 1, f⟩, ⟨mdUnlock, 1, f⟩] (by decide)
  exact ⟨_, by decide, h.1, h.2.1⟩

end CacheFs.Mutex
