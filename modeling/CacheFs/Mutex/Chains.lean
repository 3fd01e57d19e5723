import Mathlib.Data.List.Nodup
import CacheFs.Library.Linked
import CacheFs.Mutex.Hash
import CacheFs.Mutex.Refinement

/-! The chains of the hash table.

`Shape` is what the pointers are for: each bucket a finite doubly linked list of
the entries whose names hash there, and no entry outside. A lookup keeps it by
pushing an entry in front of its chain, a put by linking the neighbours of the
entry it frees; from that the table does what a table owes (`lawful`,
`atomicLawful`). -/
namespace CacheFs.Mutex.Hash
open Registry Linked

/-- The two pointers of an entry. -/
def HashTable.links (t : HashTable) : Links Nat := fun p => (t.heap p).map fun m => (m.pre, m.next)

/-- Following `next`. -/
def HashTable.next (t : HashTable) : Nat → Option (Option Nat) := fun p => (t.heap p).map ZzMutex.next

/-- The buckets are finite doubly linked lists of the entries whose names hash there. -/
structure Shape (t : HashTable) (chains : Fin nhash → List Nat) : Prop where
  heads : ∀ b, t.mutexHash b = (chains b).head?
  linked : ∀ b, Segment t.links none (chains b) none
  mem : ∀ b p, p ∈ chains b ↔ ∃ m, t.heap p = some m ∧ hashFunc m.fileName = b
  below : ∀ p m, t.heap p = some m → p < t.brk

/-- The entries in use. -/
def view (t : HashTable) (p : Nat) : Option (FileName × Entry) :=
  (t.heap p).map fun m => (m.fileName, ⟨m.count, m.pMutex⟩)

theorem write_eq {t : HashTable} {p : Nat} {m : ZzMutex} (hm : t.heap p = some m) (g : ZzMutex → ZzMutex) :
    t.write p g = some {t with heap := Function.update t.heap p (some (g m))} := by
  simp [HashTable.write, hm]

/-- A write through a pointer that is null or to a live entry. -/
theorem writeIf_eq {t : HashTable} {p : Option Nat} (hp : ∀ q, p = some q → ∃ m, t.heap q = some m)
    (g : ZzMutex → ZzMutex) :
    t.writeIf p g =
      some {t with heap := fun q => (t.heap q).map fun m => if p = some q then g m else m} := by
  cases p with
  | none => simp [HashTable.writeIf]
  | some p =>
    obtain ⟨m, hm⟩ := hp p rfl
    simp only [HashTable.writeIf, write_eq hm, Option.some.injEq, HashTable.mk.injEq, true_and, and_true]
    funext q
    by_cases hq : q = p
    · subst hq
      simp [hm]
    · simp [hq, Ne.symm hq]

/-- The table with a new entry in front of the chain of its file. -/
def HashTable.pushed (t : HashTable) (p : Nat) (f : FileName) : HashTable where
  mutexHash := Function.update t.mutexHash (hashFunc f) (some p)
  heap := fun q =>
    if q = p then some ⟨1, false, f, none, t.mutexHash (hashFunc f)⟩
    else (t.heap q).map fun m =>
      {m with pre := if t.mutexHash (hashFunc f) = some q then some p else m.pre}
  brk := max t.brk (p + 1)

theorem insertZzMutex_eq {t : HashTable} {p : Nat} {f : FileName}
    (hhead : ∀ q, t.mutexHash (hashFunc f) = some q → q ≠ p ∧ ∃ x, t.heap q = some x) :
    insertZzMutex t p f = some (t.pushed p f) := by
  have live : ∀ q, t.mutexHash (hashFunc f) = some q →
      ∃ x, (t.alloc p ⟨1, false, f, none, t.mutexHash (hashFunc f)⟩).heap q = some x := by
    intro q hq
    obtain ⟨hne, x, hx⟩ := hhead q hq
    exact ⟨x, (Function.update_of_ne hne _ _).trans hx⟩
  simp only [insertZzMutex, writeIf_eq live, Option.bind_eq_bind, Option.bind_some]
  simp only [HashTable.alloc, HashTable.setHead, HashTable.pushed, Option.some.injEq, HashTable.mk.injEq,
    true_and, and_true]
  funext q
  by_cases hq : q = p
  · subst hq
    have hne : t.mutexHash (hashFunc f) ≠ some q := fun hq => (hhead q hq).1 rfl
    simp [hne]
  · simp only [hq, ne_eq, not_false_eq_true, Function.update_of_ne, if_false]
    congr 1
    funext m
    split <;> rfl

/-- The table with the entry gone and its neighbours linked to each other. -/
def HashTable.unlinked (t : HashTable) (p : Nat) (m : ZzMutex) : HashTable where
  mutexHash := if m.pre = none then Function.update t.mutexHash (hashFunc m.fileName) m.next else t.mutexHash
  heap := fun q =>
    if q = p then none
    else (t.heap q).map fun x =>
      {x with
        pre := if m.next = some q then m.pre else x.pre
        next := if m.pre = some q then m.next else x.next}
  brk := t.brk

theorem unlinkZzMutex_eq {t : HashTable} {p : Nat} {m : ZzMutex}
    (hnext : ∀ q, m.next = some q → ∃ x, t.heap q = some x)
    (hpre : ∀ q, m.pre = some q → ∃ x, t.heap q = some x) :
    unlinkZzMutex t p m = some (t.unlinked p m) := by
  have relinked (q : Nat) (x : ZzMutex) : (if m.next = some q then {x with pre := m.pre} else x) =
      {x with pre := if m.next = some q then m.pre else x.pre} := by
    split <;> rfl
  simp only [unlinkZzMutex, writeIf_eq hnext, Option.bind_eq_bind, Option.bind_some, relinked]
  cases hp : m.pre with
  | none =>
    simp only [HashTable.setHead, HashTable.free, HashTable.unlinked, hp, if_true,
      Option.some.injEq, HashTable.mk.injEq, true_and, and_true]
    funext q
    by_cases hq : q = p <;> simp [hq]
  | some a =>
    obtain ⟨x, hx⟩ := hpre a hp
    simp only [HashTable.write, hx, Option.map_some, Option.bind_some, HashTable.free, HashTable.unlinked,
      hp, reduceCtorEq, if_false, Option.some.injEq, HashTable.mk.injEq, true_and, and_true]
    funext q
    by_cases hq : q = p
    · simp [hq]
    · by_cases hqa : q = a
      · subst hqa
        simp [hq, hx]
      · simp [hq, hqa, Ne.symm hqa]

theorem view_some {t : HashTable} {p : Nat} {f : FileName} {e : Entry} :
    view t p = some (f, e) ↔ ∃ pre next, t.heap p = some ⟨e.count, e.locked, f, pre, next⟩ := by
  constructor
  · intro h
    obtain ⟨m, hm, hview⟩ := Option.map_eq_some_iff.mp h
    cases hview
    exact ⟨m.pre, m.next, hm⟩
  · intro h
    obtain ⟨pre, next, hm⟩ := h
    simp [view, hm]

/-- The head that a lookup goes on from starts a chain of entries that ends, and the
entry of the file is in it if there is one. -/
def Serves (t : HashTable) (f : FileName) (head : Option Nat) : Prop :=
  ∃ l, Path t.next head l ∧ ∀ p m, t.heap p = some m → m.fileName = f → p ∈ l

/-- What is found from the head of a path: the file's entry, if it is on the path. -/
def Found (t : HashTable) (f : FileName) (l : List Nat) : Option Nat → Prop
  | some p => p ∈ l ∧ ∃ m, t.heap p = some m ∧ m.fileName = f
  | none => ∀ p ∈ l, ∀ m, t.heap p = some m → m.fileName ≠ f

/-- The traversal of a path that ends. -/
theorem traverse_path {t : HashTable} {f : FileName} {l : List Nat} {head : Option Nat} {n : Nat}
    (h : Path t.next head l) (hn : l.length ≤ n) :
    ∃ r, traverse t.heap f n head = some r ∧ Found t f l r := by
  induction l generalizing head n with
  | nil =>
    cases n <;> exact ⟨none, by rw [h]; rfl, by simp [Found]⟩
  | cons p l ih =>
    obtain ⟨rfl, next, hnext, hl⟩ := h
    obtain ⟨m, hm, rfl⟩ := Option.map_eq_some_iff.mp hnext
    cases n with
    | zero => simp at hn
    | succ n =>
      by_cases hname : m.fileName = f
      · exact ⟨some p, by simp [traverse, hm, hname], List.mem_cons_self, m, hm, hname⟩
      · obtain ⟨r, hr, hfound⟩ := ih hl (Nat.le_of_succ_le_succ hn)
        refine ⟨r, by simp [traverse, hm, hname, hr], ?_⟩
        cases r with
        | some q => exact ⟨List.mem_cons_of_mem _ hfound.1, hfound.2⟩
        | none =>
          refine List.forall_mem_cons.mpr ⟨fun m' hm' => ?_, hfound⟩
          rw [hm] at hm'
          cases hm'
          exact hname

namespace Shape
variable {t : HashTable} {chains : Fin nhash → List Nat}

/-- Only the entry of the file itself is found, and it is found if there is one. -/
theorem traverse (h : Shape t chains) {f : FileName} {head : Option Nat} (hs : Serves t f head) :
    (∃ p m, Hash.traverse t.heap f t.brk head = some (some p) ∧ t.heap p = some m ∧ m.fileName = f) ∨
    (Hash.traverse t.heap f t.brk head = some none ∧ ∀ p m, t.heap p = some m → m.fileName ≠ f) := by
  obtain ⟨l, hl, hall⟩ := hs
  have hlen : l.length ≤ t.brk := by
    refine length_le_of_lt hl.nodup fun p hp => ?_
    obtain ⟨n, hn⟩ := hl.next_of_mem hp
    obtain ⟨m, hm, -⟩ := Option.map_eq_some_iff.mp hn
    exact h.below p m hm
  obtain ⟨r, hr, hfound⟩ := traverse_path (f := f) hl hlen
  cases r with
  | some p =>
    obtain ⟨-, m, hm, hname⟩ := hfound
    exact .inl ⟨p, m, hr, hm, hname⟩
  | none => exact .inr ⟨hr, fun p m hm hname => hfound p (hall p m hm hname) m hm hname⟩

/-- The head of a file's own chain serves its lookups. -/
theorem serves (h : Shape t chains) (f : FileName) : Serves t f (t.mutexHash (hashFunc f)) := by
  refine ⟨chains (hashFunc f), ?_, fun p m hm hname => (h.mem _ _).mpr ⟨m, hm, by rw [hname]⟩⟩
  have hnext : (fun k => (t.links k).map Prod.snd) = t.next := by
    funext k
    simp [HashTable.links, HashTable.next, Function.comp_def]
  rw [h.heads, ← hnext]
  exact (h.linked (hashFunc f)).path_next

/-- A lookup is served when what it read early serves it, if it read anything. -/
theorem serves_seen (h : Shape t chains) {f : FileName} {seen : Option (Option Nat)}
    (hseen : ∀ l, seen = some l → Serves t f l) : Serves t f (seen.getD (t.mutexHash (hashFunc f))) := by
  cases seen with
  | none => exact h.serves f
  | some l => exact hseen l rfl

/-- The buckets do not share entries. -/
theorem bucket_eq (h : Shape t chains) {b c : Fin nhash} {p : Nat} (hb : p ∈ chains b) (hc : p ∈ chains c) :
    b = c := by
  obtain ⟨m, hm, rfl⟩ := (h.mem _ _).mp hb
  obtain ⟨m', hm', rfl⟩ := (h.mem _ _).mp hc
  rw [hm] at hm'
  cases hm'
  rfl

/-- A chain's head is in the chain. -/
theorem mem_of_head (h : Shape t chains) {b : Fin nhash} {p : Nat} (hp : t.mutexHash b = some p) :
    p ∈ chains b := by
  rw [h.heads] at hp
  exact List.mem_of_mem_head? hp

/-- An entry at a free address goes in front of the chain of its file. -/
theorem insert (h : Shape t chains) {p : Nat} (hp : t.heap p = none) (f : FileName) :
    insertZzMutex t p f = some (t.pushed p f) := by
  refine insertZzMutex_eq fun q hq => ?_
  obtain ⟨m, hm, -⟩ := (h.mem _ _).mp (h.mem_of_head hq)
  refine ⟨?_, m, hm⟩
  intro heq
  subst heq
  rw [hp] at hm
  cases hm

/-- Writing anything but the name and the pointers of an entry keeps the chains. -/
theorem alter (h : Shape t chains) {p : Nat} {m : ZzMutex} (hm : t.heap p = some m) (m' : ZzMutex)
    (hname : m'.fileName = m.fileName) (hpre : m'.pre = m.pre) (hnext : m'.next = m.next) :
    Shape {t with heap := Function.update t.heap p (some m')} chains := by
  have hlinks : HashTable.links {t with heap := Function.update t.heap p (some m')} = t.links := by
    funext q
    by_cases hq : q = p
    · subst hq
      simp [HashTable.links, hm, hpre, hnext]
    · simp [HashTable.links, hq]
  refine ⟨h.heads, fun b => by rw [hlinks]; exact h.linked b, fun b q => ?_, fun q x hx => ?_⟩
  · rw [h.mem]
    by_cases hq : q = p
    · subst hq
      simp [hm, hname]
    · simp [hq]
  · by_cases hq : q = p
    · subst hq
      exact h.below q m hm
    · exact h.below q x (by simpa [hq] using hx)

/-- A new entry in front of the chain of its file. -/
theorem push (h : Shape t chains) {p : Nat} {f : FileName} (hfree : t.heap p = none) :
    Shape (t.pushed p f) (Function.update chains (hashFunc f) (p :: chains (hashFunc f))) := by
  have hne {b : Fin nhash} {q : Nat} (hq : q ∈ chains b) : q ≠ p := by
    intro heq
    subst heq
    obtain ⟨m, hm, -⟩ := (h.mem _ _).mp hq
    rw [hfree] at hm
    cases hm
  refine ⟨fun b => ?_, fun b => ?_, fun b q => ?_, fun q m hm => ?_⟩
  · simp only [HashTable.pushed]
    by_cases hb : b = hashFunc f
    · subst hb
      simp
    · simp [hb, h.heads]
  · by_cases hb : b = hashFunc f
    · subst hb
      rw [Function.update_self]
      refine (h.linked _).push (by simp [HashTable.links, HashTable.pushed, h.heads]) fun q hq => ?_
      rw [← h.heads]
      by_cases hhead : t.mutexHash (hashFunc f) = some q
      · simp [HashTable.links, HashTable.pushed, hne hq, hhead, setPre, Function.comp_def]
      · rw [setPre_of_ne hhead]
        simp [HashTable.links, HashTable.pushed, hne hq, hhead]
    · rw [Function.update_of_ne hb]
      refine (h.linked b).congr fun q hq => ?_
      have hhead : t.mutexHash (hashFunc f) ≠ some q := fun hq' => hb (h.bucket_eq hq (h.mem_of_head hq'))
      simp [HashTable.links, HashTable.pushed, hne hq, hhead]
  · by_cases hq : q = p
    · subst hq
      have hnot : q ∉ chains b := fun hb => hne hb rfl
      by_cases hb : b = hashFunc f
      · subst hb
        simp [HashTable.pushed]
      · simp [hb, Ne.symm hb, HashTable.pushed, hnot]
    · have hmem : q ∈ Function.update chains (hashFunc f) (p :: chains (hashFunc f)) b ↔ q ∈ chains b := by
        by_cases hb : b = hashFunc f
        · subst hb
          simp [hq]
        · simp [hb]
      rw [hmem, h.mem]
      simp [HashTable.pushed, hq]
  · simp only [HashTable.pushed] at hm ⊢
    split at hm
    · omega
    · obtain ⟨x, hx, -⟩ := Option.map_eq_some_iff.mp hm
      have := h.below q x hx
      omega

/-- An entry freed and its neighbours linked to each other. -/
theorem unlink (h : Shape t chains) {p : Nat} {m : ZzMutex} (hm : t.heap p = some m) :
    ∃ chains', Shape (t.unlinked p m) chains' := by
  have hmem : p ∈ chains (hashFunc m.fileName) := (h.mem _ _).mpr ⟨m, hm, rfl⟩
  obtain ⟨u, v, huv⟩ := List.append_of_mem hmem
  have hseg := h.linked (hashFunc m.fileName)
  rw [huv] at hseg
  have hlinks := hseg.neighbours
  simp only [HashTable.links, hm, Option.map_some, Option.or_none, Option.some.injEq, Prod.mk.injEq] at hlinks
  obtain ⟨hpre, hnext⟩ := hlinks
  have hdup := hseg.nodup
  have hout : p ∉ u ++ v := (List.nodup_cons.mp (List.nodup_middle.mp hdup)).1
  have hin {q : Nat} (hq : q ∈ u ++ v) : q ∈ chains (hashFunc m.fileName) := by
    rw [huv]
    obtain hq | hq := List.mem_append.mp hq
    · exact List.mem_append_left _ hq
    · exact List.mem_append_right _ (List.mem_cons_of_mem _ hq)
  refine ⟨Function.update chains (hashFunc m.fileName) (u ++ v), fun b => ?_, fun b => ?_, fun b q => ?_,
    fun q x hx => ?_⟩
  · simp only [HashTable.unlinked]
    by_cases hb : b = hashFunc m.fileName
    · subst hb
      cases u with
      | nil => simp [hpre, hnext]
      | cons k u => simp [hpre, h.heads, huv]
    · split <;> simp [hb, h.heads]
  · by_cases hb : b = hashFunc m.fileName
    · subst hb
      rw [Function.update_self]
      refine hseg.unlink fun q hq => ?_
      have hqp : q ≠ p := fun hqp => hout (hqp ▸ hq)
      obtain ⟨x, hx, -⟩ := (h.mem _ _).mp (hin hq)
      rw [← hpre, ← hnext]
      by_cases h₁ : m.next = some q <;> by_cases h₂ : m.pre = some q
      · simp [HashTable.links, HashTable.unlinked, hqp, hx, h₁, h₂, setNext, setPre]
      · rw [setNext_of_ne h₂]
        simp [HashTable.links, HashTable.unlinked, hqp, hx, h₁, h₂, setPre]
      · simp [HashTable.links, HashTable.unlinked, hqp, hx, h₁, h₂, setNext, setPre_of_ne h₁]
      · rw [setNext_of_ne h₂, setPre_of_ne h₁]
        simp [HashTable.links, HashTable.unlinked, hqp, hx, h₁, h₂]
    · rw [Function.update_of_ne hb]
      refine (h.linked b).congr fun q hq => ?_
      have apart {k : Nat} (hk : k ∈ u ++ v) : k ≠ q := by
        intro heq
        subst heq
        exact hb (h.bucket_eq hq (hin hk))
      have hqp : q ≠ p := by
        intro heq
        subst heq
        exact hb (h.bucket_eq hq hmem)
      have h₁ : m.next ≠ some q := fun hn =>
        apart (List.mem_append_right _ (List.mem_of_mem_head? (hnext ▸ hn))) rfl
      have h₂ : m.pre ≠ some q := fun hn =>
        apart (List.mem_append_left _ (List.mem_of_getLast? (hpre ▸ hn))) rfl
      simp [HashTable.links, HashTable.unlinked, hqp, h₁, h₂]
  · by_cases hq : q = p
    · subst hq
      have hnot : q ∉ Function.update chains (hashFunc m.fileName) (u ++ v) b := by
        by_cases hb : b = hashFunc m.fileName
        · subst hb
          rw [Function.update_self]
          exact hout
        · rw [Function.update_of_ne hb]
          exact fun hc => hb (h.bucket_eq hc hmem)
      simp [HashTable.unlinked, hnot]
    · have hiff : q ∈ Function.update chains (hashFunc m.fileName) (u ++ v) b ↔ q ∈ chains b := by
        by_cases hb : b = hashFunc m.fileName
        · subst hb
          simp [huv, hq]
        · simp [hb]
      rw [hiff, h.mem]
      simp [HashTable.unlinked, hq]
  · simp only [HashTable.unlinked] at hx
    split at hx
    · cases hx
    · obtain ⟨y, hy, -⟩ := Option.map_eq_some_iff.mp hx
      exact h.below q y hy

/-- The entry a live entry points to is live, and another. -/
theorem neighbour (h : Shape t chains) {p : Nat} {m : ZzMutex} (hm : t.heap p = some m) {q : Nat}
    (hq : m.pre = some q ∨ m.next = some q) : q ≠ p ∧ ∃ x, t.heap q = some x := by
  have hmem : p ∈ chains (hashFunc m.fileName) := (h.mem _ _).mpr ⟨m, hm, rfl⟩
  obtain ⟨u, v, huv⟩ := List.append_of_mem hmem
  have hseg := h.linked (hashFunc m.fileName)
  rw [huv] at hseg
  have hlinks := hseg.neighbours
  simp only [HashTable.links, hm, Option.map_some, Option.or_none, Option.some.injEq, Prod.mk.injEq] at hlinks
  have hout := (List.nodup_cons.mp (List.nodup_middle.mp hseg.nodup)).1
  have hin : q ∈ u ++ v := by
    obtain hq | hq := hq
    · exact List.mem_append_left _ (List.mem_of_getLast? (hlinks.1 ▸ hq))
    · exact List.mem_append_right _ (List.mem_of_mem_head? (hlinks.2 ▸ hq))
  refine ⟨fun hqp => hout (hqp ▸ hin), ?_⟩
  have hchain : q ∈ chains (hashFunc m.fileName) := by
    rw [huv]
    exact (List.mem_append.mp hin).elim (List.mem_append_left _)
      fun hv => List.mem_append_right _ (List.mem_cons_of_mem _ hv)
  obtain ⟨x, hx, -⟩ := (h.mem _ _).mp hchain
  exact ⟨x, hx⟩

/-- The head has nothing before it. -/
theorem head_pre (h : Shape t chains) {b : Fin nhash}
    {p : Nat} (hp : t.mutexHash b = some p) : ∃ m, t.heap p = some m ∧ m.pre = none := by
  have hlinked := h.linked b
  rw [h.heads] at hp
  cases hc : chains b with
  | nil =>
    rw [hc] at hp
    cases hp
  | cons k l =>
    rw [hc] at hp hlinked
    cases hp
    obtain ⟨m, hm, hlinks⟩ := Option.map_eq_some_iff.mp hlinked.1
    exact ⟨m, hm, by simpa using congrArg Prod.fst hlinks⟩

/-- The entry after another points back to it. -/
theorem next_pre (h : Shape t chains) {p q : Nat}
    {m : ZzMutex} (hm : t.heap p = some m) (hq : m.next = some q) :
    ∃ x, t.heap q = some x ∧ x.pre = some p := by
  obtain ⟨u, v, huv⟩ := List.append_of_mem ((h.mem _ _).mpr ⟨m, hm, rfl⟩)
  have hlinked := h.linked (hashFunc m.fileName)
  rw [huv] at hlinked
  have hnext := congrArg (Option.map Prod.snd) hlinked.neighbours
  simp only [HashTable.links, hm, hq, Option.map_some, Option.or_none, Option.some.injEq] at hnext
  cases v with
  | nil => cases hnext
  | cons k v =>
    cases hnext
    rw [List.append_cons] at hlinked
    have hlinks := hlinked.neighbours
    rw [List.getLast?_concat] at hlinks
    obtain ⟨x, hx, hpair⟩ := Option.map_eq_some_iff.mp hlinks
    exact ⟨x, hx, congrArg Prod.fst hpair⟩

/-- A put drops the count, and with the last one takes the entry out of its chain. -/
theorem put (h : Shape t chains) {p : Nat} {m : ZzMutex} (hm : t.heap p = some m) :
    ∃ t' chains', putZzMutex t p = some t' ∧ Shape t' chains' ∧
      view t' = Function.update (view t) p
        ((Entry.put ⟨m.count, m.pMutex⟩).map fun e => (m.fileName, e)) := by
  by_cases hlast : m.count - 1 = 0
  · have hdrop := h.alter hm {m with count := m.count - 1} rfl rfl rfl
    have hself : Function.update t.heap p (some {m with count := m.count - 1}) p =
        some {m with count := m.count - 1} := Function.update_self ..
    obtain ⟨chains', hshape⟩ := hdrop.unlink hself
    refine ⟨_, chains', ?_, hshape, ?_⟩
    · simp only [putZzMutex, hm, write_eq hm, Option.bind_eq_bind, Option.bind_some, if_pos hlast]
      exact unlinkZzMutex_eq (fun q hq => (hdrop.neighbour hself (.inr hq)).2)
        (fun q hq => (hdrop.neighbour hself (.inl hq)).2)
    · funext q
      by_cases hq : q = p
      · subst hq
        simp [view, HashTable.unlinked, Entry.put, hlast]
      · simp [view, HashTable.unlinked, hq, Function.comp_def]
  · refine ⟨_, chains, ?_, h.alter hm {m with count := m.count - 1} rfl rfl rfl, ?_⟩
    · simp [putZzMutex, HashTable.write, hm, hlast]
    · funext q
      by_cases hq : q = p
      · subst hq
        simp [view, Entry.put, hlast]
      · simp [view, hq]

/-- A lookup that is served finds the file's entry, or makes it if it may, or gives
null. -/
theorem get (h : Shape t chains) {f : FileName} {head : Option Nat} (hs : Serves t f head)
    (opType : UInt8) (nmtx : Option Nat) :
    (∃ p m, t.heap p = some m ∧ m.fileName = f ∧ getZzMutex t head f opType nmtx = some (some p,
      if acquires opType then
        {t with heap := Function.update t.heap p (some {m with count := m.count + 1})}
      else t)) ∨
    ((∀ p m, t.heap p = some m → m.fileName ≠ f) ∧
      ((acquires opType = false ∧ getZzMutex t head f opType nmtx = some (none, t)) ∨
       (acquires opType = true ∧ nmtx = none ∧ getZzMutex t head f opType nmtx = some (none, t)) ∨
       (acquires opType = true ∧ ∃ p, nmtx = some p ∧
         ((t.heap p ≠ none ∧ getZzMutex t head f opType nmtx = none) ∨
          (t.heap p = none ∧ ∃ t' chains', getZzMutex t head f opType nmtx = some (some p, t') ∧
            Shape t' chains' ∧ view t' = Function.update (view t) p (some (f, ⟨1, false⟩))))))) := by
  obtain ⟨p, m, htrav, hm, hname⟩ | ⟨htrav, habsent⟩ := h.traverse hs
  · refine .inl ⟨p, m, hm, hname, ?_⟩
    cases hop : acquires opType <;> simp [getZzMutex, htrav, hop, write_eq hm]
  · refine .inr ⟨habsent, ?_⟩
    cases hop : acquires opType with
    | false => exact .inl ⟨rfl, by simp [getZzMutex, htrav, hop]⟩
    | true =>
      cases nmtx with
      | none => exact .inr (.inl ⟨rfl, rfl, by simp [getZzMutex, htrav, hop]⟩)
      | some p =>
        refine .inr (.inr ⟨rfl, p, rfl, ?_⟩)
        cases hp : t.heap p with
        | some m => exact .inl ⟨by simp, by simp [getZzMutex, htrav, hop, hp]⟩
        | none =>
          refine .inr ⟨rfl, t.pushed p f, _, ?_, h.push hp, ?_⟩
          · simp [getZzMutex, htrav, hop, hp, h.insert hp f]
          · funext q
            by_cases hq : q = p
            · subst hq
              simp [view, HashTable.pushed]
            · simp [view, HashTable.pushed, hq, Function.comp_def]

end Shape

theorem view_update {t : HashTable} {p : Nat} {m : ZzMutex} :
    view {t with heap := Function.update t.heap p (some m)} =
      Function.update (view t) p (some (m.fileName, ⟨m.count, m.pMutex⟩)) := by
  funext q
  by_cases hq : q = p
  · subst hq
    simp [view]
  · simp [view, hq]

section Lawful
variable {L : Type} {peek : HashTable → FileName → Option L}
  {head : HashTable → FileName → Option L → Option Nat}

/-- The hash table does what a table owes, when its lookups go on from a head that
serves them. -/
def lawfulOf (Current : HashTable → FileName → L → Prop)
    (serves : ∀ {t chains f seen}, Shape t chains → (∀ l, seen = some l → Current t f l) →
      Serves t f (head t f seen)) :
    (serverOf peek head).Lawful where
  Inv := fun t => ∃ chains, Shape t chains
  view := view
  Current := Current
  get_inv := by
    intro t t' f opType seen nmtx r hshape hseen hget
    obtain ⟨chains, h⟩ := hshape
    simp only [serverOf] at hget
    rcases h.get (serves h hseen) opType nmtx with ⟨p, m, hm, _, hr⟩ |
      ⟨_, ⟨_, hr⟩ | ⟨_, _, hr⟩ | ⟨_, p, _, ⟨_, hr⟩ | ⟨_, t₁, chains', hr, hshape, _⟩⟩⟩ <;>
      rw [hr] at hget <;> cases hget
    · split
      · exact ⟨chains, h.alter hm _ rfl rfl rfl⟩
      · exact ⟨chains, h⟩
    · exact ⟨chains, h⟩
    · exact ⟨chains, h⟩
    · exact ⟨chains', hshape⟩
  get_looked := by
    intro t t' f opType seen nmtx r hshape hseen hget
    obtain ⟨chains, h⟩ := hshape
    simp only [serverOf] at hget
    have absent (hnames : ∀ p m, t.heap p = some m → m.fileName ≠ f) : Absent (view t) f := by
      intro p e hp
      obtain ⟨_, _, hm⟩ := view_some.mp hp
      exact hnames _ _ hm rfl
    rcases h.get (serves h hseen) opType nmtx with ⟨p, m, hm, rfl, hr⟩ |
      ⟨hnames, ⟨hop, hr⟩ | ⟨hop, _, hr⟩ | ⟨hop, p, _, ⟨_, hr⟩ | ⟨hp, t₁, chains', hr, _, hview⟩⟩⟩ <;>
      rw [hr] at hget <;> cases hget
    · have hview : view t p = some (m.fileName, ⟨m.count, m.pMutex⟩) := by simp [view, hm]
      split
      · rename_i hop
        exact .found hop hview view_update
      · rename_i hop
        by_cases hunlock : opType = mdUnlock
        · exact .unlock hunlock hview rfl
        · exact .other (by simpa using hop) hunlock rfl
    · by_cases hunlock : opType = mdUnlock
      · exact .missing hunlock (absent hnames) rfl
      · exact .other hop hunlock rfl
    · exact .refused hop (absent hnames) rfl
    · exact .made hop (absent hnames) (by simp [view, hp]) hview
  mutex_eq := by
    intro t p f e _ hp
    obtain ⟨_, _, hm⟩ := view_some.mp hp
    simp [serverOf, hm]
  setMutex_inv := by
    intro t p f e taken hshape hp
    obtain ⟨chains, h⟩ := hshape
    obtain ⟨_, _, hm⟩ := view_some.mp hp
    simp only [serverOf, write_eq hm, Option.getD_some]
    exact ⟨chains, h.alter hm _ rfl rfl rfl⟩
  setMutex_view := by
    intro t p f e taken _ hp
    obtain ⟨_, _, hm⟩ := view_some.mp hp
    simp only [serverOf, write_eq hm, Option.getD_some, view_update]
  put_inv := by
    intro t t' p f e hshape hp _ hput
    obtain ⟨chains, h⟩ := hshape
    obtain ⟨_, _, hm⟩ := view_some.mp hp
    obtain ⟨t₁, chains', hr, hshape, _⟩ := h.put hm
    cases hr.symm.trans hput
    exact ⟨chains', hshape⟩
  put_view := by
    intro t t' p f e hshape hp hput
    obtain ⟨chains, h⟩ := hshape
    obtain ⟨_, _, hm⟩ := view_some.mp hp
    obtain ⟨t₁, _, hr, _, hview⟩ := h.put hm
    cases hr.symm.trans hput
    exact hview

end Lawful

/-- The server as it is, while what a lookup read before `glob_mutex` still serves it. -/
def lawful : server.Lawful :=
  lawfulOf (fun t f l => Serves t f l) fun h hseen => h.serves_seen hseen

/-- The server whose lookup is one step. -/
def atomicLawful : atomicServer.Lawful := lawfulOf (fun _ _ _ => True) fun h _ => h.serves _

theorem init_shape : Shape mutexHashInit fun _ => [] :=
  ⟨fun _ => rfl, fun _ => trivial, fun _ _ => by simp [mutexHashInit], fun _ _ hm => by cases hm⟩

theorem init_view (p : Nat) : view mutexHashInit p = none := rfl

end CacheFs.Mutex.Hash
