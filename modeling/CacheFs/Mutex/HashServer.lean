import CacheFs.Mutex.Chains

/-! The hash-based server with clients that unlock what they hold.

When `get_zz_mutex` is one step, the chains stay lists of live entries that count
their users (`chains_kept`). As the code is, a lookup may go on from a head that
was read before another request changed the chain: two requests for one file then
make an entry each, and both take its lock (`two_holders`). Runs whose lookups are
still served by the head they read are free of this (`exclusive`). -/
namespace CacheFs.Mutex.Hash
open Transition Registry Linked

/-! ### Lookups in one step -/

/-- The server with its lookup in one step, before any request. -/
def atomicMachine : Machine (State HashTable Nat Empty (List (Nat × FileName))) (Move (Option Nat)) :=
  machine atomicServer disciplined mutexHashInit (· = [])

/-- The chains and the entries in them, beside the threads and clients. -/
structure Kept (s : State HashTable Nat Empty (List (Nat × FileName))) (chains : Fin nhash → List Nat) :
    Prop where
  shape : Shape s.store chains
  acyclic : ∀ b, (chains b).Nodup
  /-- The head has nothing before it. -/
  head_pre : ∀ b p, s.store.mutexHash b = some p → ∃ m, s.store.heap p = some m ∧ m.pre = none
  /-- `x.next.pre` is `x`. -/
  next_pre : ∀ p m q, s.store.heap p = some m → m.next = some q →
    ∃ x, s.store.heap q = some x ∧ x.pre = some p
  names : ∀ p q m x, s.store.heap p = some m → s.store.heap q = some x → m.fileName = x.fileName → p = q
  counts : ∀ p m, s.store.heap p = some m → 0 < m.count ∧ m.count = users disciplinedLawful s m.fileName
  /-- A thread that may still follow its pointer has it to a live entry of its file. -/
  pointers : ∀ th ∈ s.threads, ∀ p, th.At p → ∃ m, s.store.heap p = some m ∧ m.fileName = th.arg.fileName
  /-- A file that a client holds has its entry, and that is locked. -/
  held : ∀ c f, Holds s c f → ∃ p m, s.store.heap p = some m ∧ m.fileName = f ∧ m.pMutex = true

/-- **Reference counts and chain shape.** In every reachable state the chains are
lists of live entries, each counting its users, that no thread or holder outlives;
when every client has unlocked and no request is in progress they are empty. -/
theorem chains_kept {s : State HashTable Nat Empty (List (Nat × FileName))}
    (h : Reachable atomicMachine s) :
    (∃ chains, Kept s chains) ∧
      (s.clients = [] → (∀ th ∈ s.threads, th.pc = .exited) → ∀ b, s.store.mutexHash b = none) := by
  obtain ⟨t, hrel, hinv⟩ := refines atomicLawful disciplinedLawful ⟨_, init_shape⟩ init_view
    disciplined_fresh (disciplined_sound atomicLawful h)
  obtain ⟨chains, hshape⟩ := hrel.inv
  have inUse {p : Nat} {m : ZzMutex} (hm : s.store.heap p = some m) :
      view s.store p = some (m.fileName, ⟨m.count, m.pMutex⟩) := by simp [view, hm]
  have counts {p : Nat} {m : ZzMutex} (hm : s.store.heap p = some m) :
      0 < m.count ∧ m.count = users disciplinedLawful s m.fileName := by
    obtain ⟨hcount, hpos, -⟩ := hrel.entry hinv (inUse hm)
    simp only at hcount
    omega
  refine ⟨⟨chains, hshape, fun b => (hshape.linked b).nodup, fun b p => hshape.head_pre,
    fun p m q => hshape.next_pre, fun p q m x hm hx hname => ?_, fun p m => counts,
    fun th hth p hp => ?_, fun c f hc => ?_⟩, fun hclients hexited b => ?_⟩
  · exact hrel.store.unique (inUse hm) (hname ▸ inUse hx)
  · obtain ⟨e, he⟩ := hrel.pointers th hth p hp
    obtain ⟨_, _, hm⟩ := view_some.mp he
    exact ⟨_, hm, rfl⟩
  · have hpos := hc.holders_pos
    have hone := hrel.holders_le_one hinv f
    have hle := holders_le_users disciplinedLawful s f
    obtain ⟨p, e, he⟩ := hrel.entry_of_users hinv (f := f) (by omega)
    obtain ⟨-, -, hlocked⟩ := hrel.entry hinv he
    obtain ⟨_, _, hm⟩ := view_some.mp he
    refine ⟨p, _, hm, rfl, ?_⟩
    simp only [hlocked, decide_eq_true_eq]
    omega
  · cases hb : s.store.mutexHash b with
    | none => rfl
    | some p =>
      obtain ⟨m, hm, -⟩ := hshape.head_pre hb
      have hzero : s.threads.countP (Thread.uses m.fileName) = 0 := by
        refine List.countP_eq_zero.mpr fun th hth => ?_
        simp [Thread.uses, hexited th hth]
      have := counts hm
      simp only [users, disciplinedLawful, hclients, grants, List.countP_nil, hzero] at this
      omega

/-- Clients 7 and 8 hold files whose names collide: their entries share a chain. -/
theorem chains_kept_colliding : ∃ s f g, Reachable atomicMachine s ∧ f ≠ g ∧ Holds s 7 f ∧ Holds s 8 g ∧
    ∃ chains, Kept s chains ∧ 2 ≤ (chains (hashFunc f)).length := by
  let f : FileName := ⟨[102], by decide, by decide⟩
  let g : FileName := ⟨[1], by decide, by decide⟩
  obtain ⟨s, hreach, hs⟩ := Reach.exists_run (M := atomicMachine) (R := always)
    [.accept ⟨mdLock, 7, f⟩, .accept ⟨mdTryLock, 8, g⟩, .step 0 (some 0), .step 1 (some 1), .step 1 none,
      .step 0 none, .reply 0, .reply 1]
    (fun s => s.clients = [(8, g), (7, f)] && (s.store.heap 0).any (·.fileName = f) &&
      (s.store.heap 1).any (·.fileName = g))
    (.start (s := ⟨mutexHashInit, [], []⟩) ⟨rfl, rfl, rfl⟩) (by decide)
  simp only [Bool.and_eq_true, decide_eq_true_eq, Option.any_eq_true] at hs
  obtain ⟨⟨hclients, m, hm, hf⟩, x, hx, hg⟩ := hs
  obtain ⟨chains, hkept⟩ := (chains_kept hreach).1
  have h₀ : 0 ∈ chains (hashFunc f) := (hkept.shape.mem _ _).mpr ⟨m, hm, by rw [hf]⟩
  have h₁ : 1 ∈ chains (hashFunc f) := (hkept.shape.mem _ _).mpr ⟨x, hx, by rw [hg]; decide⟩
  refine ⟨s, f, g, hreach, by decide, .inl (by simp [hclients]), .inl (by simp [hclients]), chains, hkept, ?_⟩
  have hboth : [0, 1] ⊆ chains (hashFunc f) := by simp [h₀, h₁]
  exact (List.subperm_of_subset (by decide) hboth).length_le

/-! ### Lookups that read the head early -/

/-- The server as it is, before any request. -/
def lockMachine : Machine (State HashTable Nat (Option Nat) (List (Nat × FileName))) (Move (Option Nat)) :=
  machine server disciplined mutexHashInit (· = [])

/-- Whenever a thread takes `glob_mutex` for its lookup, the head it has read still
starts a chain of entries that ends and has the entry of its file if there is one. -/
def stillServed : Rule (State HashTable Nat (Option Nat) (List (Nat × FileName))) (Move (Option Nat))
  | s, .step i _ => ∀ th head, s.threads[i]? = some th → th.pc = .get (some head) →
      Serves s.store th.arg.fileName head
  | _, _ => True

/-- At most one live entry for each file, and at most one client that has its lock. -/
structure Exclusive (s : State HashTable Nat (Option Nat) (List (Nat × FileName))) : Prop where
  entries : ∀ p q m x, s.store.heap p = some m → s.store.heap q = some x → m.fileName = x.fileName → p = q
  clients : ∀ f c₁ c₂, Holds s c₁ f → Holds s c₂ f → c₁ = c₂

theorem lockMachine_sound {s : State HashTable Nat (Option Nat) (List (Nat × FileName))}
    (h : Reach lockMachine stillServed s) : Reach lockMachine (Sound lawful) s := by
  refine h.mono fun s mv _ hs hrule => ?_
  cases mv with
  | accept arg => trivial
  | step i a =>
    intro th seen hth hlook
    refine ⟨fun l hl => hrule th l hth (hl ▸ hlook.1), fun hstray =>
      absurd hstray (disciplined_not_stray hs th (List.mem_of_getElem? hth))⟩
  | reply i => trivial

/-- **Mutual exclusion while heads stay current.** In every run whose lookups are
still served by the head they read, each file has at most one live entry and at
most one client that has its lock. -/
theorem exclusive {s : State HashTable Nat (Option Nat) (List (Nat × FileName))}
    (h : Reach lockMachine stillServed s) : Exclusive s := by
  obtain ⟨t, hrel, hinv⟩ := refines lawful disciplinedLawful ⟨_, init_shape⟩ init_view
    disciplined_fresh (lockMachine_sound h)
  refine ⟨fun p q m x hm hx hname => ?_, fun f c₁ c₂ h₁ h₂ => h₁.eq (hrel.holders_le_one hinv f) h₂⟩
  have hp : view s.store p = some (m.fileName, ⟨m.count, m.pMutex⟩) := by simp [view, hm]
  have hq : view s.store q = some (x.fileName, ⟨x.count, x.pMutex⟩) := by simp [view, hx]
  exact hrel.store.unique hp (hname ▸ hq)

/-- Two requests for one file that both read the empty chain before either takes
`glob_mutex`: each makes an entry, and clients 7 and 8 are both told that the lock
is theirs. -/
theorem two_holders : ∃ s, Reachable lockMachine s ∧ ¬ Exclusive s ∧
    (∃ p q m x, p ≠ q ∧ s.store.heap p = some m ∧ s.store.heap q = some x ∧ m.fileName = x.fileName) ∧
    ∃ f, (7, f) ∈ s.clients ∧ (8, f) ∈ s.clients := by
  let f : FileName := ⟨[102], by decide, by decide⟩
  obtain ⟨s, hreach, hs⟩ := Reach.exists_run (M := lockMachine) (R := always)
    [.accept ⟨mdLock, 7, f⟩, .accept ⟨mdLock, 8, f⟩, .step 0 none, .step 1 none, .step 0 (some 0),
      .step 1 (some 1), .step 0 none, .step 1 none, .reply 0, .reply 1]
    (fun s => s.clients = [(8, f), (7, f)] && (s.store.heap 0).any (·.fileName = f) &&
      (s.store.heap 1).any (·.fileName = f))
    (.start (s := ⟨mutexHashInit, [], []⟩) ⟨rfl, rfl, rfl⟩) (by decide)
  simp only [Bool.and_eq_true, decide_eq_true_eq, Option.any_eq_true] at hs
  obtain ⟨⟨hclients, m, hm, hf⟩, x, hx, hg⟩ := hs
  have h₇ : (7, f) ∈ s.clients := by simp [hclients]
  have h₈ : (8, f) ∈ s.clients := by simp [hclients]
  refine ⟨s, hreach, fun hex => ?_, ⟨0, 1, m, x, by decide, hm, hx, hf.trans hg.symm⟩, f, h₇, h₈⟩
  exact absurd (hex.clients f 7 8 (.inl h₇) (.inl h₈)) (by decide)

/-- No other thread has changed the head of the chain since a lookup read it. -/
def headUnchanged : Rule (State HashTable Nat (Option Nat) (List (Nat × FileName))) (Move (Option Nat))
  | s, .step i _ => (s.threads[i]?.all fun th =>
      match th.pc with
      | .get (some head) => head == s.store.mutexHash (hashFunc th.arg.fileName)
      | _ => true) = true
  | _, _ => True

instance : ∀ (s : State HashTable Nat (Option Nat) (List (Nat × FileName))) (mv : Move (Option Nat)),
    Decidable (headUnchanged s mv)
  | _, .step _ _ => inferInstanceAs (Decidable (_ = true))
  | _, .accept _ => isTrue trivial
  | _, .reply _ => isTrue trivial

/-- A head that has not changed serves its lookup. -/
theorem served_of_unchanged {s : State HashTable Nat (Option Nat) (List (Nat × FileName))}
    (h : Reach lockMachine headUnchanged s) : Reach lockMachine stillServed s := by
  refine h.mono fun s mv hs _ hrule => ?_
  cases mv with
  | accept arg => trivial
  | step i a =>
    intro th head hth hpc
    obtain ⟨_, hrel, _⟩ := refines lawful disciplinedLawful ⟨_, init_shape⟩ init_view disciplined_fresh
      (lockMachine_sound hs)
    obtain ⟨_, hshape⟩ := hrel.inv
    simp only [headUnchanged, hth, Option.all_some, hpc, beq_iff_eq] at hrule
    rw [hrule]
    exact hshape.serves _
  | reply i => trivial

/-- Client 8 has its try for a file refused while client 7 holds it. -/
theorem exclusive_refused : ∃ s f, Reach lockMachine stillServed s ∧ (7, f) ∈ s.clients ∧
    s.threads.length = 2 ∧ Exclusive s := by
  let f : FileName := ⟨[102], by decide, by decide⟩
  obtain ⟨s, hreach, hs⟩ := Reach.exists_run (M := lockMachine) (R := headUnchanged)
    [.accept ⟨mdLock, 7, f⟩, .accept ⟨mdTryLock, 8, f⟩, .step 0 none, .step 0 (some 0), .step 1 none,
      .step 0 none, .step 1 none, .step 1 none, .reply 0, .step 1 none, .reply 1]
    (fun s => (7, f) ∈ s.clients && s.threads.length = 2)
    (.start (s := ⟨mutexHashInit, [], []⟩) ⟨rfl, rfl, rfl⟩) (by decide)
  simp only [Bool.and_eq_true, decide_eq_true_eq] at hs
  have hserved := served_of_unchanged hreach
  exact ⟨s, f, hserved, hs.1, hs.2, exclusive hserved⟩

end CacheFs.Mutex.Hash
