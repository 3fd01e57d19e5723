import CacheFs.Library.Transition
import CacheFs.Queue.Replicas

/-! Writes of a file and updates of its replicas, in any order.

Each registered replica has the key of a write to go on from. A `replica_update`
applies the log from there to its end and empties the key; a write sets the keys
only when it is the first of the log. So a write made while some replica has caught
up, and the log is not empty, is never applied to that replica (`missed_write`);
in runs without such writes, and without calls that are undefined, each replica's key is
that of its oldest write not yet applied (`none_missed`). -/
namespace CacheFs.Queue
open Interaction Linked Transition

/-- A file at work. `writes` and `applied` record what the store does not: the writes so
far, and for each replica the keys it has applied, both in their order; and whether a call
has done what C leaves undefined. -/
structure LogState where
  store : Store
  writes : List Write
  applied : Fin maxReplicas → List Key
  undefined : Bool

inductive LogMove where
  /-- A `write_queue_out` at a time of its own. -/
  | write (w : Write) (env : Nat → Bool)
  /-- A `replica_update` for the host of a registered replica. -/
  | update (i : Fin maxReplicas) (scratch : Scratch) (nodes : Nat) (env : Nat → Bool)

def LogState.next (f : Filename) (s : LogState) : LogMove → Option LogState
  | .write w env =>
    if w.arriveTime ∈ s.writes.map Write.arriveTime then none
    else
      match (w.program f).run serve env s.store with
      | (.returned 0, store) => some {s with store := store, writes := s.writes ++ [w]}
      | (.undefined, store) => some {s with store := store, undefined := true}
      | _ => none
  | .update i scratch nodes env => do
    let m ← s.store.md f.chars
    if i.val < m.replicaNum.val then
      match (replicaUpdate scratch f (m.myRep i).hostIp nodes).run serve env s.store with
      | (.done applied, store) => some {s with
          store := store
          applied := Function.update s.applied i (s.applied i ++ applied.map Applied.key)}
      | (.undefined, store) => some {s with store := store, undefined := true}
      | _ => none
    else none

/-- The registered replicas are on different hosts. -/
def MetaData.HostsDiffer (m : MetaData) : Prop :=
  ∀ i j, m.Registered i → m.Registered j → (m.myRep i).hostIp = (m.myRep j).hostIp → i = j

/-- The metadata of a file that was never written. -/
structure MetaData.Unwritten (m : MetaData) : Prop where
  head : m.ioNodeQHead = []
  tail : m.ioNodeQTail = []
  ptrs : ∀ i, m.Registered i → (m.myRep i).ioNodePtr = []
  hosts : m.HostsDiffer

def logMachine (f : Filename) : Machine LogState LogMove where
  start := fun s => s.writes = [] ∧ s.applied = (fun _ => []) ∧ s.undefined = false ∧
    ∃ m, s.store.md f.chars = some m ∧ m.Unwritten
  step := LogState.next f

/-- Nothing undefined has been done, and each replica's key is that of its oldest write not yet
applied, and is empty just when it has applied every write. -/
def NoneMissed (f : Filename) (s : LogState) : Prop :=
  s.undefined = false ∧ ∃ m, s.store.md f.chars = some m ∧ ∀ i, m.Registered i →
    ptr (m.myRep i).ioNodePtr = (keys f s.writes).find? (fun k => decide (k ∉ s.applied i)) ∧
    ((m.myRep i).ioNodePtr = [] ↔ ∀ k ∈ keys f s.writes, k ∈ s.applied i)

/-- A write is made with a key and a count that fit, on an empty log or while no registered
replica has caught up; and an update, unless it has nothing to apply, with the memory it
needs. -/
def noneCaughtUp (f : Filename) : Rule LogState LogMove
  | s, .write w _ => w.Defined f ∧ ∀ m ∈ s.store.md f.chars,
      m.ioNodeQHead = [] ∨ ∀ i : Fin maxReplicas, i.val < m.replicaNum.val → (m.myRep i).ioNodePtr ≠ []
  | s, .update i scratch _ _ => scratch.Fits ∨ ∀ m ∈ s.store.md f.chars, (m.myRep i).ioNodePtr = []

instance (f : Filename) : ∀ (s : LogState) (mv : LogMove), Decidable (noneCaughtUp f s mv)
  | s, .write w _ => inferInstanceAs (Decidable (w.Defined f ∧ ∀ m ∈ s.store.md f.chars,
      m.ioNodeQHead = [] ∨ ∀ i : Fin maxReplicas, i.val < m.replicaNum.val → (m.myRep i).ioNodePtr ≠ []))
  | s, .update i scratch _ _ =>
    inferInstanceAs (Decidable (scratch.Fits ∨ ∀ m ∈ s.store.md f.chars, (m.myRep i).ioNodePtr = []))

/-- What is left to a replica is the end of the log, and its key is the first of that. -/
structure Behind (f : Filename) (s : LogState) (m : MetaData) : Prop where
  defined : s.undefined = false
  logged : Logged f s.writes m s.store
  times : (s.writes.map Write.arriveTime).Nodup
  hosts : m.HostsDiffer
  left : ∀ i, m.Registered i → ∃ us vs, s.writes = us ++ vs ∧ s.applied i = keys f us ∧
    ptr (m.myRep i).ioNodePtr = (keys f vs).head?

/-- A write keeps what is left to each replica, when none has caught up. -/
theorem Behind.write {f : Filename} {s : LogState} {m : MetaData} (h : Behind f s m) {w : Write}
    (hnew : w.arriveTime ∉ s.writes.map Write.arriveTime)
    (hrule : m.ioNodeQHead = [] ∨ ∀ i : Fin maxReplicas, m.Registered i → (m.myRep i).ioNodePtr ≠ [])
    {store : Store} (hw : Prog.Ends serve (w.program f) s.store (.returned 0) store) :
    Behind f {s with store := store, writes := s.writes ++ [w]} (m.wrote (w.key f)) := by
  have hkey : w.key f ∉ keys f s.writes := by
    intro hmem
    obtain ⟨v, hv, hvw⟩ := List.mem_map.mp hmem
    exact hnew (ionKey_inj hvw ▸ List.mem_map_of_mem hv)
  refine ⟨h.defined, h.logged.write hkey hw, ?_, fun i j hi hj hij => ?_, fun i hi => ?_⟩
  · rw [List.map_append, List.nodup_append]
    exact ⟨h.times, by simp, fun a ha b hb => by
      rw [List.mem_singleton.mp hb]
      intro heq
      subst heq
      exact hnew ha⟩
  · rw [MetaData.wrote_hostIp, MetaData.wrote_hostIp] at hij
    exact h.hosts i j (MetaData.wrote_registered.mp hi) (MetaData.wrote_registered.mp hj) hij
  · have hi' := MetaData.wrote_registered.mp hi
    obtain ⟨us, vs, hsplit, happlied, hptr⟩ := h.left i hi'
    refine ⟨us, vs ++ [w], by simp [hsplit], happlied, ?_⟩
    rw [MetaData.wrote_myRep]
    by_cases hhead : m.ioNodeQHead = []
    · -- the first write of the log is left to every replica
      have hempty := h.logged.head
      rw [hhead, ptr_nil, eq_comm, List.head?_eq_none_iff, keys, List.map_eq_nil_iff, hsplit,
        List.append_eq_nil_iff] at hempty
      rw [if_pos ⟨hhead, hi'⟩, hempty.2]
      exact ptr_ne_nil (ionKey_ne_nil f w.arriveTime)
    · rw [if_neg fun hc => hhead hc.1, hptr]
      have hleft := (hrule.resolve_left hhead) i hi'
      rw [ptr_ne_nil hleft] at hptr
      cases vs with
      | nil => cases hptr
      | cons v vs => rfl

/-- An update leaves nothing to its replica, and to the others what was left. -/
theorem Behind.update {f : Filename} {s : LogState} {m : MetaData} (h : Behind f s m)
    {i : Fin maxReplicas} (hi : m.Registered i) {scratch : Scratch} {nodes : Nat} {applied : List Applied}
    {store : Store}
    (hu : Prog.Ends serve (replicaUpdate scratch f (m.myRep i).hostIp nodes) s.store (.done applied) store) :
    Behind f {s with
      store := store
      applied := Function.update s.applied i (s.applied i ++ applied.map Applied.key)} (m.caughtUp i) := by
  obtain ⟨j, hj, hhost, hpath, rfl⟩ := replicaUpdate_done h.logged.metaData hi hu
  cases h.hosts j i hj hi hhost
  obtain ⟨us, vs, hsplit, happlied, hptr⟩ := h.left i hi
  have hkeys : applied.map Applied.key = keys f vs := by
    have hlog := h.logged
    rw [hsplit] at hlog
    rw [hptr] at hpath
    exact hpath.unique hlog.path
  refine ⟨h.defined, ⟨Function.update_self .., h.logged.head, h.logged.tail, h.logged.linked, h.logged.node,
    h.logged.data⟩, h.times, fun a b ha hb hab => ?_, fun k hk => ?_⟩
  · rw [MetaData.caughtUp_hostIp, MetaData.caughtUp_hostIp] at hab
    exact h.hosts a b ha hb hab
  · by_cases hki : k = i
    · subst hki
      refine ⟨s.writes, [], by simp, ?_, by simp [MetaData.caughtUp, keys]⟩
      refine (Function.update_self ..).trans ?_
      rw [happlied, hkeys, hsplit, keys, keys, keys, List.map_append]
    · obtain ⟨us', vs', hsplit', happlied', hptr'⟩ := h.left k hk
      exact ⟨us', vs', hsplit', (Function.update_of_ne hki _ _).trans happlied',
        by simpa [MetaData.caughtUp, hki] using hptr'⟩

/-- What is left to a replica is what it has not applied. -/
theorem Behind.noneMissed {f : Filename} {s : LogState} {m : MetaData} (h : Behind f s m) : NoneMissed f s := by
  refine ⟨h.defined, m, h.logged.metaData, fun i hi => ?_⟩
  obtain ⟨us, vs, hsplit, happlied, hptr⟩ := h.left i hi
  have hdup := keys_nodup (f := f) |>.mpr h.times
  have hkeys : keys f s.writes = keys f us ++ keys f vs := by rw [hsplit, keys, List.map_append]; rfl
  rw [hkeys] at hdup ⊢
  have hapart := (List.nodup_append.mp hdup).2.2
  rw [happlied]
  constructor
  · have hskip : (keys f us).find? (fun k => decide (k ∉ keys f us)) = none := by
      simp
    rw [List.find?_append, hskip, Option.none_or, hptr]
    cases hvs : keys f vs with
    | nil => rfl
    | cons k l =>
      have hk : k ∉ keys f us := fun hmem => hapart k hmem k (hvs ▸ List.mem_cons_self) rfl
      simp [hk]
  · rw [← ptr_eq_none, hptr, List.head?_eq_none_iff]
    constructor
    · intro hnil k hk
      simpa [hnil] using hk
    · intro hall
      by_contra hne
      obtain ⟨k, l, hvs⟩ := List.exists_cons_of_ne_nil hne
      have hk : k ∈ keys f vs := hvs ▸ List.mem_cons_self
      exact hapart k (hall k (List.mem_append_right _ hk)) k hk rfl

theorem Behind.start {f : Filename} {s : LogState} (h : (logMachine f).start s) : ∃ m, Behind f s m := by
  obtain ⟨hwrites, happlied, hdefined, m, hm, hun⟩ := h
  refine ⟨m, hdefined, ⟨hm, ?_, ?_, ?_, ?_, ?_⟩, ?_, hun.hosts, fun i hi => ⟨[], [], ?_, ?_, ?_⟩⟩
  · rw [hwrites, hun.head]; rfl
  · rw [hwrites, hun.tail]; rfl
  · rw [hwrites]; trivial
  · simp [hwrites]
  · simp [hwrites]
  · simp [hwrites]
  · exact hwrites
  · rw [happlied]; rfl
  · rw [hun.ptrs i hi]; rfl

theorem Behind.step {f : Filename} {s s' : LogState} {m : MetaData} (h : Behind f s m) {mv : LogMove}
    (hrule : noneCaughtUp f s mv) (hnext : s.next f mv = some s') : ∃ m', Behind f s' m' := by
  cases mv with
  | write w env =>
    simp only [LogState.next] at hnext
    split at hnext
    · cases hnext
    rename_i hnew
    have hends := Prog.run_ends (h := serve) (w.program f) env s.store
    split at hnext
    · rename_i store hrun
      cases hnext
      rw [hrun] at hends
      exact ⟨_, h.write hnew (hrule.2 m h.logged.metaData) hends⟩
    · rename_i store hrun
      rw [hrun] at hends
      have hundefined : Prog.Ends serve (w.programWith f []) s.store .undefined store := hends
      exact absurd hrule.1 (Write.ends_undefined hundefined)
    · cases hnext
  | update i scratch nodes env =>
    simp only [LogState.next, h.logged.metaData, Option.bind_eq_bind, Option.bind_some] at hnext
    split at hnext
    · rename_i hi
      have hends := Prog.run_ends (h := serve) (replicaUpdate scratch f (m.myRep i).hostIp nodes) env s.store
      split at hnext
      · rename_i applied store hrun
        cases hnext
        rw [hrun] at hends
        exact ⟨_, h.update hi hends⟩
      · rename_i store hrun
        rw [hrun] at hends
        refine absurd rfl (replicaUpdate_defined h.logged.metaData hi (hrule.imp_right fun hnone j hj hhost => ?_) hends)
        rw [h.hosts j i hj hi hhost]
        exact hnone m h.logged.metaData
      · cases hnext
    · cases hnext

/-- **No replica misses a write** in a run whose every write has a key and a count that fit and
is made on an empty log or while no registered replica has caught up, and whose every
update that has something to apply has the memory for it. -/
theorem none_missed {f : Filename} {s : LogState} (h : Reach (logMachine f) (noneCaughtUp f) s) :
    NoneMissed f s := by
  obtain ⟨m, hm⟩ : ∃ m, Behind f s m := by
    refine h.invariant (I := fun s => ∃ m, Behind f s m) (fun _ hs => Behind.start hs) fun s mv s' h hrule hnext => ?_
    obtain ⟨m, hm⟩ := h
    exact hm.step hrule hnext
  exact hm.noneMissed

theorem MetaData.new_unwritten (n : Fin (maxReplicas + 1)) : (MetaData.new n).Unwritten := by
  refine ⟨rfl, rfl, fun _ _ => rfl, fun i j _ _ hij => Fin.ext (toDigits_inj hij)⟩

/-- A file with so many replicas, not yet written. -/
def LogState.new (f : Filename) (n : Fin (maxReplicas + 1)) : LogState :=
  ⟨.ofFile f (.new n), [], fun _ => [], false⟩

theorem LogState.new_start (f : Filename) (n : Fin (maxReplicas + 1)) :
    (logMachine f).start (LogState.new f n) :=
  ⟨rfl, rfl, rfl, .new n, Store.ofFile_md f _, MetaData.new_unwritten n⟩

/-- A write of no bytes. -/
def Write.at (t : Int64) : Write := ⟨.write, t, 0, [], 0, by decide⟩

/-- The one replica of a file applies the first write, and then a second one is made:
the replica's key stays empty. -/
theorem missed_write : ∃ f s, Reachable (logMachine f) s ∧ s.undefined = false ∧ ¬ NoneMissed f s := by
  let f : Filename := ⟨['f'], by decide⟩
  obtain ⟨s, hreach, hs⟩ := Reach.exists_run (M := logMachine f) (R := always)
    [.write (.at 1) fun _ => false, .update 0 ⟨true, true⟩ 1 fun _ => false, .write (.at 2) fun _ => false]
    (fun s : LogState =>
      (s.store.md f.chars).any (fun m : MetaData => 0 < m.replicaNum.val ∧ (m.myRep 0).ioNodePtr = []) &&
        decide (keys f s.writes = [ionKey f 1, ionKey f 2] ∧ s.applied 0 = [ionKey f 1] ∧ s.undefined = false))
    (.start (LogState.new_start f 1)) (by decide +kernel)
  simp only [Bool.and_eq_true, decide_eq_true_eq, Option.any_eq_true] at hs
  obtain ⟨⟨m, hm, hnum, hempty⟩, hkeys, happlied, hdefined⟩ := hs
  refine ⟨f, s, hreach, hdefined, fun ⟨_, m', hm', hall⟩ => ?_⟩
  cases hm.symm.trans hm'
  have hmissed := (hall 0 hnum).2.mp hempty (ionKey f 2) (by simp [hkeys])
  rw [happlied, List.mem_singleton] at hmissed
  exact absurd (ionKey_inj hmissed) (by decide)

/-- Two writes, and then the first of two replicas applies them. -/
theorem none_missed_behind : ∃ f s, Reach (logMachine f) (noneCaughtUp f) s ∧
    s.writes.length = 2 ∧ (s.applied 0).length = 2 ∧ NoneMissed f s := by
  let f : Filename := ⟨['f'], by decide⟩
  obtain ⟨s, hreach, hs⟩ := Reach.exists_run (M := logMachine f) (R := noneCaughtUp f)
    [.write (.at 1) fun _ => false, .write (.at 2) fun _ => false, .update 0 ⟨true, true⟩ 2 fun _ => false]
    (fun s : LogState => decide (s.writes.length = 2 ∧ (s.applied 0).length = 2))
    (.start (LogState.new_start f 2)) (by decide +kernel)
  simp only [decide_eq_true_eq] at hs
  exact ⟨f, s, hreach, hs.1, hs.2, none_missed hreach⟩

end CacheFs.Queue
