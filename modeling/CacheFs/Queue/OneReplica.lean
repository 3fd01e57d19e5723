import CacheFs.Queue.Calls
import CacheFs.Queue.Replicas

/-! Which replica a `replica_update` touches.

After its search, `replica_update` goes on with the replica it looked at last, and
empties the key at the index the search stopped at, whether it found the host or not.
For a host that no registered replica is on, these are the last replica and the index
after it. So nothing but the named replica is touched just when the search finds one, or
the last replica has no log to walk to its end; and the memory it needs is there, if there
is a node to get (`host_only`). -/
namespace CacheFs.Queue
open Interaction Linked

/-- The registered replicas. -/
def MetaData.registered (m : MetaData) : List Replica := (List.ofFn m.myRep).take m.replicaNum

/-- Where the search reads `my_rep`. -/
def searched (hostIp : List Char) : List Replica → Nat → List Nat
  | [], _ => []
  | replica :: rest, i => i :: if replica.hostIp = hostIp then [] else searched hostIp rest (i + 1)

/-- `replica_update`, with the indices at which it has read and written `my_rep`. -/
def replicaUpdateAt (scratch : Scratch) (f : Filename) (hostIp : List Char) (nodes : Nat) :
    Program (Update × List Nat) := do
  match ← mdGet f.chars with
  | some m =>
    let read := searched hostIp m.registered 0
    match findReplica hostIp m.registered 0 none with
    | (_, none) => return (.undefined, read)
    | (i, some replica) =>
      if replica.ioNodePtr.length ≠ 0 then
        match ← walkLog scratch nodes replica.ioNodePtr with
        | .failed => return (.failed, read)
        | .running => return (.running, read)
        | .undefined => return (.undefined, read)
        | .ended applied =>
          -- the `bzero` is at `i`, registered or not
          if h : i < maxReplicas then
            let myRep := Function.update m.myRep ⟨i, h⟩ {m.myRep ⟨i, h⟩ with ioNodePtr := []}
            if ← mdPut f.chars {m with myRep := myRep} then return (.done applied, read ++ [i])
            else return (.failed, read ++ [i])
          else return (.undefined, read ++ [i])
      else if ← mdPut f.chars m then return (.done [], read) else return (.failed, read)
  | none => return (.failed, [])

/-- The indices are all that it adds. -/
theorem replicaUpdateAt_fst (scratch : Scratch) (f : Filename) (hostIp : List Char) (nodes : Nat) :
    (replicaUpdateAt scratch f hostIp nodes >>= fun x => return x.1) = replicaUpdate scratch f hostIp nodes := by
  simp only [replicaUpdateAt, replicaUpdate, MetaData.registered, mdGet_bind, Prog.call_bind]
  congr 1
  funext o
  cases o with
  | none => rfl
  | some m =>
    simp only
    cases findReplica hostIp ((List.ofFn m.myRep).take m.replicaNum) 0 none with
    | mk i last =>
      cases last with
      | none => rfl
      | some replica =>
        simp only
        split
        · rw [Prog.bind_assoc]
          congr 1
          funext r
          cases r with
          | failed | running | undefined => rfl
          | ended applied =>
            simp only
            split
            · simp only [mdPut_bind, Prog.call_bind]
              congr 1
              funext ok
              cases ok <;> rfl
            · rfl
        · simp only [mdPut_bind, Prog.call_bind]
          congr 1
          funext ok
          cases ok <;> rfl

/-! ### The search -/

/-- The search comes to the first replica on the host, or else to the last. -/
theorem findReplica_snd (hostIp : List Char) (l : List Replica) (i : Nat) (last : Option Replica) :
    (findReplica hostIp l i last).2 = (l.find? fun r => decide (r.hostIp = hostIp)).or (l.getLast?.or last) := by
  induction l generalizing i last with
  | nil => rfl
  | cons a l ih =>
    by_cases ha : a.hostIp = hostIp
    · simp [findReplica, ha]
    · rw [findReplica, if_neg ha, ih, List.find?_cons_of_neg (by simpa using ha), List.getLast?_cons]
      cases l.getLast? <;> rfl

theorem searched_bounds {hostIp : List Char} {l : List Replica} {i j : Nat} (h : j ∈ searched hostIp l i) :
    i ≤ j ∧ j < i + l.length := by
  induction l generalizing i with
  | nil => cases h
  | cons a l ih =>
    rw [searched, List.mem_cons] at h
    rw [List.length_cons]
    obtain rfl | h := h
    · omega
    · split at h
      · cases h
      · have := ih h
        omega

/-- For a host that is not there, the search stops after the last replica. -/
theorem findReplica_missing {hostIp : List Char} {l : List Replica} (hl : ∀ r ∈ l, r.hostIp ≠ hostIp) (i : Nat)
    (last : Option Replica) : findReplica hostIp l i last = (i + l.length, l.getLast?.or last) := by
  induction l generalizing i last with
  | nil => simp [findReplica]
  | cons a l ih =>
    rw [findReplica, if_neg (hl a List.mem_cons_self), ih fun r hr => hl r (List.mem_cons_of_mem _ hr),
      List.length_cons, List.getLast?_cons]
    cases l.getLast? <;> simp <;> omega

namespace MetaData
variable {m : MetaData} {hostIp : List Char}

theorem registered_length (m : MetaData) : m.registered.length = m.replicaNum := by
  have := m.replicaNum.isLt
  rw [registered, List.length_take, List.length_ofFn]
  omega

theorem registered_get (m : MetaData) {i : Fin maxReplicas} (hi : m.Registered i) :
    m.registered[i.val]? = some (m.myRep i) := by
  rw [registered, List.getElem?_take_of_lt hi, List.getElem?_ofFn]
  simp

/-- A registered replica is on the host. -/
def OnHost (m : MetaData) (hostIp : List Char) (i : Fin maxReplicas) : Prop :=
  m.Registered i ∧ (m.myRep i).hostIp = hostIp

instance (m : MetaData) (hostIp : List Char) (i : Fin maxReplicas) : Decidable (m.OnHost hostIp i) :=
  inferInstanceAs (Decidable (i.val < m.replicaNum.val ∧ _))

theorem find_onHost (h : ∃ i, m.OnHost hostIp i) :
    ∃ i, m.OnHost hostIp i ∧ findReplica hostIp m.registered 0 none = (i.val, some (m.myRep i)) := by
  obtain ⟨i, hi, rfl⟩ := h
  obtain ⟨j, hj, hhost, hfind⟩ := find_registered hi
  exact ⟨j, ⟨hj, hhost⟩, hfind⟩

theorem find_missing (h : ∀ i, ¬ m.OnHost hostIp i) :
    findReplica hostIp m.registered 0 none = (m.replicaNum.val, m.registered.getLast?) := by
  rw [findReplica_missing, registered_length, Nat.zero_add, Option.or_none]
  intro r hr hhost
  obtain ⟨i, hi, rfl⟩ := List.getElem_of_mem hr
  rw [registered_length] at hi
  have hreg : m.Registered ⟨i, by have := m.replicaNum.isLt; omega⟩ := hi
  have hget := m.registered_get hreg
  rw [List.getElem?_eq_getElem (by rw [registered_length]; exact hi)] at hget
  exact h _ ⟨hreg, by rw [← Option.some.inj hget, hhost]⟩

/-- The last registered replica. -/
theorem registered_last (m : MetaData) {i : Fin maxReplicas} (hi : i.val + 1 = m.replicaNum.val) :
    m.registered.getLast? = some (m.myRep i) := by
  rw [List.getLast?_eq_getElem?, registered_length, ← hi, Nat.add_sub_cancel]
  exact m.registered_get (by rw [Registered]; omega)

end MetaData

/-! ### What it touches -/

/-- What a `replica_update` for the host may do: it is defined, it reads and writes `my_rep`
below `replica_num`, and it empties the key of the replica on the host, if there is one
registered, and is that all. -/
structure HostOnlyRun (f : Filename) (hostIp : List Char) (s : Store) (m : MetaData) (r : Update) (touched : List Nat)
    (s' : Store) : Prop where
  defined : r ≠ .undefined
  within : ∀ i ∈ touched, i < m.replicaNum.val
  named : (∃ i, m.OnHost hostIp i) → ∀ applied, r = .done applied →
    ∃ i, m.OnHost hostIp i ∧ s' = {s with md := Function.update s.md f.chars (some (m.caughtUp i))}
  unnamed : (∀ i, ¬ m.OnHost hostIp i) → s' = s

/-- However a `replica_update` for the host goes, it touches only that. -/
def HostOnly (scratch : Scratch) (f : Filename) (hostIp : List Char) (s : Store) (m : MetaData) : Prop :=
  ∀ nodes r touched s', Prog.Ends serve (replicaUpdateAt scratch f hostIp nodes) s (r, touched) s' →
    HostOnlyRun f hostIp s m r touched s'

/-- The replica that is caught up: the first on the host, or else the last. -/
def MetaData.chosen (m : MetaData) (hostIp : List Char) : Option Replica :=
  (m.registered.find? fun r => decide (r.hostIp = hostIp)).or m.registered.getLast?

/-- The replica that is caught up has no node to get. -/
def NothingToGet (hostIp : List Char) (s : Store) (m : MetaData) : Prop :=
  ∀ r ∈ m.chosen hostIp, r.ioNodePtr = [] ∨ s.ion r.ioNodePtr = none

/-- The last registered replica has no log, or one that does not come to its end. -/
def LastIdle (s : Store) (m : MetaData) : Prop :=
  ∃ i : Fin maxReplicas, i.val + 1 = m.replicaNum.val ∧
    ((m.myRep i).ioNodePtr = [] ∨ ∀ l, ¬ Path (ionNextOf s) (ptr (m.myRep i).ioNodePtr) l)

theorem MetaData.chosen_eq {m : MetaData} {hostIp : List Char} {i : Nat} {last : Option Replica}
    (h : findReplica hostIp m.registered 0 none = (i, last)) : m.chosen hostIp = last := by
  have hsnd := findReplica_snd hostIp m.registered 0 none
  rw [h, Option.or_none] at hsnd
  exact hsnd.symm

section Course
variable {scratch : Scratch} {f : Filename} {hostIp : List Char} {s s' : Store} {m : MetaData} {i : Nat}
  {replica : Replica}

/-- How a `replica_update` may go, by what its search has come to. It stops early; or it has not
the memory for a node that it gets; or it has no log to walk, and puts the metadata back; or
it has walked one and empties the key at the index. -/
theorem replicaUpdateAt_course (hm : s.md f.chars = some m)
    (hfind : findReplica hostIp m.registered 0 none = (i, some replica)) {nodes : Nat} {r : Update}
    {touched : List Nat} (h : Prog.Ends serve (replicaUpdateAt scratch f hostIp nodes) s (r, touched) s') :
    (s' = s ∧ (r = .failed ∨ r = .running) ∧ touched ⊆ searched hostIp m.registered 0) ∨
    (r = .undefined ∧ ¬ scratch.Fits ∧ ¬ NothingToGet hostIp s m) ∨
    (s' = s ∧ replica.ioNodePtr = [] ∧ r = .done [] ∧ touched = searched hostIp m.registered 0) ∨
    ((∃ l, replica.ioNodePtr ≠ [] ∧ Path (ionNextOf s) (ptr replica.ioNodePtr) l) ∧
      touched = searched hostIp m.registered 0 ++ [i] ∧
      ∀ hi : i < maxReplicas, (s' = s ∧ r = .failed) ∨ (∃ applied, r = .done applied ∧
        s' = {s with md := Function.update s.md f.chars (some (m.caughtUp ⟨i, hi⟩))})) := by
  obtain h | h := ends_mdGet.mp h
  · obtain ⟨hr, rfl⟩ := Prog.ends_ret.mp h
    cases hr
    exact .inl ⟨rfl, .inl rfl, by simp⟩
  simp only [hm, hfind] at h
  split at h
  · rename_i hlog
    have hne : replica.ioNodePtr ≠ [] := fun hnil => hlog (by rw [hnil]; rfl)
    obtain ⟨walk, s₁, hwalk, hput⟩ := Prog.ends_bind.mp h
    cases walk with
    | failed =>
      obtain ⟨hr, rfl⟩ := Prog.ends_ret.mp hput
      cases hr
      exact .inl ⟨gets_store (walkLog_gets scratch nodes _) hwalk, .inl rfl, List.Subset.refl _⟩
    | running =>
      obtain ⟨hr, rfl⟩ := Prog.ends_ret.mp hput
      cases hr
      exact .inl ⟨gets_store (walkLog_gets scratch nodes _) hwalk, .inr rfl, List.Subset.refl _⟩
    | undefined =>
      obtain ⟨hr, rfl⟩ := Prog.ends_ret.mp hput
      cases hr
      obtain ⟨hscratch, hnode⟩ := walkLog_gets_first hne hwalk
      refine .inr (.inl ⟨rfl, hscratch, fun hnothing => ?_⟩)
      obtain hnil | hnone := hnothing replica (MetaData.chosen_eq hfind)
      · exact hne hnil
      · exact hnode hnone
    | ended applied =>
      obtain ⟨rfl, hpath⟩ := walkLog_ended hwalk
      refine .inr (.inr (.inr ⟨⟨_, hne, hpath⟩, ?_⟩))
      by_cases hi : i < maxReplicas
      · simp only [hi, dif_pos] at hput
        obtain hput | hput := ends_mdPut.mp hput
        · obtain ⟨hr, rfl⟩ := Prog.ends_ret.mp hput
          cases hr
          exact ⟨rfl, fun _ => .inl ⟨rfl, rfl⟩⟩
        · obtain ⟨hr, rfl⟩ := Prog.ends_ret.mp hput
          cases hr
          exact ⟨rfl, fun _ => .inr ⟨_, rfl, rfl⟩⟩
      · simp only [hi, not_false_eq_true, dif_neg] at hput
        obtain ⟨hr, rfl⟩ := Prog.ends_ret.mp hput
        cases hr
        exact ⟨rfl, fun hi' => absurd hi' hi⟩
  · rename_i hlog
    have hnil : replica.ioNodePtr = [] := List.length_eq_zero_iff.mp (not_not.mp hlog)
    obtain h | h := ends_mdPut.mp h
    · obtain ⟨hr, rfl⟩ := Prog.ends_ret.mp h
      cases hr
      exact .inl ⟨rfl, .inl rfl, List.Subset.refl _⟩
    · obtain ⟨hr, rfl⟩ := Prog.ends_ret.mp h
      cases hr
      refine .inr (.inr (.inl ⟨?_, hnil, rfl, rfl⟩))
      rw [← hm, Function.update_eq_self]

/-- A path is walked to its end, in a round for each key. -/
theorem walkLog_path (hscratch : scratch.Fits) {l : List Key} {k : Key} (h : Path (ionNextOf s) (ptr k) l) :
    ∃ applied, (walkLog scratch l.length k).run serve (fun _ => false) s = (.ended applied, s) := by
  induction l generalizing k with
  | nil =>
    rw [ptr_eq_none.mp h, walkLog_nil]
    exact ⟨[], rfl⟩
  | cons a l ih =>
    obtain ⟨hk, next, hnext, hpath⟩ := h
    obtain ⟨rfl, hne⟩ := ptr_eq_some.mp hk
    obtain ⟨n, hn, rfl⟩ := Option.map_eq_some_iff.mp hnext
    obtain ⟨applied, hrest⟩ := ih hpath
    rw [List.length_cons, walkLog_succ _ hne, ionGet_bind, Prog.run_call]
    simp only [serve, hn, if_pos hscratch, iodGet_bind, Prog.run_call, Prog.run_bind, hrest, Bool.false_eq_true,
      if_false]
    exact ⟨_, rfl⟩

/-- When no call fails, the walk of a path leads to the index where the search stopped. -/
theorem replicaUpdateAt_reaches (hscratch : scratch.Fits) (hm : s.md f.chars = some m)
    (hfind : findReplica hostIp m.registered 0 none = (i, some replica)) (hne : replica.ioNodePtr ≠ [])
    {l : List Key} (hpath : Path (ionNextOf s) (ptr replica.ioNodePtr) l) :
    i ∈ ((replicaUpdateAt scratch f hostIp l.length).run serve (fun _ => false) s).1.2 := by
  obtain ⟨applied, hwalk⟩ := walkLog_path hscratch hpath
  rw [replicaUpdateAt, mdGet_bind, Prog.run_call]
  simp only [serve, hm, hfind, Bool.false_eq_true, if_false, ne_eq, List.length_eq_zero_iff, hne, not_false_eq_true,
    if_true, Prog.run_bind, hwalk]
  split
  · simp [serve]
  · simp

end Course

section Main
variable {scratch : Scratch} {f : Filename} {hostIp : List Char} {s : Store} {m : MetaData}

theorem HostOnly.of_named (hm : s.md f.chars = some m) (hnamed : ∃ i, m.OnHost hostIp i)
    (hmemory : scratch.Fits ∨ NothingToGet hostIp s m) : HostOnly scratch f hostIp s m := by
  intro nodes r touched s' h
  obtain ⟨i, hi, hfind⟩ := MetaData.find_onHost hnamed
  have hread (j : Nat) (hj : j ∈ searched hostIp m.registered 0) : j < m.replicaNum.val := by
    have := (searched_bounds hj).2
    rw [m.registered_length] at this
    omega
  have none_absurd (hnone : ∀ i, ¬ m.OnHost hostIp i) : s' = s := absurd hi (hnone i)
  obtain ⟨-, hr, hsub⟩ | ⟨-, hscratch, hget⟩ | ⟨rfl, hnil, rfl, rfl⟩ | ⟨-, rfl, hput⟩ :=
    replicaUpdateAt_course hm hfind h
  · refine ⟨?_, fun j hj => hread j (hsub hj), fun _ applied hdone => ?_, none_absurd⟩
    · obtain rfl | rfl := hr <;> simp
    · rw [hdone] at hr
      obtain hr | hr := hr <;> cases hr
  · exact absurd (hmemory.resolve_left hscratch) hget
  · refine ⟨by simp, hread, fun _ applied _ => ⟨i, hi, ?_⟩, none_absurd⟩
    rw [MetaData.caughtUp_eq hnil, ← hm, Function.update_eq_self]
  · refine ⟨?_, fun j hj => ?_, fun _ applied hdone => ⟨i, hi, ?_⟩, none_absurd⟩
    · obtain ⟨-, rfl⟩ | ⟨applied, rfl, -⟩ := hput i.isLt <;> simp
    · obtain hj | hj := List.mem_append.mp hj
      · exact hread j hj
      · rw [List.mem_singleton.mp hj]
        exact hi.1
    · obtain ⟨-, hr⟩ | ⟨applied', hr, hs'⟩ := hput i.isLt
      · rw [hr] at hdone
        cases hdone
      · exact hs'

theorem HostOnly.of_lastIdle (hm : s.md f.chars = some m) (hnone : ∀ i, ¬ m.OnHost hostIp i) (hidle : LastIdle s m)
    (hmemory : scratch.Fits ∨ NothingToGet hostIp s m) : HostOnly scratch f hostIp s m := by
  intro nodes r touched s' h
  obtain ⟨i, hi, hidle⟩ := hidle
  have hfind := MetaData.find_missing hnone
  rw [m.registered_last hi] at hfind
  have hread (j : Nat) (hj : j ∈ searched hostIp m.registered 0) : j < m.replicaNum.val := by
    have := (searched_bounds hj).2
    rw [m.registered_length] at this
    omega
  have named_absurd {P : Prop} (hnamed : ∃ i, m.OnHost hostIp i) : P := by
    obtain ⟨j, hj⟩ := hnamed
    exact absurd hj (hnone j)
  obtain ⟨rfl, hr, hsub⟩ | ⟨-, hscratch, hget⟩ | ⟨rfl, -, rfl, rfl⟩ | ⟨hwalked, -⟩ := replicaUpdateAt_course hm hfind h
  · refine ⟨?_, fun j hj => hread j (hsub hj), fun hnamed => named_absurd hnamed, fun _ => rfl⟩
    obtain rfl | rfl := hr <;> simp
  · exact absurd (hmemory.resolve_left hscratch) hget
  · exact ⟨by simp, hread, fun hnamed => named_absurd hnamed, fun _ => rfl⟩
  · obtain ⟨l, hne, hpath⟩ := hwalked
    obtain hnil | hpaths := hidle
    · exact absurd hnil hne
    · exact absurd hpath (hpaths l)

/-- For a host that no replica is on, the last replica has to be idle. -/
theorem HostOnly.lastIdle (h : HostOnly scratch f hostIp s m) (hm : s.md f.chars = some m)
    (hmemory : scratch.Fits ∨ NothingToGet hostIp s m) (hnone : ∀ i, ¬ m.OnHost hostIp i) : LastIdle s m := by
  have hfind := MetaData.find_missing hnone
  have hnum := m.replicaNum.isLt
  cases hzero : m.replicaNum.val with
  | zero =>
    -- `replica` is read without having been set
    have hlast : m.registered.getLast? = none := by
      rw [List.getLast?_eq_none_iff, ← List.length_eq_zero_iff, m.registered_length, hzero]
    rw [hlast] at hfind
    have hends := Prog.run_ends (h := serve) (replicaUpdateAt scratch f hostIp 0) (fun _ => false) s
    have hundefined : ((replicaUpdateAt scratch f hostIp 0).run serve (fun _ => false) s).1.1 = .undefined := by
      rw [replicaUpdateAt, mdGet_bind, Prog.run_call]
      simp only [serve, hm, hfind, Bool.false_eq_true, if_false]
      rfl
    exact absurd hundefined (h _ _ _ _ hends).defined
  | succ k =>
    have hlt : k < maxReplicas := by omega
    refine ⟨⟨k, hlt⟩, hzero.symm, ?_⟩
    rw [m.registered_last (i := ⟨k, hlt⟩) hzero.symm] at hfind
    refine or_iff_not_imp_left.mpr fun hne l hpath => ?_
    obtain hscratch | hnothing := hmemory
    · have hends := Prog.run_ends (h := serve) (replicaUpdateAt scratch f hostIp l.length) (fun _ => false) s
      have hout := (h _ _ _ _ hends).within _ (replicaUpdateAt_reaches hscratch hm hfind hne hpath)
      exact absurd hout (Nat.lt_irrefl _)
    · -- a path begins at a node
      have hnode := (hnothing _ (MetaData.chosen_eq hfind)).resolve_left hne
      cases l with
      | nil => exact hne (ptr_eq_none.mp hpath)
      | cons a l =>
        obtain ⟨hk, next, hnext, -⟩ := hpath
        rw [← (ptr_eq_some.mp hk).1, ionNextOf, hnode] at hnext
        cases hnext

/-- What is got needs the memory. -/
theorem HostOnly.memory (h : HostOnly scratch f hostIp s m) (hm : s.md f.chars = some m) :
    scratch.Fits ∨ NothingToGet hostIp s m := by
  refine or_iff_not_imp_left.mpr fun hscratch r hr => or_iff_not_imp_left.mpr fun hne => ?_
  cases hfind : findReplica hostIp m.registered 0 none with
  | mk i last =>
    obtain rfl : last = some r := (MetaData.chosen_eq hfind).symm.trans hr
    by_contra hnode
    obtain ⟨n, hn⟩ := Option.ne_none_iff_exists'.mp hnode
    have hends := Prog.run_ends (h := serve) (replicaUpdateAt scratch f hostIp 1) (fun _ => false) s
    have hundefined : ((replicaUpdateAt scratch f hostIp 1).run serve (fun _ => false) s).1.1 = .undefined := by
      have hfst := replicaUpdate_undefined hm hfind hne hn hscratch 0
      rw [← replicaUpdateAt_fst, Prog.run_bind] at hfst
      exact hfst
    exact (h _ _ _ _ hends).defined hundefined

/-- **A `replica_update` touches only the named replica** just when a registered replica is
on the host, or the last one registered has no log that a walk could end; and the memory it
needs is there, unless the replica that it catches up has no node to get. -/
theorem host_only (hm : s.md f.chars = some m) : HostOnly scratch f hostIp s m ↔
    ((∃ i, m.OnHost hostIp i) ∨ LastIdle s m) ∧ (scratch.Fits ∨ NothingToGet hostIp s m) := by
  constructor
  · intro h
    have hmemory := h.memory hm
    refine ⟨or_iff_not_imp_left.mpr fun hnone => h.lastIdle hm hmemory fun i hi => hnone ⟨i, hi⟩, hmemory⟩
  · intro h
    by_cases hnamed : ∃ i, m.OnHost hostIp i
    · exact .of_named hm hnamed h.2
    · exact .of_lastIdle hm (fun i hi => hnamed ⟨i, hi⟩) (h.1.resolve_left hnamed) h.2

end Main

/-- One replica is registered, with a log of one node, and the host is not its: with the memory
there, the key in the record after it is emptied, and without it the update is undefined. -/
theorem touches_other : ∃ (f : Filename) (hostIp : List Char) (s s' : Store) (m : MetaData) (applied : List Applied),
    s.md f.chars = some m ∧ m.replicaNum = 1 ∧ (∀ i, ¬ m.OnHost hostIp i) ∧
    Prog.Ends serve (replicaUpdateAt ⟨true, true⟩ f hostIp 1) s (.done applied, [0, 1]) s' ∧
    s'.md f.chars ≠ s.md f.chars ∧ ∀ scratch, ¬ HostOnly scratch f hostIp s m := by
  let f : Filename := ⟨['f'], by decide⟩
  let m : MetaData := {MetaData.new 1 with myRep := fun i => ⟨Nat.toDigits 10 i, ['k']⟩}
  let s : Store := {Store.ofFile f m with ion := fun _ => some ⟨.write, 0, 1, [], []⟩}
  have hm : s.md f.chars = some m := Store.ofFile_md f m
  have hends := Prog.run_ends (h := serve) (replicaUpdateAt ⟨true, true⟩ f ['9'] 1) (fun _ => false) s
  have hrun : ((replicaUpdateAt ⟨true, true⟩ f ['9'] 1).run serve (fun _ => false) s).1 =
      (.done [⟨['k'], 0, none⟩], [0, 1]) := by
    decide +kernel
  rw [hrun] at hends
  refine ⟨f, ['9'], s, _, m, _, hm, rfl, by decide +kernel, hends, by decide +kernel, fun scratch h => ?_⟩
  obtain hscratch | hnothing := h.memory hm
  · have hfits : scratch = ⟨true, true⟩ := by
      obtain ⟨ioNode, dataSize⟩ := scratch
      obtain ⟨rfl, rfl⟩ := hscratch
      rfl
    subst hfits
    exact absurd ((h _ _ _ _ hends).within 1 (by simp)) (by decide)
  · have hchosen : m.chosen ['9'] = some ⟨['0'], ['k']⟩ := by decide +kernel
    obtain hnil | hnone := hnothing _ hchosen
    · cases hnil
    · cases hnone

/-- The host is the first of two that are registered, or it is on neither and they have no log. -/
theorem host_only_two : ∃ (f : Filename) (s : Store) (m : MetaData), s.md f.chars = some m ∧ m.replicaNum = 2 ∧
    HostOnly ⟨true, true⟩ f (m.myRep 0).hostIp s m ∧ HostOnly ⟨false, false⟩ f ['9'] s m := by
  let f : Filename := ⟨['f'], by decide⟩
  have hm := Store.ofFile_md f (.new 2)
  have hchosen : (MetaData.new 2).chosen ['9'] = some ⟨['1'], []⟩ := by decide +kernel
  refine ⟨f, _, .new 2, hm, rfl, (host_only hm).mpr ⟨.inl ⟨0, ?_, rfl⟩, .inl (by decide)⟩,
    (host_only hm).mpr ⟨.inr ⟨1, rfl, .inl rfl⟩, .inr fun r hr => ?_⟩⟩
  · show 0 < 2
    decide
  · rw [hchosen] at hr
    cases hr
    exact .inl rfl

end CacheFs.Queue
