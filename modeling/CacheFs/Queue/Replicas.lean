import CacheFs.Queue.WriteLog

/-! What `replica_update` does.

The replica of the host is looked for among the registered ones; the log is walked
from its key on, and its key is emptied. -/
namespace CacheFs.Queue
open Interaction Linked

/-- The search finds the first replica of the host. -/
theorem findReplica_found {hostIp : List Char} {l : List Replica} {j : Nat} {r : Replica}
    (hj : l[j]? = some r) (hr : r.hostIp = hostIp) (i : Nat) (last : Option Replica) :
    ∃ j' r', l[j']? = some r' ∧ r'.hostIp = hostIp ∧ findReplica hostIp l i last = (i + j', some r') := by
  induction l generalizing i j last with
  | nil => simp at hj
  | cons a l ih =>
    by_cases ha : a.hostIp = hostIp
    · exact ⟨0, a, rfl, ha, by simp [findReplica, ha]⟩
    · cases j with
      | zero =>
        cases hj
        exact absurd hr ha
      | succ j =>
        obtain ⟨j', r', hj', hr', hfind⟩ := ih hj (i + 1) (some a)
        exact ⟨j' + 1, r', hj', hr', by simp [findReplica, ha, hfind]; omega⟩

/-- Replica `i` is registered. -/
def MetaData.Registered (m : MetaData) (i : Fin maxReplicas) : Prop := i.val < m.replicaNum.val

theorem MetaData.find_registered {m : MetaData} {i : Fin maxReplicas} (hi : m.Registered i) :
    ∃ j, m.Registered j ∧ (m.myRep j).hostIp = (m.myRep i).hostIp ∧
      findReplica (m.myRep i).hostIp ((List.ofFn m.myRep).take m.replicaNum) 0 none =
        (j.val, some (m.myRep j)) := by
  have hmem : ((List.ofFn m.myRep).take m.replicaNum)[i.val]? = some (m.myRep i) := by
    rw [List.getElem?_take_of_lt hi, List.getElem?_ofFn]
    simp
  obtain ⟨j, r, hj, hr, hfind⟩ := findReplica_found hmem rfl 0 none
  have hlen := (List.getElem?_eq_some_iff.mp hj).1
  rw [List.length_take, List.length_ofFn] at hlen
  have hlt : j < maxReplicas := by omega
  rw [List.getElem?_take_of_lt (by omega), List.getElem?_ofFn, dif_pos hlt] at hj
  cases hj
  exact ⟨⟨j, hlt⟩, (by omega : j < m.replicaNum.val), hr, by rw [hfind, Nat.zero_add]⟩

/-- The metadata once replica `i` has applied the whole log. -/
def MetaData.caughtUp (m : MetaData) (i : Fin maxReplicas) : MetaData :=
  {m with myRep := Function.update m.myRep i {m.myRep i with ioNodePtr := []}}

theorem MetaData.caughtUp_eq {m : MetaData} {i : Fin maxReplicas} (h : (m.myRep i).ioNodePtr = []) :
    m.caughtUp i = m := by
  have hsame : {m.myRep i with ioNodePtr := []} = m.myRep i := by rw [← h]
  simp only [caughtUp, hsame, Function.update_eq_self]

theorem MetaData.wrote_myRep (m : MetaData) (path : Key) (i : Fin maxReplicas) :
    (m.wrote path).myRep i = if m.ioNodeQHead = [] ∧ i.val < m.replicaNum.val
      then {m.myRep i with ioNodePtr := path} else m.myRep i := by
  simp only [wrote, logged, List.length_eq_zero_iff]
  by_cases hhead : m.ioNodeQHead = [] <;> simp [hhead]

theorem MetaData.wrote_replicaNum (m : MetaData) (path : Key) : (m.wrote path).replicaNum = m.replicaNum := by
  simp only [wrote, logged]
  split <;> rfl

theorem MetaData.wrote_hostIp (m : MetaData) (path : Key) (i : Fin maxReplicas) :
    ((m.wrote path).myRep i).hostIp = (m.myRep i).hostIp := by
  rw [wrote_myRep]
  split <;> rfl

theorem MetaData.wrote_registered {m : MetaData} {path : Key} {i : Fin maxReplicas} :
    (m.wrote path).Registered i ↔ m.Registered i := by
  rw [Registered, Registered, wrote_replicaNum]

theorem MetaData.caughtUp_hostIp (m : MetaData) (i j : Fin maxReplicas) :
    ((m.caughtUp i).myRep j).hostIp = (m.myRep j).hostIp := by
  by_cases hj : j = i
  · subst hj
    simp [caughtUp]
  · simp [caughtUp, hj]

/-- A `replica_update` that is done has applied the log from the replica's key on, and
emptied the key. -/
theorem replicaUpdate_done {f : Filename} {m : MetaData} {s s' : Store} (hm : s.md f.chars = some m)
    {i : Fin maxReplicas} (hi : m.Registered i) {scratch : Scratch} {nodes : Nat} {applied : List Applied}
    (h : Prog.Ends serve (replicaUpdate scratch f (m.myRep i).hostIp nodes) s (.done applied) s') :
    ∃ j, m.Registered j ∧ (m.myRep j).hostIp = (m.myRep i).hostIp ∧
      Path (ionNextOf s) (ptr (m.myRep j).ioNodePtr) (applied.map Applied.key) ∧
      s' = {s with md := Function.update s.md f.chars (some (m.caughtUp j))} := by
  obtain ⟨j, hj, hhost, hfind⟩ := MetaData.find_registered hi
  refine ⟨j, hj, hhost, ?_⟩
  obtain h | h := ends_mdGet.mp h
  · cases (Prog.ends_ret.mp h).1
  simp only [hm, hfind] at h
  by_cases hempty : (m.myRep j).ioNodePtr = []
  · simp only [hempty, List.length_nil, ne_eq, not_true_eq_false, if_false] at h
    obtain h | h := ends_mdPut.mp h
    · cases (Prog.ends_ret.mp h).1
    · obtain ⟨hr, rfl⟩ := Prog.ends_ret.mp h
      cases hr
      exact ⟨ptr_eq_none.mpr hempty, by rw [MetaData.caughtUp_eq hempty]⟩
  · simp only [ne_eq, List.length_eq_zero_iff, hempty, not_false_eq_true, if_true] at h
    obtain ⟨r, s₁, hwalk, hput⟩ := Prog.ends_bind.mp h
    cases r with
    | failed | running | undefined => cases (Prog.ends_ret.mp hput).1
    | ended walked =>
      obtain ⟨rfl, hpath⟩ := walkLog_ended hwalk
      simp only [j.isLt, dif_pos] at hput
      obtain hput | hput := ends_mdPut.mp hput
      · cases (Prog.ends_ret.mp hput).1
      · obtain ⟨hr, rfl⟩ := Prog.ends_ret.mp hput
        cases hr
        exact ⟨hpath, rfl⟩

/-- With the memory it needs, or no log to walk, nothing of a `replica_update` for a registered
host is undefined. -/
theorem replicaUpdate_defined {f : Filename} {m : MetaData} {s s' : Store} (hm : s.md f.chars = some m)
    {i : Fin maxReplicas} (hi : m.Registered i) {scratch : Scratch}
    (hscratch : scratch.Fits ∨ ∀ j, m.Registered j → (m.myRep j).hostIp = (m.myRep i).hostIp →
      (m.myRep j).ioNodePtr = []) {nodes : Nat} {r : Update}
    (h : Prog.Ends serve (replicaUpdate scratch f (m.myRep i).hostIp nodes) s r s') : r ≠ .undefined := by
  rintro rfl
  obtain ⟨j, hj, hhost, hfind⟩ := MetaData.find_registered hi
  obtain h | h := ends_mdGet.mp h
  · cases (Prog.ends_ret.mp h).1
  simp only [hm, hfind] at h
  split at h
  · rename_i hlog
    have hne : (m.myRep j).ioNodePtr ≠ [] := fun hnil => hlog (by rw [hnil]; rfl)
    have hfits := hscratch.resolve_right fun hnone => hne (hnone j hj hhost)
    obtain ⟨walk, s₁, hwalk, hput⟩ := Prog.ends_bind.mp h
    cases walk with
    | undefined => exact walkLog_defined hfits hwalk rfl
    | failed | running => cases (Prog.ends_ret.mp hput).1
    | ended walked =>
      simp only [j.isLt, dif_pos] at hput
      obtain hput | hput := ends_mdPut.mp hput <;> cases (Prog.ends_ret.mp hput).1
  · obtain h | h := ends_mdPut.mp h <;> cases (Prog.ends_ret.mp h).1

/-- Without it, one whose log has a node is undefined there. -/
theorem replicaUpdate_undefined {f : Filename} {m : MetaData} {s : Store} (hm : s.md f.chars = some m)
    {hostIp : List Char} {i : Nat} {replica : Replica}
    (hfind : findReplica hostIp ((List.ofFn m.myRep).take m.replicaNum) 0 none = (i, some replica))
    (hne : replica.ioNodePtr ≠ []) {n : IoNode} (hn : s.ion replica.ioNodePtr = some n) {scratch : Scratch}
    (hscratch : ¬ scratch.Fits) (nodes : Nat) :
    ((replicaUpdate scratch f hostIp (nodes + 1)).run serve (fun _ => false) s).1 = .undefined := by
  have hwalk := walkLog_undefined hscratch nodes hne hn
  rw [replicaUpdate, mdGet_bind, Prog.run_call]
  simp [serve, hm, hfind, hne, Prog.run_bind, hwalk]

/-- When no call fails, a `replica_update` for a replica whose key is that of a write of
the log is done, having applied that write and those after it in their order. -/
theorem Logged.update {f : Filename} {ws vs : List Write} {m : MetaData} {s : Store}
    (h : Logged f (ws ++ vs) m s) {i : Fin maxReplicas} (hi : m.Registered i)
    (hptr : ∀ j, m.Registered j → (m.myRep j).hostIp = (m.myRep i).hostIp →
      ptr (m.myRep j).ioNodePtr = (keys f vs).head?)
    {scratch : Scratch} (hscratch : scratch.Fits) {nodes : Nat} (hnodes : vs.length ≤ nodes) :
    ((replicaUpdate scratch f (m.myRep i).hostIp nodes).run serve (fun _ => false) s).1 =
      .done (vs.map (Write.applied f)) := by
  obtain ⟨j, hj, hhost, hfind⟩ := MetaData.find_registered hi
  have hkey := hptr j hj hhost
  have hwalk := h.walk hkey hscratch hnodes
  rw [replicaUpdate, mdGet_bind, Prog.run_call]
  simp only [serve, h.metaData, hfind, Bool.false_eq_true, if_false]
  by_cases hempty : (m.myRep j).ioNodePtr = []
  · rw [hempty, ptr_nil, eq_comm, List.head?_eq_none_iff, keys, List.map_eq_nil_iff] at hkey
    simp [hempty, hkey, serve]
  · simp [hempty, Prog.run_bind, hwalk, serve]

end CacheFs.Queue
