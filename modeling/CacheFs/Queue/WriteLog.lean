import CacheFs.Library.Linked
import CacheFs.Queue.WriteCalls

/-! The write log of a file.

Every `write_queue_out` appends a node: it stores the node under a key of its own,
points the old tail at it, and makes it the tail. `Logged` says that the store holds
the log of a list of writes, doubly linked in their order; a write keeps it
(`Logged.write`), and a `replica_update` from the head walks exactly that list
(`Logged.walk`). -/
namespace CacheFs.Queue
open Interaction Ring Linked

/-- What a write that returns 0 has done to the store. -/
theorem Write.returned {f : Filename} {w : Write} {s s' : Store}
    (h : Prog.Ends serve (w.program f) s (.returned 0) s') :
    ∃ m, s.md f.chars = some m ∧ s' = {
      md := Function.update s.md f.chars (some (m.wrote (w.key f)))
      ion := relinked (Function.update s.ion (w.key f)
        (some ⟨w.ioType, w.offset, w.arriveTime, m.ioNodeQTail, []⟩)) m.ioNodeQTail (w.key f)
      iod := Function.update s.iod (w.key f) (some w.stored)} := by
  have hends : Prog.Ends serve (w.programWith f []) s (.returned 0) s' := h
  exact (ends_done hends).2

/-! ### The log in the store -/

/-- What a key field points to: the empty string is no key. -/
def ptr (k : Key) : Option Key := if k = [] then none else some k

@[simp] theorem ptr_nil : ptr [] = none := rfl

theorem ptr_ne_nil {k : Key} (h : k ≠ []) : ptr k = some k := if_neg h

theorem ptr_eq_none {k : Key} : ptr k = none ↔ k = [] := by
  simp [ptr]

theorem ptr_eq_some {k k' : Key} : ptr k = some k' ↔ k = k' ∧ k ≠ [] := by
  by_cases hk : k = [] <;> simp [ptr, hk]

/-- The two pointers of a node. -/
def ionLinks (ion : Key → Option IoNode) : Links Key := fun k =>
  (ion k).map fun n => (ptr n.ionPre, ptr n.ionNext)

/-- The keys of some writes, in their order. -/
def keys (f : Filename) (ws : List Write) : List Key := ws.map (Write.key f)

/-- The node is the write's. -/
def IoNode.Of (n : IoNode) (w : Write) : Prop :=
  n.ioType = w.ioType ∧ n.offset = w.offset ∧ n.ioTime = w.arriveTime

/-- The store has the log of these writes. -/
structure Logged (f : Filename) (ws : List Write) (m : MetaData) (s : Store) : Prop where
  metaData : s.md f.chars = some m
  head : ptr m.ioNodeQHead = (keys f ws).head?
  tail : ptr m.ioNodeQTail = (keys f ws).getLast?
  linked : Segment (ionLinks s.ion) none (keys f ws) none
  node : ∀ w ∈ ws, ∃ n, s.ion (w.key f) = some n ∧ n.Of w
  data : ∀ w ∈ ws, s.iod (w.key f) = some w.stored

theorem mem_keys {f : Filename} {ws : List Write} {w : Write} (h : w ∈ ws) : w.key f ∈ keys f ws :=
  List.mem_map_of_mem h

theorem keys_eq (f : Filename) (ws : List Write) : keys f ws = (ws.map Write.arriveTime).map (ionKey f) := by
  simp [keys, Write.key, Function.comp_def]

/-- Writes have different keys just when their times are different. -/
theorem keys_nodup {f : Filename} {ws : List Write} : (keys f ws).Nodup ↔ (ws.map Write.arriveTime).Nodup := by
  rw [keys_eq]
  exact List.nodup_map_iff fun _ _ => ionKey_inj

theorem relinked_of_ne {ion : Key → Option IoNode} {tail path k : Key} (h : k ≠ tail) :
    relinked ion tail path k = ion k := by
  rw [relinked]
  split
  · exact Function.update_of_ne h _ _
  · rfl

/-- Relinking changes no more of a node than its next key. -/
theorem relinked_node {ion : Key → Option IoNode} {tail path k : Key} {n : IoNode} {w : Write}
    (hn : ion k = some n) (hw : n.Of w) : ∃ n', relinked ion tail path k = some n' ∧ n'.Of w := by
  by_cases hk : k = tail
  · subst hk
    rw [relinked]
    split
    · exact ⟨{n with ionNext := path}, by simp [hn], hw⟩
    · exact ⟨n, hn, hw⟩
  · exact ⟨n, by rw [relinked_of_ne hk, hn], hw⟩

theorem MetaData.wrote_tail (m : MetaData) (path : Key) : (m.wrote path).ioNodeQTail = path := by
  simp only [wrote, logged]
  split <;> rfl

theorem MetaData.wrote_head (m : MetaData) (path : Key) :
    (m.wrote path).ioNodeQHead = if m.ioNodeQHead = [] then path else m.ioNodeQHead := by
  simp only [wrote, logged, List.length_eq_zero_iff]
  split <;> rfl

/-- A write under a new key appends its node to the log. -/
theorem Logged.write {f : Filename} {ws : List Write} {m : MetaData} {s s' : Store} (h : Logged f ws m s)
    {w : Write} (hnew : w.key f ∉ keys f ws) (hw : Prog.Ends serve (w.program f) s (.returned 0) s') :
    Logged f (ws ++ [w]) (m.wrote (w.key f)) s' := by
  obtain ⟨m', hm', rfl⟩ := Write.returned hw
  cases h.metaData.symm.trans hm'
  have hne : w.key f ≠ [] := ionKey_ne_nil f w.arriveTime
  have other {v : Write} (hv : v ∈ ws) : v.key f ≠ w.key f := fun hkey => hnew (hkey ▸ mem_keys hv)
  have hkeys : keys f (ws ++ [w]) = keys f ws ++ [w.key f] := by simp [keys]
  refine ⟨Function.update_self .., ?_, ?_, ?_, fun v hv => ?_, fun v hv => ?_⟩
  · rw [MetaData.wrote_head, hkeys, List.head?_append, ← h.head]
    by_cases hempty : m.ioNodeQHead = []
    · rw [if_pos hempty, hempty, ptr_nil, ptr_ne_nil hne]
      rfl
    · rw [if_neg hempty, ptr_ne_nil hempty]
      rfl
  · rw [MetaData.wrote_tail, hkeys, List.getLast?_concat, ptr_ne_nil hne]
  · rw [hkeys]
    refine h.linked.append ?_ fun k hk => ?_
    · have htail : w.key f ≠ m.ioNodeQTail := by
        intro heq
        have hlast := h.tail
        rw [← heq, ptr_ne_nil hne] at hlast
        exact hnew (List.mem_of_getLast? hlast.symm)
      simp [ionLinks, relinked_of_ne htail, h.tail]
    · have hkne : k ≠ w.key f := fun hkey => hnew (hkey ▸ hk)
      -- the log is not empty, so its last key is the metadata's tail
      have htail : m.ioNodeQTail ≠ [] := by
        intro hnil
        have hlast := h.tail
        rw [hnil, ptr_nil, eq_comm, List.getLast?_eq_none_iff] at hlast
        rw [hlast] at hk
        cases hk
      have hlast := h.tail
      rw [ptr_ne_nil htail] at hlast
      obtain ⟨v, _, hv⟩ := List.mem_map.mp (List.mem_of_getLast? hlast.symm)
      have hlong : m.ioNodeQTail.length > 1 := hv ▸ one_lt_ionKey_length f v.arriveTime
      rw [← hlast]
      by_cases hk' : k = m.ioNodeQTail
      · subst hk'
        simp [ionLinks, relinked, hlong, setNext, hkne, Function.comp_def, ptr_ne_nil hne]
      · rw [setNext_of_ne (fun heq => hk' (Option.some.inj heq).symm)]
        simp [ionLinks, relinked_of_ne hk', hkne]
  · obtain hv | hv := List.mem_append.mp hv
    · obtain ⟨n, hn, hof⟩ := h.node v hv
      exact relinked_node (by rw [Function.update_of_ne (other hv), hn]) hof
    · rw [List.mem_singleton.mp hv]
      exact relinked_node (Function.update_self ..) ⟨rfl, rfl, rfl⟩
  · obtain hv | hv := List.mem_append.mp hv
    · show Function.update _ _ _ _ = _
      rw [Function.update_of_ne (other hv), h.data v hv]
    · rw [List.mem_singleton.mp hv]
      exact Function.update_self ..

/-! ### Walking the log -/

/-- Following `ion_next`. -/
def ionNextOf (s : Store) : Key → Option (Option Key) := fun k => (s.ion k).map fun n => ptr n.ionNext

/-- Following `ion_pre`. -/
def ionPreOf (s : Store) : Key → Option (Option Key) := fun k => (s.ion k).map fun n => ptr n.ionPre

theorem links_snd (s : Store) : (fun k => (ionLinks s.ion k).map Prod.snd) = ionNextOf s := by
  funext k
  simp [ionLinks, ionNextOf, Function.comp_def]

theorem links_fst (s : Store) : (fun k => (ionLinks s.ion k).map Prod.fst) = ionPreOf s := by
  funext k
  simp [ionLinks, ionPreOf, Function.comp_def]

/-- From any write of the log on, `ion_next` leads through the rest of it. -/
theorem Logged.path {f : Filename} {ws vs : List Write} {m : MetaData} {s : Store}
    (h : Logged f (ws ++ vs) m s) : Path (ionNextOf s) (keys f vs).head? (keys f vs) := by
  have hlinked := h.linked
  rw [keys, List.map_append] at hlinked
  rw [← links_snd]
  exact (Segment.append_iff.mp hlinked).2.path_next

/-- A round that was made, before the rest of the loop. -/
def Walk.after (a : Applied) : Walk → Walk
  | .ended applied => .ended (a :: applied)
  | other => other

@[simp] theorem Walk.after_running (a : Applied) (r : Walk) : r.after a = .running ↔ r = .running := by
  cases r <;> simp [after]

@[simp] theorem Walk.after_undefined (a : Applied) (r : Walk) : r.after a = .undefined ↔ r = .undefined := by
  cases r <;> simp [after]

section Walk
variable {scratch : Scratch} {s s' : Store} {k : Key}

theorem walkLog_nil (nodes : Nat) : walkLog scratch nodes [] = .ret (.ended []) := by
  cases nodes <;> rfl

/-- One round of the loop. -/
theorem walkLog_succ (nodes : Nat) (hk : k ≠ []) : walkLog scratch (nodes + 1) k = (do
    match ← ionGet k with
    | some ioNode =>
      if scratch.Fits then
        let realData ← iodGet k
        walkLog scratch nodes ioNode.ionNext >>= fun r => return r.after ⟨k, ioNode.offset, realData⟩
      else return .undefined
    | none => return .failed) := by
  cases k with
  | nil => exact absurd rfl hk
  | cons c k =>
    refine congrArg (ionGet (c :: k) >>= ·) (funext fun ioNode => ?_)
    cases ioNode with
    | none => rfl
    | some ioNode =>
      refine congrArg (ite scratch.Fits · _) (congrArg (iodGet (c :: k) >>= ·) (funext fun realData => ?_))
      refine congrArg (walkLog scratch nodes ioNode.ionNext >>= ·) (funext fun r => ?_)
      cases r <;> rfl

/-- What a round may come to: it fails, or has not the memory, or the loop goes on from where
the node points. -/
theorem walkLog_cases {nodes : Nat} (hk : k ≠ []) {r : Walk}
    (h : Prog.Ends serve (walkLog scratch (nodes + 1) k) s r s') :
    r = .failed ∨ (r = .undefined ∧ ¬ scratch.Fits) ∨
    ∃ n realData r', s.ion k = some n ∧ Prog.Ends serve (walkLog scratch nodes n.ionNext) s r' s' ∧
      r = r'.after ⟨k, n.offset, realData⟩ := by
  rw [walkLog_succ nodes hk] at h
  obtain h | h := ends_ionGet.mp h
  · exact .inl (Prog.ends_ret.mp h).1
  cases hnode : s.ion k with
  | none =>
    rw [hnode] at h
    exact .inl (Prog.ends_ret.mp h).1
  | some n =>
    rw [hnode] at h
    by_cases hfits : scratch.Fits
    · simp only [if_pos hfits] at h
      -- whatever `iod_get` answers, the loop goes on
      have hgoes (realData : Option (List UInt8))
          (h : Prog.Ends serve (walkLog scratch nodes n.ionNext >>= fun r =>
            (return r.after ⟨k, n.offset, realData⟩ : Program Walk)) s r s') :
          ∃ r', Prog.Ends serve (walkLog scratch nodes n.ionNext) s r' s' ∧
            r = r'.after ⟨k, n.offset, realData⟩ := by
        obtain ⟨r', s₁, hwalk, hend⟩ := Prog.ends_bind.mp h
        obtain ⟨rfl, rfl⟩ := Prog.ends_ret.mp hend
        exact ⟨r', hwalk, rfl⟩
      refine .inr (.inr ⟨n, ?_⟩)
      obtain h | h := ends_iodGet.mp h
      · obtain ⟨r', hwalk, hr⟩ := hgoes _ h
        exact ⟨_, r', rfl, hwalk, hr⟩
      · obtain ⟨r', hwalk, hr⟩ := hgoes _ h
        exact ⟨_, r', rfl, hwalk, hr⟩
    · simp only [if_neg hfits] at h
      exact .inr (.inl ⟨(Prog.ends_ret.mp h).1, hfits⟩)

/-- A walk that has ended has followed `ion_next` to its end. -/
theorem walkLog_ended {nodes : Nat} {applied : List Applied}
    (h : Prog.Ends serve (walkLog scratch nodes k) s (.ended applied) s') :
    s' = s ∧ Path (ionNextOf s) (ptr k) (applied.map Applied.key) := by
  have hnil {nodes : Nat} {applied : List Applied}
      (h : Prog.Ends serve (walkLog scratch nodes []) s (.ended applied) s') :
      s' = s ∧ Path (ionNextOf s) (ptr []) (applied.map Applied.key) := by
    rw [walkLog_nil] at h
    obtain ⟨hr, rfl⟩ := Prog.ends_ret.mp h
    cases hr
    exact ⟨rfl, rfl⟩
  induction nodes generalizing k applied with
  | zero =>
    cases k with
    | nil => exact hnil h
    | cons c k => cases (Prog.ends_ret.mp h).1
  | succ nodes ih =>
    by_cases hk : k = []
    · subst hk
      exact hnil h
    obtain hr | ⟨hr, -⟩ | ⟨n, realData, r, hnode, hwalk, hr⟩ := walkLog_cases hk h
    · cases hr
    · cases hr
    · cases r with
      | failed | running | undefined => cases hr
      | ended rest =>
        cases hr
        obtain ⟨rfl, hpath⟩ := ih hwalk
        exact ⟨rfl, ptr_ne_nil hk, ptr n.ionNext, by simp [ionNextOf, hnode], hpath⟩

/-- With the memory it needs, nothing of a walk is undefined. -/
theorem walkLog_defined (hscratch : scratch.Fits) {nodes : Nat} {r : Walk}
    (h : Prog.Ends serve (walkLog scratch nodes k) s r s') : r ≠ .undefined := by
  rintro rfl
  induction nodes generalizing k with
  | zero => cases k <;> cases (Prog.ends_ret.mp h).1
  | succ nodes ih =>
    by_cases hk : k = []
    · subst hk
      cases (Prog.ends_ret.mp h).1
    obtain hr | ⟨-, hno⟩ | ⟨n, realData, r, -, hwalk, hr⟩ := walkLog_cases hk h
    · cases hr
    · exact hno hscratch
    · obtain rfl := (Walk.after_undefined _ r).mp hr.symm
      exact ih hwalk

/-- A walk is undefined only for want of memory, and with a node to get. -/
theorem walkLog_gets_first (hk : k ≠ []) {nodes : Nat}
    (h : Prog.Ends serve (walkLog scratch nodes k) s .undefined s') : ¬ scratch.Fits ∧ s.ion k ≠ none := by
  refine ⟨fun hscratch => walkLog_defined hscratch h rfl, fun hnone => ?_⟩
  cases nodes with
  | zero => cases k <;> cases (Prog.ends_ret.mp h).1
  | succ nodes =>
    rw [walkLog_succ nodes hk] at h
    obtain h | h := ends_ionGet.mp h
    · cases (Prog.ends_ret.mp h).1
    · rw [hnone] at h
      cases (Prog.ends_ret.mp h).1

/-- Without it, a walk is undefined at the first node it gets. -/
theorem walkLog_undefined (hscratch : ¬ scratch.Fits) (nodes : Nat) (hk : k ≠ []) {n : IoNode} (hn : s.ion k = some n) :
    (walkLog scratch (nodes + 1) k).run serve (fun _ => false) s = (.undefined, s) := by
  rw [walkLog_succ nodes hk, ionGet_bind, Prog.run_call]
  simp only [serve, hn, Bool.false_eq_true, if_false, if_neg hscratch]
  rfl

end Walk

/-- What a replica applies of a write. -/
def Write.applied (f : Filename) (w : Write) : Applied := ⟨w.key f, w.offset, some w.stored⟩

/-- A walk that no call fails, for at least as many nodes as are left, ends, having
applied the writes in their order. -/
theorem Logged.walk {f : Filename} {ws vs : List Write} {m : MetaData} {s : Store}
    (h : Logged f (ws ++ vs) m s) {k : Key} (hk : ptr k = (keys f vs).head?) {scratch : Scratch}
    (hscratch : scratch.Fits) {nodes : Nat} (hnodes : vs.length ≤ nodes) :
    (walkLog scratch nodes k).run serve (fun _ => false) s = (.ended (vs.map (Write.applied f)), s) := by
  induction vs generalizing ws k nodes with
  | nil =>
    have hnil : k = [] := ptr_eq_none.mp hk
    subst hnil
    cases nodes <;> rfl
  | cons v vs ih =>
    obtain ⟨rfl, hne⟩ := ptr_eq_some.mp (hk.trans (List.head?_cons (a := v.key f) (l := keys f vs)))
    obtain ⟨n, hn, _, hoffset, _⟩ := h.node v (by simp)
    have hdata := h.data v (by simp)
    have hnext : ptr n.ionNext = (keys f vs).head? := by
      obtain ⟨_, next, hnext, hpath⟩ := h.path
      simp only [ionNextOf, hn, Option.map_some, Option.some.injEq] at hnext
      rw [hnext]
      cases vs with
      | nil => exact hpath
      | cons v' vs => exact hpath.1
    cases nodes with
    | zero => simp at hnodes
    | succ nodes =>
      have hlog : Logged f ((ws ++ [v]) ++ vs) m s := by simpa using h
      have hrest := ih hlog hnext (Nat.le_of_succ_le_succ hnodes)
      rw [walkLog_succ nodes hne, ionGet_bind, Prog.run_call]
      simp only [serve, hn, if_pos hscratch, iodGet_bind, Prog.run_call, hdata, Prog.run_bind, hrest,
        Bool.false_eq_true, if_false]
      simp [Walk.after, Write.applied, hoffset]

end CacheFs.Queue
