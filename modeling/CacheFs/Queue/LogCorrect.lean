import CacheFs.Queue.Replicas

/-! The write log is a doubly linked list of the writes.

After any number of writes that return 0, the two pointers of the log lead through
their nodes both ways, and the first `replica_update` applies them in their order
(`Writes.logged`, `Logged.update`). Of the data, what reaches the store is cut at the
`u32` that `iod_put` takes, and `replica_update` relies on memory that nothing gave it: the
log is correct just when every write is shorter than that, and the memory is there
(`log_correct`). -/
namespace CacheFs.Queue
open Interaction Linked

/-- The store after calls of `write_queue_out` that returned 0. -/
inductive Writes (f : Filename) (s₀ : Store) : List Write → Store → Prop where
  | nil : Writes f s₀ [] s₀
  | write {ws s s' w} : Writes f s₀ ws s → Prog.Ends serve (w.program f) s (.returned 0) s' →
      Writes f s₀ (ws ++ [w]) s'

/-- The log of the writes, read from either end, with their nodes and their data; and
what the first `replica_update` for a registered host makes of it. -/
structure LogCorrect (f : Filename) (scratch : Scratch) (ws : List Write) (m : MetaData) (s : Store) : Prop where
  metaData : s.md f.chars = some m
  forward : Path (ionNextOf s) (ptr m.ioNodeQHead) (keys f ws)
  backward : Path (ionPreOf s) (ptr m.ioNodeQTail) (keys f ws).reverse
  node : ∀ w ∈ ws, ∃ n, s.ion (w.key f) = some n ∧ n.Of w
  data : ∀ w ∈ ws, s.iod (w.key f) = some w.bytes
  update : ws ≠ [] → ∀ i, m.Registered i → ∀ nodes ≥ ws.length,
    ((replicaUpdate scratch f (m.myRep i).hostIp nodes).run serve (fun _ => false) s).1 =
      .done (ws.map fun w => ⟨w.key f, w.offset, some w.bytes⟩)

/-- The metadata before the writes: an empty log. -/
structure MetaData.EmptyLog (m : MetaData) : Prop where
  head : m.ioNodeQHead = []
  tail : m.ioNodeQTail = []

variable {f : Filename} {scratch : Scratch} {s₀ s : Store} {m₀ : MetaData} {ws : List Write}

theorem Logged.nil (hmd : s₀.md f.chars = some m₀) (hm : m₀.EmptyLog) : Logged f [] m₀ s₀ :=
  ⟨hmd, by rw [hm.head]; rfl, by rw [hm.tail]; rfl, trivial, by simp, by simp⟩

/-- The store has the log of the writes, and each registered replica is to go on from
the first of them. -/
theorem Writes.logged (hmd : s₀.md f.chars = some m₀) (hm : m₀.EmptyLog) (h : Writes f s₀ ws s)
    (htimes : (ws.map Write.arriveTime).Nodup) :
    ∃ m, Logged f ws m s ∧ (∀ i, m.Registered i ↔ m₀.Registered i) ∧
      (ws ≠ [] → ∀ i, m.Registered i → ptr (m.myRep i).ioNodePtr = (keys f ws).head?) := by
  induction h with
  | nil => exact ⟨m₀, Logged.nil hmd hm, fun _ => Iff.rfl, fun hne => absurd rfl hne⟩
  | @write ws s s' w _ hw ih =>
    rw [List.map_append, List.nodup_append] at htimes
    obtain ⟨m, hlog, hreg, hptrs⟩ := ih htimes.1
    have hkey : w.key f ∉ keys f ws := by
      intro hmem
      obtain ⟨v, hv, hvw⟩ := List.mem_map.mp hmem
      exact htimes.2.2 _ (List.mem_map_of_mem hv) _ (List.mem_singleton_self _) (ionKey_inj hvw)
    refine ⟨m.wrote (w.key f), hlog.write hkey hw, fun i => MetaData.wrote_registered.trans (hreg i), fun _ i hi => ?_⟩
    have hi' := MetaData.wrote_registered.mp hi
    have hhead := hlog.head
    rw [MetaData.wrote_myRep]
    by_cases hempty : m.ioNodeQHead = []
    · rw [hempty, ptr_nil, eq_comm, List.head?_eq_none_iff, keys, List.map_eq_nil_iff] at hhead
      rw [if_pos ⟨hempty, hi'⟩, hhead]
      exact ptr_ne_nil (ionKey_ne_nil f w.arriveTime)
    · rw [if_neg fun hc => hempty hc.1]
      rw [ptr_ne_nil hempty] at hhead
      cases ws with
      | nil => cases hhead
      | cons v ws => exact hptrs (by simp) i hi'

theorem Writes.defined (h : Writes f s₀ ws s) : ∀ w ∈ ws, w.Defined f := by
  induction h with
  | nil => simp
  | @write ws s s' w _ hw ih =>
    have hends : Prog.Ends serve (w.programWith f []) s (.returned 0) s' := hw
    intro v hv
    obtain hv | hv := List.mem_append.mp hv
    · exact ih v hv
    · rw [List.mem_singleton.mp hv]
      exact (Write.ends_done hends).1

/-- What a count that fits loses of a `size_t` is nothing just when the size fits too. -/
theorem Write.stored_eq_bytes {w : Write} (hcount : w.CountFits) : w.stored = w.bytes ↔ w.size.toNat < 2 ^ 31 := by
  have hsize : w.size.toUInt32.toNat = w.size.toNat % 2 ^ 32 := by simp
  have henough := w.enough
  unfold CountFits intLimit at hcount
  constructor
  · intro h
    have hlen := congrArg List.length h
    simp only [stored, bytes, List.length_take] at hlen
    omega
  · intro h
    rw [stored, bytes, hsize, Nat.mod_eq_of_lt (by omega)]

theorem Logged.forward {m : MetaData} (h : Logged f ws m s) : Path (ionNextOf s) (ptr m.ioNodeQHead) (keys f ws) := by
  rw [h.head]
  have hall : Logged f ([] ++ ws) m s := h
  exact hall.path

theorem Logged.backward {m : MetaData} (h : Logged f ws m s) :
    Path (ionPreOf s) (ptr m.ioNodeQTail) (keys f ws).reverse := by
  rw [h.tail, ← links_fst]
  exact h.linked.path_pre

/-- What `replica_update` applies of the writes, when its memory is there. -/
theorem Logged.applied {m : MetaData} (h : Logged f ws m s) (hbytes : ∀ w ∈ ws, w.stored = w.bytes)
    (hptrs : ∀ i, m.Registered i → ptr (m.myRep i).ioNodePtr = (keys f ws).head?) (hscratch : scratch.Fits)
    {i : Fin maxReplicas} (hi : m.Registered i) {nodes : Nat} (hnodes : ws.length ≤ nodes) :
    ((replicaUpdate scratch f (m.myRep i).hostIp nodes).run serve (fun _ => false) s).1 =
      .done (ws.map fun w => ⟨w.key f, w.offset, some w.bytes⟩) := by
  have hall : Logged f ([] ++ ws) m s := h
  rw [hall.update hi (fun j hj _ => hptrs j hj) hscratch hnodes]
  congr 1
  exact List.map_congr_left fun w hw => by rw [Write.applied, hbytes w hw]

/-- And when it is not, nothing. -/
theorem Logged.unapplied {m : MetaData} (h : Logged f ws m s) (hne : ws ≠ [])
    (hptrs : ∀ i, m.Registered i → ptr (m.myRep i).ioNodePtr = (keys f ws).head?) (hscratch : ¬ scratch.Fits)
    {i : Fin maxReplicas} (hi : m.Registered i) (nodes : Nat) :
    ((replicaUpdate scratch f (m.myRep i).hostIp (nodes + 1)).run serve (fun _ => false) s).1 = .undefined := by
  obtain ⟨j, hj, -, hfind⟩ := MetaData.find_registered hi
  obtain ⟨w, ws, rfl⟩ := List.exists_cons_of_ne_nil hne
  obtain ⟨n, hn, -⟩ := h.node w List.mem_cons_self
  have hptr := hptrs j hj
  rw [keys, List.map_cons, List.head?_cons, ptr_eq_some] at hptr
  exact replicaUpdate_undefined h.metaData hfind hptr.2 (n := n) (by rw [hptr.1, hn]) hscratch nodes

/-- **The write log is a correct doubly linked list** of the writes, with their data, just when
each of them is of less than 2³¹ bytes and `replica_update` has the memory it needs, if it
has any of them to apply. -/
theorem log_correct (hmd : s₀.md f.chars = some m₀) (hm : m₀.EmptyLog) (h : Writes f s₀ ws s)
    (htimes : (ws.map Write.arriveTime).Nodup) :
    (∃ m, LogCorrect f scratch ws m s) ↔
      (∀ w ∈ ws, w.size.toNat < 2 ^ 31) ∧ (scratch.Fits ∨ ws = [] ∨ ∀ i, ¬ m₀.Registered i) := by
  obtain ⟨m, hlog, hreg, hptrs⟩ := h.logged hmd hm htimes
  have hcounts (w : Write) (hw : w ∈ ws) : w.CountFits := (h.defined w hw).2
  constructor
  · intro h
    obtain ⟨m', hcorrect⟩ := h
    cases hlog.metaData.symm.trans hcorrect.metaData
    refine ⟨fun w hw => ?_, ?_⟩
    · have hdata := (hlog.data w hw).symm.trans (hcorrect.data w hw)
      exact (Write.stored_eq_bytes (hcounts w hw)).mp (Option.some.inj hdata)
    · by_contra hneither
      simp only [not_or, Classical.not_forall, not_not] at hneither
      obtain ⟨hscratch, hne, i, hi⟩ := hneither
      have hi := (hreg i).mpr hi
      have hundefined := hlog.unapplied hne (hptrs hne) hscratch hi ws.length
      rw [hcorrect.update hne i hi _ (Nat.le_succ _)] at hundefined
      cases hundefined
  · intro hwhen
    obtain ⟨hsizes, hmemory⟩ := hwhen
    have hbytes (w : Write) (hw : w ∈ ws) : w.stored = w.bytes :=
      (Write.stored_eq_bytes (hcounts w hw)).mpr (hsizes w hw)
    refine ⟨m, hlog.metaData, hlog.forward, hlog.backward, hlog.node, fun w hw => ?_, fun hne i hi nodes hnodes => ?_⟩
    · rw [hlog.data w hw, hbytes w hw]
    · obtain hscratch | rfl | hnone := hmemory
      · exact hlog.applied hbytes (hptrs hne) hscratch hi hnodes
      · exact absurd rfl hne
      · exact absurd ((hreg i).mp hi) (hnone i)

/-- A write of so many zero bytes. -/
def Write.zeros (size : UInt64) : Write :=
  ⟨.write, 1, 0, List.replicate size.toNat 0, size, by rw [List.length_replicate]⟩

theorem Write.stored_zeros (size : UInt64) :
    (Write.zeros size).stored = List.replicate size.toUInt32.toNat 0 := by
  have hle : size.toUInt32.toNat ≤ size.toNat := by simp [Nat.mod_le]
  rw [stored, zeros, List.take_replicate, Nat.min_eq_left hle]

/-- A write of 2³² bytes to an empty log: the data store gets none of them. -/
theorem log_incorrect : ∃ f m₀ w s, m₀.EmptyLog ∧ Writes f (.ofFile f m₀) [w] s ∧ w.KeyFits f ∧
    w.bytes.length = 2 ^ 32 ∧ s.iod (w.key f) = some [] ∧ ∀ scratch, ¬ ∃ m, LogCorrect f scratch [w] m s := by
  let f : Filename := ⟨['f'], by decide⟩
  have hm : (MetaData.new 1).EmptyLog := ⟨rfl, rfl⟩
  have hkey (size : UInt64) : (Write.zeros size).KeyFits f := by
    show (ionKey f 1).length < ioNodeKeyLen
    decide
  have hcount : (Write.zeros 4294967296).CountFits := by
    show (4294967296 : UInt64).toUInt32.toNat < intLimit
    decide
  have hreturns : (((Write.zeros 4294967296).program f).run serve (fun _ => false) (.ofFile f (.new 1))).1 =
      .returned 0 := by
    have hrun := (Write.zeros 4294967296).run_eq (hkey _) (Store.ofFile_md f (.new 1)) [] (fun _ => false)
    have htail : (MetaData.new 1).ioNodeQTail.length = 0 := rfl
    have hall : (Write.zeros 4294967296).progress f [] (.new 1) (.ofFile f (.new 1)) (fun _ => false) = .all := by
      simp [Write.progress, htail, hcount]
    rw [hall] at hrun
    exact congrArg Prod.fst hrun
  have hends := Prog.run_ends (h := serve) ((Write.zeros 4294967296).program f) (fun _ => false)
    (.ofFile f (.new 1))
  rw [hreturns] at hends
  have hwrites := Writes.write .nil hends
  obtain ⟨m, hlog, -⟩ := hwrites.logged (Store.ofFile_md f _) hm (List.nodup_singleton _)
  have hstored : (Write.zeros 4294967296).stored = [] := Write.stored_zeros _
  have hiod := hlog.data _ (List.mem_singleton_self _)
  rw [hstored] at hiod
  refine ⟨f, _, _, _, hm, hwrites, hkey _, ?_, hiod, fun scratch h => ?_⟩
  · rw [Write.bytes, Write.zeros, List.length_take, List.length_replicate, Nat.min_self]
    rfl
  · obtain ⟨m', hcorrect⟩ := h
    have hsame := Option.some.inj (hiod.symm.trans (hcorrect.data _ (List.mem_singleton_self _)))
    exact absurd ((Write.stored_eq_bytes hcount).mp (hstored.trans hsame)) (by decide)

/-- The log of two writes of one byte each. -/
theorem log_correct_two : ∃ f ws m s, ws.length = 2 ∧ m.Registered 0 ∧ LogCorrect f ⟨true, true⟩ ws m s := by
  let f : Filename := ⟨['f'], by decide⟩
  let w (t : Int64) : Write := ⟨.write, t, 0, [7], 1, by decide⟩
  have hm : (MetaData.new 2).EmptyLog := ⟨rfl, rfl⟩
  have h₁ := Prog.run_ends (h := serve) ((w 1).program f) (fun _ => false) (.ofFile f (.new 2))
  have hret₁ : (((w 1).program f).run serve (fun _ => false) (.ofFile f (.new 2))).1 = .returned 0 := by
    decide +kernel
  rw [hret₁] at h₁
  have h₂ := Prog.run_ends (h := serve) ((w 2).program f) (fun _ => false)
    (((w 1).program f).run serve (fun _ => false) (.ofFile f (.new 2))).2
  have hret₂ : (((w 2).program f).run serve (fun _ => false)
    (((w 1).program f).run serve (fun _ => false) (.ofFile f (.new 2))).2).1 = .returned 0 := by decide +kernel
  rw [hret₂] at h₂
  have hwrites := Writes.write (.write .nil h₁) h₂
  have hscratch : Scratch.Fits ⟨true, true⟩ := by decide
  obtain ⟨m, hcorrect⟩ := (log_correct (Store.ofFile_md f _) hm hwrites (by decide)).mpr ⟨by decide, .inl hscratch⟩
  obtain ⟨m', hlog, hreg, -⟩ := hwrites.logged (Store.ofFile_md f _) hm (by decide)
  cases hlog.metaData.symm.trans hcorrect.metaData
  exact ⟨f, [w 1, w 2], m, _, rfl, (hreg 0).mpr (by decide : 0 < 2), hcorrect⟩

end CacheFs.Queue
