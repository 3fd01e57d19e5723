import CacheFs.Queue.LogKeys

/-! When the loop of `replica_update` ends.

The loop follows `ion_next` until it is empty, and no code ever empties it: the last
node of a log points where its memory happened to. Every other write's node points at
the node of some write, so from any of them the loop comes to the last again, or goes
round for ever. It ends just when the last write's memory was empty there, and its key
was not the tail's already, in which case the node was made to point at itself; if nothing
is undefined before, neither in a write nor for want of memory in the loop
(`update_terminates`). -/
namespace CacheFs.Queue
open Interaction

/-- The store after calls of `write_queue_out` that returned 0, each with what `malloc` left in
the `ion_next` of its node. -/
inductive WritesWith (f : Filename) (s₀ : Store) : List (Write × Key) → Store → Prop where
  | nil : WritesWith f s₀ [] s₀
  | write {ws s s' w ionNext} : WritesWith f s₀ ws s →
      Prog.Ends serve (w.programWith f ionNext) s (.returned 0) s' → WritesWith f s₀ (ws ++ [(w, ionNext)]) s'

/-- And the store, unless the last write has done what C leaves undefined. -/
inductive WritesTo (f : Filename) (s₀ : Store) : List (Write × Key) → Option Store → Prop where
  | defined {ws s} : WritesWith f s₀ ws s → WritesTo f s₀ ws (some s)
  | undefined {ws s s' w ionNext} : WritesWith f s₀ ws s →
      Prog.Ends serve (w.programWith f ionNext) s .undefined s' → WritesTo f s₀ (ws ++ [(w, ionNext)]) none

/-- The keys of the writes. -/
def writeKeys (f : Filename) (ws : List (Write × Key)) : List Key := ws.map fun w => w.1.key f

theorem nil_not_mem_writeKeys (f : Filename) (ws : List (Write × Key)) : [] ∉ writeKeys f ws := by
  intro hmem
  obtain ⟨w, -, hw⟩ := List.mem_map.mp hmem
  exact ionKey_ne_nil f _ hw

/-- Whichever calls fail, the loop ends within so many rounds, with nothing undefined, and gets
only nodes of these keys. -/
def Terminates (f : Filename) (scratch : Scratch) (ks : List Key) (rounds : Nat) (hostIp : List Char) (s : Store) : Prop :=
  ∀ fails, ((replicaUpdate scratch f hostIp rounds).run serve fails s).1 ≠ .running ∧
    ((replicaUpdate scratch f hostIp rounds).run serve fails s).1 ≠ .undefined ∧
    ∀ k, Call.ionGet k ∈ (replicaUpdate scratch f hostIp rounds).calls serve fails s → k ∈ ks

/-- The writes have come to a store, and for replica `i` the loop ends there, after at most a round
for each write. -/
def UpdateTerminates (f : Filename) (scratch : Scratch) (ws : List (Write × Key)) (o : Option Store)
    (i : Fin maxReplicas) : Prop :=
  ∃ s m, o = some s ∧ s.md f.chars = some m ∧ m.Registered i ∧
    Terminates f scratch (writeKeys f ws) ws.length (m.myRep i).hostIp s

/-- The last write's `ion_next` was empty, and the write before it, if there is one, was of
another time. -/
def LastEnds (ws : List (Write × Key)) : Prop :=
  ∀ us w, ws = us ++ [w] → w.2 = [] ∧ ∀ v ∈ us.getLast?, v.1.arriveTime ≠ w.1.arriveTime

/-! ### Where the writes point -/

/-- Where the node of the last write points. -/
def lastNext (f : Filename) (us : List (Write × Key)) (w : Write × Key) : Key :=
  if (writeKeys f us).getLast? = some (w.1.key f) then w.1.key f else w.2

/-- The log of some writes, and where the node of each of them points. -/
structure Chained (f : Filename) (ws : List (Write × Key)) (m : MetaData) (s : Store) (l : List Key) : Prop where
  metaData : s.md f.chars = some m
  whole : Whole f s m l
  subset : l ⊆ writeKeys f ws
  ptrs : ∀ i, m.Registered i → ptr (m.myRep i).ioNodePtr = l.head?
  tail : ptr m.ioNodeQTail = (writeKeys f ws).getLast?
  last : ∀ us w, ws = us ++ [w] → nextOf s (w.1.key f) = some (lastNext f us w)
  others : ∀ k ∈ writeKeys f ws, k ≠ m.ioNodeQTail → ∃ k' ∈ writeKeys f ws, nextOf s k = some k'

section Chained
variable {f : Filename} {ws : List (Write × Key)} {m : MetaData} {s : Store} {l : List Key}

theorem Chained.nil {s₀ : Store} {m₀ : MetaData} (hmd : s₀.md f.chars = some m₀) (hm : m₀.EmptyLog)
    (hptrs : ∀ i, m₀.Registered i → (m₀.myRep i).ioNodePtr = []) : Chained f [] m₀ s₀ [] :=
  ⟨hmd, .empty f s₀ hm, by simp, fun i hi => ptr_eq_none.mpr (hptrs i hi), by rw [hm.tail]; rfl, by simp,
    by simp [writeKeys]⟩

theorem Chained.write (h : Chained f ws m s l) (w : Write) (ionNext : Key) :
    Chained f (ws ++ [(w, ionNext)]) (m.wrote (w.key f)) (w.storeAt f ionNext m s .all)
      (Chain.appended l (w.key f)) := by
  have hne : w.key f ≠ [] := ionKey_ne_nil f w.arriveTime
  have hkeys : writeKeys f (ws ++ [(w, ionNext)]) = writeKeys f ws ++ [w.key f] := by simp [writeKeys]
  have hlinked := h.whole.linked_tail w ionNext
  refine ⟨Function.update_self .., h.whole.write w ionNext, fun k hk => ?_, fun i hi => ?_, ?_, fun us v hv => ?_,
    fun k hk htail => ?_⟩
  · rw [hkeys]
    exact List.mem_append.mpr ((Chain.mem_appended hk).imp (fun h' => h.subset h') List.mem_singleton.mpr)
  · have hi' := MetaData.wrote_registered.mp hi
    rw [MetaData.wrote_myRep, Chain.head?_appended]
    have hhead := h.whole.log.head
    by_cases hempty : m.ioNodeQHead = []
    · rw [hempty, ptr_nil] at hhead
      rw [if_pos ⟨hempty, hi'⟩, ← hhead]
      exact ptr_ne_nil hne
    · rw [ptr_ne_nil hempty] at hhead
      rw [if_neg fun hc => hempty hc.1, h.ptrs i hi', ← hhead]
      rfl
  · rw [MetaData.wrote_tail, hkeys, List.getLast?_concat, ptr_ne_nil hne]
  · obtain ⟨rfl, hlast⟩ := List.append_inj' hv rfl
    cases hlast
    rw [lastNext, ← h.tail]
    by_cases hpath : m.ioNodeQTail = w.key f
    · -- the node is stored under the tail's key, and linked to itself
      rw [hpath, ptr_ne_nil hne, if_pos rfl, ← hpath]
      exact hpath ▸ hlinked (hpath ▸ hne)
    · rw [if_neg fun hc => hpath (ptr_eq_some.mp hc).1]
      exact w.nextOf_path ionNext rfl (Ne.symm hpath)
  · rw [MetaData.wrote_tail] at htail
    rw [hkeys] at hk ⊢
    have hk := (List.mem_append.mp hk).resolve_right fun hmem => htail (List.mem_singleton.mp hmem)
    by_cases hold : k = m.ioNodeQTail
    · have hnil : k ≠ [] := ne_of_mem_of_not_mem hk (nil_not_mem_writeKeys f ws)
      exact ⟨w.key f, by simp, hold ▸ hlinked (hold ▸ hnil)⟩
    · obtain ⟨k', hk', hnext⟩ := h.others k hk hold
      exact ⟨k', List.mem_append_left _ hk', (w.nextOf_other ionNext rfl hold htail).trans hnext⟩

end Chained

/-! ### The loop -/

section Loop
variable {scratch : Scratch} {s : Store}

/-- One round with the store: unless its `ion_get` fails, the loop goes on from where the node points. -/
theorem walkLog_run (hscratch : scratch.Fits) (nodes : Nat) {k next : Key} (hk : k ≠ []) (hnext : nextOf s k = some next)
    (fails : Nat → Bool) :
    (((walkLog scratch (nodes + 1) k).run serve fails s).1 = .running ↔
      fails 0 = false ∧ ((walkLog scratch nodes next).run serve (fun n => fails (n + 2)) s).1 = .running) ∧
    ∀ k', Call.ionGet k' ∈ (walkLog scratch (nodes + 1) k).calls serve fails s ↔
      k' = k ∨ fails 0 = false ∧ Call.ionGet k' ∈ (walkLog scratch nodes next).calls serve (fun n => fails (n + 2)) s := by
  obtain ⟨n, hn, rfl⟩ := Option.map_eq_some_iff.mp hnext
  rw [walkLog_succ nodes hk]
  cases h₀ : fails 0 with
  | true => simp [serve, h₀]
  | false =>
    simp only [ionGet_bind, Prog.run_call, Prog.calls_call, serve, hn, h₀, if_pos hscratch, iodGet_bind,
      Bool.false_eq_true, if_false]
    rw [Prog.run_bind_calls, Prog.calls_bind]
    simp

/-- A list of nodes whose last points nowhere is walked to its end. -/
theorem walkLog_list (hscratch : scratch.Fits) {l : List Key} (hlinked : Chain.Linked (nextOf s) l)
    (hkeys : ∀ k ∈ l, k ≠ []) (hlast : ∀ k ∈ l.getLast?, nextOf s k = some []) {k : Key} (hk : ptr k = l.head?)
    {nodes : Nat} (hnodes : l.length ≤ nodes) (fails : Nat → Bool) :
    ((walkLog scratch nodes k).run serve fails s).1 ≠ .running ∧
    ∀ k', Call.ionGet k' ∈ (walkLog scratch nodes k).calls serve fails s → k' ∈ l := by
  induction l generalizing k nodes fails with
  | nil =>
    rw [ptr_eq_none.mp hk, walkLog_nil]
    simp
  | cons a l ih =>
    obtain ⟨rfl, hne⟩ := ptr_eq_some.mp hk
    cases nodes with
    | zero => simp at hnodes
    | succ nodes =>
      have hnext : ∃ next, nextOf s k = some next ∧ ptr next = l.head? := by
        cases l with
        | nil => exact ⟨[], hlast k rfl, rfl⟩
        | cons b l => exact ⟨b, (List.isChain_cons_cons.mp hlinked).1, ptr_ne_nil (hkeys b (by simp))⟩
      obtain ⟨next, hnext, hptr⟩ := hnext
      obtain ⟨hrun, hcalls⟩ := walkLog_run hscratch nodes hne hnext fails
      obtain ⟨hends, hown⟩ := ih (List.IsChain.tail hlinked) (fun k' hk' => hkeys k' (List.mem_cons_of_mem _ hk'))
        (fun k' hk' => hlast k' (by simp [List.getLast?_cons, Option.mem_def.mp hk'])) hptr
        (Nat.le_of_succ_le_succ hnodes) (fun n => fails (n + 2))
      refine ⟨fun hrunning => hends (hrun.mp hrunning).2, fun k' hk' => ?_⟩
      obtain rfl | hk' := (hcalls k').mp hk'
      · exact List.mem_cons_self
      · exact List.mem_cons_of_mem _ (hown k' hk'.2)

/-- Among nodes that all point somewhere, the loop does not end, unless it gets another. -/
theorem walkLog_strays (hscratch : scratch.Fits) {ks : List Key}
    (hnext : ∀ k ∈ ks, ∃ k' ≠ [], nextOf s k = some k') (hne : [] ∉ ks) (nodes : Nat) {k : Key} (hk : k ∈ ks) :
    ((walkLog scratch nodes k).run serve (fun _ => false) s).1 = .running ∨
    ∃ k' ∉ ks, Call.ionGet k' ∈ (walkLog scratch nodes k).calls serve (fun _ => false) s := by
  have hnil : k ≠ [] := ne_of_mem_of_not_mem hk hne
  induction nodes generalizing k with
  | zero =>
    cases k with
    | nil => exact absurd rfl hnil
    | cons c k => exact .inl rfl
  | succ nodes ih =>
    obtain ⟨k', hnil', hk'⟩ := hnext k hk
    obtain ⟨hrun, hcalls⟩ := walkLog_run hscratch nodes hnil hk' (fun _ => false)
    by_cases hmem : k' ∈ ks
    · obtain hloop | hstray := ih hmem hnil'
      · exact .inl (hrun.mpr ⟨rfl, hloop⟩)
      · obtain ⟨k'', hk'', hget⟩ := hstray
        exact .inr ⟨k'', hk'', (hcalls k'').mpr (.inr ⟨rfl, hget⟩)⟩
    · cases nodes with
      | zero =>
        refine .inl (hrun.mpr ⟨rfl, ?_⟩)
        cases k' with
        | nil => exact absurd rfl hnil'
        | cons c k' => rfl
      | succ nodes =>
        refine .inr ⟨k', hmem, (hcalls k').mpr (.inr ⟨rfl, ?_⟩)⟩
        rw [walkLog_succ nodes hnil', ionGet_bind, Prog.calls_call]
        exact List.mem_cons_self

end Loop

/-- A `replica_update` runs and gets nodes just as its loop from the replica's key does. -/
theorem replicaUpdate_loop {f : Filename} {m : MetaData} {s : Store} (hm : s.md f.chars = some m)
    {i : Fin maxReplicas} (hi : m.Registered i) (scratch : Scratch) : ∃ j, m.Registered j ∧ ∀ nodes fails,
    (((replicaUpdate scratch f (m.myRep i).hostIp nodes).run serve fails s).1 = .running ↔ fails 0 = false ∧
      ((walkLog scratch nodes (m.myRep j).ioNodePtr).run serve (fun n => fails (n + 1)) s).1 = .running) ∧
    ∀ k, Call.ionGet k ∈ (replicaUpdate scratch f (m.myRep i).hostIp nodes).calls serve fails s ↔ fails 0 = false ∧
      Call.ionGet k ∈ (walkLog scratch nodes (m.myRep j).ioNodePtr).calls serve (fun n => fails (n + 1)) s := by
  obtain ⟨j, hj, -, hfind⟩ := MetaData.find_registered hi
  refine ⟨j, hj, fun nodes fails => ?_⟩
  simp only [replicaUpdate, mdGet_bind, Prog.run_call, Prog.calls_call]
  cases h₀ : fails 0 with
  | true => simp [serve]
  | false =>
    simp only [serve, Bool.false_eq_true, if_false, hm, hfind]
    by_cases hempty : (m.myRep j).ioNodePtr = []
    · simp only [hempty, List.length_nil, ne_eq, not_true_eq_false, if_false, walkLog_nil, mdPut_bind, Prog.run_call,
        Prog.calls_call]
      split <;> simp
    · simp only [ne_eq, List.length_eq_zero_iff, hempty, not_false_eq_true, if_true]
      rw [Prog.run_bind_calls, Prog.calls_bind]
      cases hwalk : ((walkLog scratch nodes (m.myRep j).ioNodePtr).run serve (fun n => fails (n + 1)) s).1 with
      | failed | running | undefined => simp
      | ended applied =>
        simp only [j.isLt, dif_pos, mdPut_bind, Prog.run_call, Prog.calls_call]
        split <;> simp

theorem lastNext_eq_nil {f : Filename} {us : List (Write × Key)} {w : Write × Key} :
    lastNext f us w = [] ↔ w.2 = [] ∧ ∀ v ∈ us.getLast?, v.1.arriveTime ≠ w.1.arriveTime := by
  rw [lastNext, writeKeys, List.getLast?_map]
  cases us.getLast? with
  | none => simp
  | some v =>
    by_cases htime : v.1.arriveTime = w.1.arriveTime
    · simp [htime, Write.key, ionKey_ne_nil]
    · have hkey : v.1.key f ≠ w.1.key f := fun hkey => htime (ionKey_inj hkey)
      simp [hkey, htime]

theorem WritesWith.chained {f : Filename} {s₀ s : Store} {m₀ : MetaData} {ws : List (Write × Key)}
    (hmd : s₀.md f.chars = some m₀) (hm : m₀.EmptyLog) (hptrs : ∀ i, m₀.Registered i → (m₀.myRep i).ioNodePtr = [])
    (h : WritesWith f s₀ ws s) : ∃ m l, Chained f ws m s l ∧ ∀ i, m.Registered i ↔ m₀.Registered i := by
  induction h with
  | nil => exact ⟨m₀, [], .nil hmd hm hptrs, fun _ => Iff.rfl⟩
  | @write ws s s' w ionNext _ hw ih =>
    obtain ⟨m, l, hc, hreg⟩ := ih
    obtain ⟨-, m', hm', rfl⟩ := Write.ends_done hw
    cases hc.metaData.symm.trans hm'
    exact ⟨_, _, hc.write w ionNext, fun i => MetaData.wrote_registered.trans (hreg i)⟩

theorem WritesWith.defined {f : Filename} {s₀ s : Store} {ws : List (Write × Key)} (h : WritesWith f s₀ ws s) :
    ∀ w ∈ ws, w.1.Defined f := by
  induction h with
  | nil => simp
  | write _ hw ih =>
    intro v hv
    obtain hv | hv := List.mem_append.mp hv
    · exact ih v hv
    · rw [List.mem_singleton.mp hv]
      exact (Write.ends_done hw).1

section Chained
variable {f : Filename} {scratch : Scratch} {ws : List (Write × Key)} {m : MetaData} {s : Store} {l : List Key}

theorem Chained.length_le (h : Chained f ws m s l) : l.length ≤ ws.length := by
  simpa [writeKeys] using (List.subperm_of_subset h.whole.log.nodup h.subset).length_le

/-- The tail's node is the last write's. -/
theorem Chained.tail_eq (h : Chained f ws m s l) {us : List (Write × Key)} {w : Write × Key} (hws : ws = us ++ [w]) :
    m.ioNodeQTail = w.1.key f := by
  have htail := h.tail
  rw [hws, writeKeys, List.map_append, List.map_singleton, List.getLast?_concat] at htail
  exact (ptr_eq_some.mp htail).1

/-- Every node points somewhere, when the last one does. -/
theorem Chained.next (h : Chained f ws m s l) {us : List (Write × Key)} {w : Write × Key} (hws : ws = us ++ [w])
    (hlast : lastNext f us w ≠ []) {k : Key} (hk : k ∈ writeKeys f ws) : ∃ k' ≠ [], nextOf s k = some k' := by
  by_cases htail : k = m.ioNodeQTail
  · exact ⟨_, hlast, by rw [htail, h.tail_eq hws, h.last us w hws]⟩
  · obtain ⟨k', hk', hnext⟩ := h.others k hk htail
    exact ⟨k', ne_of_mem_of_not_mem hk' (nil_not_mem_writeKeys f ws), hnext⟩

/-- The replicas begin at a node of a write, if there are any. -/
theorem Chained.first (h : Chained f ws m s l) (hne : ws ≠ []) {j : Fin maxReplicas} (hj : m.Registered j) :
    (m.myRep j).ioNodePtr ∈ l := by
  have hstart := h.ptrs j hj
  obtain rfl | ⟨us, w, hws⟩ := List.eq_nil_or_concat ws
  · exact absurd rfl hne
  rw [List.concat_eq_append] at hws
  have hne : l ≠ [] := by
    rw [Ne, ← h.whole.log.tail_eq_nil, h.tail_eq hws]
    exact ionKey_ne_nil f _
  obtain ⟨a, r, rfl⟩ := List.exists_cons_of_ne_nil hne
  rw [(ptr_eq_some.mp hstart).1]
  exact List.mem_cons_self

/-- A loop with something to walk needs its memory. -/
theorem Chained.scratch_fits (h : Chained f ws m s l) {i : Fin maxReplicas} (hi : m.Registered i)
    (hterm : Terminates f scratch (writeKeys f ws) ws.length (m.myRep i).hostIp s) : scratch.Fits ∨ ws = [] := by
  refine or_iff_not_imp_right.mpr fun hne => Classical.byContradiction fun hscratch => ?_
  obtain ⟨j, hj, -, hfind⟩ := MetaData.find_registered hi
  have hfirst := h.first hne hj
  obtain ⟨n, hn⟩ := Option.isSome_iff_exists.mp (h.whole.node _ hfirst)
  have hnil := ne_of_mem_of_not_mem (h.subset hfirst) (nil_not_mem_writeKeys f ws)
  obtain ⟨nodes, hnodes⟩ := Nat.exists_eq_succ_of_ne_zero (mt List.length_eq_zero_iff.mp hne)
  rw [hnodes] at hterm
  exact (hterm fun _ => false).2.1 (replicaUpdate_undefined h.metaData hfind hnil hn hscratch nodes)

theorem Chained.lastEnds (h : Chained f ws m s l) (hscratch : scratch.Fits) {i : Fin maxReplicas} (hi : m.Registered i)
    (hterm : Terminates f scratch (writeKeys f ws) ws.length (m.myRep i).hostIp s) : LastEnds ws := by
  intro us w hws
  rw [← lastNext_eq_nil (f := f)]
  apply Classical.byContradiction
  intro hlast
  obtain ⟨j, hj, hloop⟩ := replicaUpdate_loop h.metaData hi scratch
  have hfirst := h.subset (h.first (by simp [hws]) hj)
  -- the loop begins at a node of a write, and each of those points somewhere
  obtain ⟨hrun, hcalls⟩ := hloop ws.length (fun _ => false)
  obtain ⟨hends, -, hown⟩ := hterm (fun _ => false)
  obtain hrunning | hstray :=
    walkLog_strays hscratch (fun k hk => h.next hws hlast hk) (nil_not_mem_writeKeys f ws) ws.length hfirst
  · exact hends (hrun.mpr ⟨rfl, hrunning⟩)
  · obtain ⟨k, hk, hget⟩ := hstray
    exact hk (hown k ((hcalls k).mpr ⟨rfl, hget⟩))

/-- With no writes there is nothing to walk. -/
theorem Chained.idle (h : Chained f [] m s l) {i : Fin maxReplicas} (hi : m.Registered i) :
    Terminates f scratch [] 0 (m.myRep i).hostIp s := by
  have hnil (j : Fin maxReplicas) (hj : m.Registered j) : (m.myRep j).ioNodePtr = [] := by
    rw [← ptr_eq_none, h.ptrs j hj, List.subset_nil.mp h.subset]
    rfl
  intro fails
  obtain ⟨j, hj, hloop⟩ := replicaUpdate_loop h.metaData hi scratch
  obtain ⟨hrun, hcalls⟩ := hloop 0 fails
  rw [hnil j hj, walkLog_nil] at hrun hcalls
  have hends := Prog.run_ends (h := serve) (replicaUpdate scratch f (m.myRep i).hostIp 0) fails s
  exact ⟨fun hrunning => Walk.noConfusion (hrun.mp hrunning).2,
    replicaUpdate_defined h.metaData hi (.inr fun j hj _ => hnil j hj) hends,
    fun k hk => absurd ((hcalls k).mp hk).2 (by simp)⟩

theorem Chained.terminates (h : Chained f ws m s l) {i : Fin maxReplicas} (hi : m.Registered i)
    (hends : LastEnds ws) (hmemory : scratch.Fits ∨ ws = []) :
    Terminates f scratch (writeKeys f ws) ws.length (m.myRep i).hostIp s := by
  obtain hscratch | rfl := hmemory
  swap
  · exact h.idle hi
  intro fails
  obtain ⟨j, hj, hloop⟩ := replicaUpdate_loop h.metaData hi scratch
  have hlast (k : Key) (hk : k ∈ l.getLast?) : nextOf s k = some [] := by
    cases h.whole.log.eq_tail hk
    obtain rfl | ⟨us, w, hws⟩ := List.eq_nil_or_concat ws
    · exact absurd (h.subset (List.mem_of_getLast? hk)) List.not_mem_nil
    · rw [List.concat_eq_append] at hws
      rw [h.tail_eq hws, h.last us w hws, lastNext_eq_nil.mpr (hends us w hws)]
  have hkeys (k : Key) (hk : k ∈ l) : k ≠ [] := ne_of_mem_of_not_mem (h.subset hk) (nil_not_mem_writeKeys f ws)
  obtain ⟨hrun, hcalls⟩ := hloop ws.length fails
  obtain ⟨hstops, hown⟩ := walkLog_list hscratch h.whole.log.linked hkeys hlast (h.ptrs j hj) h.length_le
    (fun n => fails (n + 1))
  exact ⟨fun hrunning => hstops (hrun.mp hrunning).2,
    replicaUpdate_defined h.metaData hi (.inl hscratch) (Prog.run_ends _ fails s),
    fun k hk => h.subset (hown k ((hcalls k).mp hk).2)⟩

end Chained

/-- **The loop of `replica_update` ends**, after at most a round for each write and having got
only nodes of theirs, just when the keys and the counts of the writes fit, the last write's
memory was empty at `ion_next` and the write before it was of another time, and the loop, if
there are any writes, has the memory it needs. -/
theorem update_terminates {f : Filename} {scratch : Scratch} {s₀ : Store} {o : Option Store} {m₀ : MetaData}
    {ws : List (Write × Key)} (hmd : s₀.md f.chars = some m₀) (hm : m₀.EmptyLog)
    (hptrs : ∀ i, m₀.Registered i → (m₀.myRep i).ioNodePtr = []) (h : WritesTo f s₀ ws o)
    {i : Fin maxReplicas} (hi : m₀.Registered i) :
    UpdateTerminates f scratch ws o i ↔
      (∀ w ∈ ws, w.1.Defined f) ∧ LastEnds ws ∧ (scratch.Fits ∨ ws = []) := by
  cases h with
  | @defined ws s h =>
    obtain ⟨m, l, hc, hreg⟩ := h.chained hmd hm hptrs
    have hi := (hreg i).mpr hi
    constructor
    · intro hterm
      obtain ⟨_, m', hs, hm', -, hterm⟩ := hterm
      cases hs
      cases hc.metaData.symm.trans hm'
      have hmemory := hc.scratch_fits hi hterm
      refine ⟨h.defined, ?_, hmemory⟩
      obtain hscratch | rfl := hmemory
      · exact hc.lastEnds hscratch hi hterm
      · intro us w hws
        simp at hws
    · intro hwhen
      exact ⟨s, m, rfl, hc.metaData, hi, hc.terminates hi hwhen.2.1 hwhen.2.2⟩
  | @undefined ws s s' w ionNext h hw =>
    have hmem : (w, ionNext) ∈ ws ++ [(w, ionNext)] := by simp
    refine iff_of_false (fun hterm => ?_) fun hwhen => Write.ends_undefined hw (hwhen.1 (w, ionNext) hmem)
    obtain ⟨s, m, hs, -⟩ := hterm
    cases hs

/-- The store after a write whose calls do not fail. -/
def Write.stores (f : Filename) (w : Write) (ionNext : Key) (s : Store) : Store :=
  ((w.programWith f ionNext).run serve (fun _ => false) s).2

theorem WritesWith.next {f : Filename} {s₀ s : Store} {ws : List (Write × Key)} (h : WritesWith f s₀ ws s) (w : Write)
    (ionNext : Key) (hw : ((w.programWith f ionNext).run serve (fun _ => false) s).1 = .returned 0) :
    WritesWith f s₀ (ws ++ [(w, ionNext)]) (w.stores f ionNext s) := by
  have hends := Prog.run_ends (h := serve) (w.programWith f ionNext) (fun _ => false) s
  rw [hw] at hends
  exact .write h hends

/-- Two writes of one second, with memory that was empty: the node points at itself. -/
theorem update_loops : ∃ (f : Filename) (s₀ s : Store) (w : Write) (i : Fin maxReplicas),
    s₀.md f.chars = some (.new 1) ∧ w.Defined f ∧ WritesTo f s₀ [(w, []), (w, [])] (some s) ∧
    (MetaData.new 1).Registered i ∧ nextOf s (w.key f) = some (w.key f) ∧
    ∀ scratch, ¬ UpdateTerminates f scratch [(w, []), (w, [])] (some s) i := by
  let f : Filename := ⟨['f'], by decide⟩
  let w : Write := ⟨.write, 1, 0, [7], 1, by decide⟩
  let s₀ : Store := .ofFile f (.new 1)
  have hone : WritesWith f s₀ [(w, [])] (w.stores f [] s₀) := WritesWith.nil.next w [] (by decide +kernel)
  have htwo : WritesWith f s₀ [(w, []), (w, [])] (w.stores f [] (w.stores f [] s₀)) :=
    hone.next w [] (by decide +kernel)
  obtain ⟨m, l, hc, hreg⟩ := htwo.chained (Store.ofFile_md f _) ⟨rfl, rfl⟩ (fun _ _ => rfl)
  refine ⟨f, s₀, _, w, 0, Store.ofFile_md f _, by decide, .defined htwo, (by decide : 0 < 1), ?_, fun scratch hterm => ?_⟩
  · rw [hc.last [(w, [])] (w, []) rfl]
    simp [lastNext, writeKeys]
  · obtain ⟨_, m', hs, hm', hi, hterm⟩ := hterm
    cases hs
    cases hc.metaData.symm.trans hm'
    obtain hscratch | hnone := hc.scratch_fits hi hterm
    · exact (hc.lastEnds hscratch hi hterm [(w, [])] (w, []) rfl).2 (w, []) rfl rfl
    · cases hnone

/-- Two writes a second apart, of which only the first had something in its memory. -/
theorem update_terminates_two : ∃ (f : Filename) (s : Store) (v w : Write), v.arriveTime ≠ w.arriveTime ∧
    UpdateTerminates f ⟨true, true⟩ [(v, ['x']), (w, [])] (some s) 0 := by
  let f : Filename := ⟨['f'], by decide⟩
  let w (t : Int64) : Write := ⟨.write, t, 0, [7], 1, by decide⟩
  let s₀ : Store := .ofFile f (.new 1)
  have hone : WritesWith f s₀ [(w 1, ['x'])] ((w 1).stores f ['x'] s₀) :=
    WritesWith.nil.next (w 1) ['x'] (by decide +kernel)
  have htwo : WritesWith f s₀ [(w 1, ['x']), (w 2, [])] ((w 2).stores f [] ((w 1).stores f ['x'] s₀)) :=
    hone.next (w 2) [] (by decide +kernel)
  have hi : (MetaData.new 1).Registered 0 := (by decide : 0 < 1)
  refine ⟨f, _, w 1, w 2, by decide, (update_terminates (Store.ofFile_md f _) ⟨rfl, rfl⟩ (fun _ _ => rfl)
    (.defined htwo) hi).mpr ⟨htwo.defined, fun us u hws => ?_, .inl (by decide)⟩⟩
  obtain ⟨rfl, hlast⟩ := List.append_inj' (show [(w 1, ['x'])] ++ [(w 2, [])] = us ++ [u] from hws) rfl
  cases hlast
  exact ⟨rfl, by simp [w]⟩

end CacheFs.Queue
