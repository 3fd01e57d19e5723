import CacheFs.Queue.LogKeys

/-! What a write that fails leaves behind.

A `write_queue_out` has no rollback. Until its `md_put` is done, the log is read from the
old metadata and the write is not in it; what it has stored by then is in the way only
when the log has its key already. Once the `md_put` is done the write is in the log,
and has no data when the `iod_put` fails. And a write whose key does not fit, or whose count
when it comes to the `iod_put`, is undefined (`failed_write_trace`). -/
namespace CacheFs.Queue
open Interaction Ring Transition

/-- The call to the store that fails first. -/
def FirstFailure (fails : Nat → Bool) (i : Nat) : Prop := fails i = true ∧ ∀ j < i, fails j = false

/-- Which of the calls of a `write_queue_out` the `iod_put` is, counted from 0. -/
def MetaData.dataPut (m : MetaData) : Nat := if m.ioNodeQTail.length > 1 then 5 else 3

/-- A key of the log has the records it had, but for where the tail points. -/
structure SameRecords (m : MetaData) (s s' : Store) (k : Key) : Prop where
  node : ∃ n next, s.ion k = some n ∧ s'.ion k = some {n with ionNext := next} ∧
    (k ≠ m.ioNodeQTail → next = n.ionNext)
  data : ∃ v, s.iod k = some v ∧ s'.iod k = some v

/-- The file's metadata and the log, with its records, are as they were. -/
structure NoTrace (f : Filename) (s s' : Store) : Prop where
  metaData : s'.md f.chars = s.md f.chars
  log : ∀ m l, s.md f.chars = some m → LogKeys s m l → LogKeys s' m l ∧ ∀ k ∈ l, SameRecords m s s' k

/-- The node that the write stores is the one that is there, but for where the tail points. -/
def Write.SameNode (w : Write) (f : Filename) (ionNext : Key) (m : MetaData) (s : Store) : Prop :=
  ∃ n, s.ion (w.key f) = some n ∧ w.newNode m ionNext = {n with ionNext := ionNext} ∧
    (w.key f ≠ m.ioNodeQTail → ionNext = n.ionNext)

/-- The write may fail at this call: its key fits; the call is not the `iod_put`, nor one between
the first `ion_put` and that, if the log has a different node under the write's key; and if
it comes after them all, the count fits. -/
def Write.Harmless (w : Write) (f : Filename) (ionNext : Key) (s : Store) (i : Nat) : Prop :=
  w.KeyFits f ∧ ∀ m, s.md f.chars = some m → i ≠ m.dataPut ∧ (m.dataPut < i → w.CountFits) ∧
    (1 < i → i < m.dataPut → ∀ l, LogKeys s m l → w.key f ∈ l → w.SameNode f ionNext m s)

/-- Nothing of the write is undefined, and if it returns 1 it leaves no trace. -/
def Write.FailsClean (w : Write) (f : Filename) (ionNext : Key) (fails : Nat → Bool) (s : Store) : Prop :=
  ((w.programWith f ionNext).run serve fails s).1 ≠ .undefined ∧
    (((w.programWith f ionNext).run serve fails s).1 = .returned 1 →
      NoTrace f s ((w.programWith f ionNext).run serve fails s).2)

/-! ### Where a write stops -/

theorem firstFailure_or (fails : Nat → Bool) (n : Nat) :
    (∃ i ≤ n, FirstFailure fails i) ∨ ∀ j ≤ n, fails j = false := by
  induction n with
  | zero =>
    cases h : fails 0 with
    | true => exact .inl ⟨0, Nat.le_refl 0, h, by simp⟩
    | false => exact .inr fun j hj => Nat.le_zero.mp hj ▸ h
  | succ n ih =>
    obtain ⟨i, hi, hfirst⟩ | hnone := ih
    · exact .inl ⟨i, Nat.le_succ_of_le hi, hfirst⟩
    · cases h : fails (n + 1) with
      | true => exact .inl ⟨n + 1, Nat.le_refl _, h, fun j hj => hnone j (Nat.le_of_lt_succ hj)⟩
      | false =>
        refine .inr fun j hj => ?_
        obtain hj | rfl := Nat.lt_or_eq_of_le hj
        · exact hnone j (Nat.le_of_lt_succ hj)
        · exact h

section Progress
variable {f : Filename} {s : Store} {m : MetaData} (w : Write) (ionNext : Key) {fails : Nat → Bool} {i : Nat}

theorem Write.progress_nothing (hi : FirstFailure fails i) (hle : i ≤ 1) :
    w.progress f ionNext m s fails = .nothing := by
  obtain ⟨hi, -⟩ := hi
  obtain rfl | rfl : i = 0 ∨ i = 1 := by omega
  · simp [progress, hi]
  · simp [progress, hi]

theorem Write.progress_between (hnode : m.ioNodeQTail ≠ [] → (w.ionWith f ionNext m s m.ioNodeQTail).isSome)
    (hi : FirstFailure fails i) (hlt : 1 < i) (hput : i < m.dataPut) :
    w.progress f ionNext m s fails = .node ∨ w.progress f ionNext m s fails = .linked := by
  obtain ⟨hi, hfirst⟩ := hi
  have h₀ := hfirst 0 (by omega)
  have h₁ := hfirst 1 (by omega)
  by_cases hlong : m.ioNodeQTail.length > 1
  · have hsome := Option.isNone_eq_false_iff.mpr (hnode fun hnil => by simp [hnil] at hlong)
    simp only [MetaData.dataPut, hlong, if_true] at hput
    obtain rfl | hlt := Nat.eq_or_lt_of_le hlt
    · simp [progress, h₀, h₁, hlong, hi]
    · have h₂ := hfirst 2 hlt
      obtain rfl | rfl : i = 3 ∨ i = 4 := by omega
      · simp [progress, h₀, h₁, hlong, hi]
      · have h₃ := hfirst 3 (by omega)
        simp [progress, h₀, h₁, h₂, h₃, hlong, hsome, hi]
  · simp only [MetaData.dataPut, hlong, if_false] at hput
    obtain rfl : i = 2 := by omega
    simp [progress, h₀, h₁, hlong, hi]

/-- With no call before the `iod_put` failing, the metadata are put. -/
theorem Write.progress_dataPut (hnode : m.ioNodeQTail ≠ [] → (w.ionWith f ionNext m s m.ioNodeQTail).isSome)
    (hnone : ∀ j < m.dataPut, fails j = false) :
    w.progress f ionNext m s fails = if w.CountFits ∧ fails m.dataPut = false then .all else .metaData := by
  by_cases hlong : m.ioNodeQTail.length > 1
  · have hsome := Option.isNone_eq_false_iff.mpr (hnode fun hnil => by simp [hnil] at hlong)
    simp only [MetaData.dataPut, hlong, if_true] at hnone ⊢
    simp [progress, hnone 0, hnone 1, hnone 2, hnone 3, hnone 4, hlong, hsome]
  · simp only [MetaData.dataPut, hlong, if_false] at hnone ⊢
    simp [progress, hnone 0, hnone 1, hnone 2, hlong]

theorem Write.progress_ne_all (hnode : m.ioNodeQTail ≠ [] → (w.ionWith f ionNext m s m.ioNodeQTail).isSome)
    (hi : FirstFailure fails i) (hle : i ≤ m.dataPut) : w.progress f ionNext m s fails ≠ .all := by
  by_cases hone : i ≤ 1
  · simp [w.progress_nothing ionNext hi hone]
  obtain hlt | rfl := Nat.lt_or_eq_of_le hle
  · obtain hp | hp := w.progress_between ionNext hnode hi (by omega) hlt <;> simp [hp]
  · simp [w.progress_dataPut ionNext hnode hi.2, hi.1]

end Progress

theorem MetaData.wrote_ioq (m : MetaData) (path : Key) : (m.wrote path).ioq = m.ioq.dequeue := by
  simp only [wrote, logged]
  split <;> rfl

/-! ### What it leaves -/

section Trace
variable {f : Filename} {s s' : Store} {m : MetaData} {l : List Key}

theorem Whole.noTrace (h : Whole f s m l) (hm : s.md f.chars = some m) (hmd : s'.md f.chars = s.md f.chars)
    (hion : ∀ k ∈ l, ∀ n, s.ion k = some n → ∃ next, s'.ion k = some {n with ionNext := next} ∧
      (k ≠ m.ioNodeQTail → next = n.ionNext))
    (hiod : s'.iod = s.iod) : NoTrace f s s' := by
  refine ⟨hmd, fun m' l' hm' hl' => ?_⟩
  cases hm.symm.trans hm'
  cases h.log.unique hl'
  refine ⟨h.log.congr fun k hk hne => ?_, fun k hk => ?_⟩
  · obtain ⟨n, hn⟩ := Option.isSome_iff_exists.mp (h.node k hk)
    obtain ⟨next, hn', hnext⟩ := hion k hk n hn
    simp [nextOf, hn, hn', hnext hne]
  · obtain ⟨n, hn⟩ := Option.isSome_iff_exists.mp (h.node k hk)
    obtain ⟨next, hn', hnext⟩ := hion k hk n hn
    obtain ⟨v, hv⟩ := Option.isSome_iff_exists.mp (h.data k hk)
    exact ⟨⟨n, next, hn, hn', hnext⟩, v, hv, by rw [hiod, hv]⟩

theorem NoTrace.whole (h : NoTrace f s s') (hm : s.md f.chars = some m) (hl : Whole f s m l) : Whole f s' m l := by
  obtain ⟨hlog, hrecords⟩ := h.log m l hm hl.log
  refine ⟨hlog, hl.own, fun k hk => ?_, fun k hk => ?_⟩
  · obtain ⟨n, next, -, hn, -⟩ := (hrecords k hk).node
    rw [hn, Option.isSome_some]
  · obtain ⟨v, -, hv⟩ := (hrecords k hk).data
    rw [hv, Option.isSome_some]

variable (w : Write) (ionNext : Key)

/-- Before the metadata are put, all nodes but the tail are those with the new one. -/
theorem Write.storeAt_ion {p : Progress} (hp : p = .node ∨ p = .linked) {k : Key} {n : IoNode}
    (hn : w.ionWith f ionNext m s k = some n) :
    ∃ next, (w.storeAt f ionNext m s p).ion k = some {n with ionNext := next} ∧
      (k ≠ m.ioNodeQTail → next = n.ionNext) := by
  obtain rfl | rfl := hp
  · exact ⟨n.ionNext, hn, fun _ => rfl⟩
  · show ∃ next, relinked _ _ _ k = _ ∧ _
    rw [relinked_eq, hn]
    by_cases hk : k = m.ioNodeQTail ∧ m.ioNodeQTail.length > 1
    · exact ⟨w.key f, by simp [hk], fun hne => absurd hk.1 hne⟩
    · exact ⟨n.ionNext, by simp [hk], fun _ => rfl⟩

/-- A write that stops there leaves no trace just when its key is not in the log, or has
the same node. -/
theorem Whole.noTrace_iff (h : Whole f s m l) (hm : s.md f.chars = some m) {p : Progress}
    (hp : p = .node ∨ p = .linked) : NoTrace f s (w.storeAt f ionNext m s p) ↔
      ∀ l, LogKeys s m l → w.key f ∈ l → w.SameNode f ionNext m s := by
  obtain ⟨next, hnew, hnext⟩ := w.storeAt_ion ionNext hp (f := f) (m := m) (s := s)
    (k := w.key f) (n := w.newNode m ionNext) (Function.update_self ..)
  constructor
  · intro hno l' hl' hk
    obtain ⟨n, next', hn, hn', hnext'⟩ := ((hno.log m l' hm hl').2 _ hk).node
    have hsame := Option.some.inj (hnew.symm.trans hn')
    simp only [Write.newNode, IoNode.mk.injEq] at hsame
    obtain ⟨hioType, hoffset, hioTime, hionPre, rfl⟩ := hsame
    refine ⟨n, hn, ?_, fun hne => (hnext hne).symm.trans (hnext' hne)⟩
    rw [Write.newNode, hioType, hoffset, hioTime, hionPre]
  · intro hsame
    have hmd : (w.storeAt f ionNext m s p).md = s.md := by obtain rfl | rfl := hp <;> rfl
    have hiod : (w.storeAt f ionNext m s p).iod = s.iod := by obtain rfl | rfl := hp <;> rfl
    refine h.noTrace hm (by rw [hmd]) (fun k hk n hn => ?_) hiod
    by_cases hpath : k = w.key f
    · subst hpath
      obtain ⟨n', hn', hnode, hother⟩ := hsame l h.log hk
      cases hn.symm.trans hn'
      rw [hnode] at hnew
      exact ⟨next, hnew, fun hne => (hnext hne).trans (hother hne)⟩
    · exact w.storeAt_ion ionNext hp (by rw [Write.ionWith, Function.update_of_ne hpath, hn])

/-- A write that has put the metadata does leave a trace. -/
theorem Write.metaData_trace (hm : s.md f.chars = some m) : ¬ NoTrace f s (w.storeAt f ionNext m s .metaData) := by
  intro hno
  have hmd := hno.metaData
  simp only [storeAt, Function.update_self, hm, Option.some.injEq] at hmd
  have hplace : place m.ioq.head 1 = place m.ioq.head 0 := by
    have hhead := congrArg (fun m => m.ioq.head) hmd
    rw [MetaData.wrote_ioq] at hhead
    rw [place_zero]
    exact hhead
  exact absurd (place_inj (by decide) (by decide) hplace) (by decide)

/-- The log has all of its records, if there are metadata. -/
def WholeLog (f : Filename) (s : Store) : Prop := ∀ m, s.md f.chars = some m → ∃ l, Whole f s m l

theorem MetaData.three_le_dataPut (m : MetaData) : 3 ≤ m.dataPut := by
  rw [dataPut]
  split <;> decide

/-- A write fails clean just when the call that failed is harmless. -/
theorem Write.failsClean_iff (h : WholeLog f s) {fails : Nat → Bool} {i : Nat} (hi : FirstFailure fails i) :
    w.FailsClean f ionNext fails s ↔ w.Harmless f ionNext s i := by
  by_cases hkey : w.KeyFits f
  swap
  · refine iff_of_false (fun hclean => hclean.1 ?_) fun hharmless => hkey hharmless.1
    rw [w.run_overruns hkey]
  cases hm : s.md f.chars with
  | none =>
    have absent {m : MetaData} (hm' : s.md f.chars = some m) : False := by
      rw [hm] at hm'
      cases hm'
    rw [FailsClean, w.run_none hkey hm]
    exact iff_of_true ⟨by simp, fun _ => ⟨rfl, fun _ _ hm' => (absent hm').elim⟩⟩ ⟨hkey, fun m hm' => (absent hm').elim⟩
  | some m =>
    obtain ⟨l, hl⟩ := h m hm
    have hnode := hl.ionWith_tail w ionNext
    have hput := m.three_le_dataPut
    rw [FailsClean, w.run_eq hkey hm, Harmless, hm]
    simp only [Option.some.injEq, forall_eq', hkey, true_and]
    by_cases hle : i ≤ 1
    · rw [w.progress_nothing ionNext hi hle]
      have hno : NoTrace f s s := hl.noTrace hm rfl (fun k _ n hn => ⟨n.ionNext, hn, fun _ => rfl⟩) rfl
      exact iff_of_true ⟨Exit.noConfusion, fun _ => hno⟩ ⟨by omega, fun hlt => by omega, fun hlt => by omega⟩
    by_cases hbetween : i < m.dataPut
    · have hp := w.progress_between (f := f) (s := s) ionNext hnode hi (by omega) hbetween
      have hexit : w.exit (w.progress f ionNext m s fails) = .returned 1 := by
        obtain hp | hp := hp <;> rw [hp] <;> rfl
      rw [hexit, hl.noTrace_iff w ionNext hm hp]
      exact ⟨fun hclean => ⟨by omega, fun _ => by omega, fun _ _ => hclean.2 rfl⟩,
        fun hsame => ⟨Exit.noConfusion, fun _ => hsame.2.2 (by omega) hbetween⟩⟩
    have hstop := w.progress_dataPut (f := f) (s := s) ionNext hnode
      fun j hj => hi.2 j (by omega)
    by_cases hcount : w.CountFits
    · by_cases hdata : i = m.dataPut
      · -- the metadata are put, and the data are not
        rw [hstop, ← hdata, hi.1, if_neg (by simp)]
        refine iff_of_false (fun hclean => w.metaData_trace ionNext hm (hclean.2 ?_)) fun hne => hne.1 rfl
        rw [exit, if_pos hcount]
      · rw [hstop, hi.2 m.dataPut (by omega), if_pos ⟨hcount, rfl⟩]
        exact iff_of_true ⟨Exit.noConfusion, fun hret => absurd (Exit.returned.inj hret) (by decide)⟩
          ⟨hdata, fun _ => hcount, fun _ hlt => by omega⟩
    · rw [hstop, if_neg fun hboth => hcount hboth.1, exit, if_neg hcount]
      exact iff_of_false (fun hclean => hclean.1 rfl) fun hharmless => hcount (hharmless.2.1 (by omega))

end Trace

/-! ### Runs -/

/-- A file whose log is empty, if it has metadata. -/
def EmptyStart (f : Filename) (s : Store) : Prop := ∀ m, s.md f.chars = some m → m.EmptyLog

/-- The calls are defined, and the writes that fail do so at a harmless call. -/
def harmlessFailures (f : Filename) : Rule Store (FileCall × (Nat → Bool)) := fun s c =>
  c.1.Defined f c.2 s ∧ ∀ w ionNext i, c.1 = .writeQueueOut w ionNext → FirstFailure c.2 i → w.Harmless f ionNext s i

theorem KeepsLog.wholeLog {f : Filename} {s s' : Store} (h : KeepsLog f s s') (hs : WholeLog f s) : WholeLog f s' := by
  obtain ⟨o, rfl, ho⟩ := h
  intro m' hm'
  simp only [Function.update_self] at hm'
  obtain ⟨m, hm, hhead, htail⟩ := ho m' hm'
  obtain ⟨l, hl⟩ := hs m hm
  exact ⟨l, hl.keep rfl rfl hhead htail⟩

theorem FileCall.after_whole {f : Filename} {s : Store} (h : WholeLog f s) {c : FileCall × (Nat → Bool)}
    (hrule : harmlessFailures f s c) : WholeLog f (c.1.after f c.2 s) := by
  obtain ⟨c, fails⟩ := c
  obtain ⟨hdefined, hharmless⟩ := hrule
  obtain ⟨w, ionNext, m, rfl, hkey, hm, hafter⟩ | hkeeps := c.after_cases f fails s
  · obtain ⟨l, hl⟩ := h m hm
    obtain ⟨i, hi, hfirst⟩ | hnone := firstFailure_or fails m.dataPut
    · have hclean := (w.failsClean_iff ionNext h hfirst).mpr (hharmless w ionNext i rfl hfirst)
      have hret : ((w.programWith f ionNext).run serve fails s).1 = .returned 1 := by
        have hnot := hclean.1
        have hall := w.progress_ne_all (f := f) (s := s) ionNext (hl.ionWith_tail w ionNext) hfirst hi
        rw [w.run_eq hkey hm] at hnot ⊢
        exact Write.exit_eq_one hall hnot
      have hno := hclean.2 hret
      intro m' hm'
      cases hm.symm.trans (hno.metaData.symm.trans hm')
      exact ⟨l, hno.whole hm hl⟩
    · have hall := w.progress_dataPut (f := f) (s := s) ionNext (hl.ionWith_tail w ionNext)
        fun j hj => hnone j (Nat.le_of_lt hj)
      have hwrite : w.Defined f := hdefined
      rw [hnone _ (Nat.le_refl _), if_pos ⟨hwrite.2, rfl⟩] at hall
      intro m' hm'
      rw [hafter, hall] at hm' ⊢
      cases (Function.update_self ..).symm.trans hm'
      exact ⟨_, hl.write w ionNext⟩
  · exact hkeeps.wholeLog h

theorem wholeLog_of_reach {f : Filename} {s : Store}
    (h : Reach (fileMachine f (EmptyStart f)) (harmlessFailures f) s) : WholeLog f s := by
  refine h.invariant (fun s hs m hm => ⟨[], .empty f s (hs m hm)⟩) fun s c s' hs hrule hstep => ?_
  cases hstep
  exact FileCall.after_whole hs hrule

/-- **A write that fails leaves no trace in the log** just when its key fits, and the call that
failed is not the `iod_put`, and no node of the log was overwritten by then: in every run
whose calls are defined and whose earlier failures were such. -/
theorem failed_write_trace {f : Filename} {s : Store}
    (h : Reach (fileMachine f (EmptyStart f)) (harmlessFailures f) s) (w : Write) (ionNext : Key)
    {fails : Nat → Bool} {i : Nat} (hi : FirstFailure fails i) :
    (∀ m, s.md f.chars = some m → ∃ l, Whole f s m l) ∧
    (w.FailsClean f ionNext fails s ↔ w.Harmless f ionNext s i) :=
  ⟨wholeLog_of_reach h, w.failsClean_iff ionNext (wholeLog_of_reach h) hi⟩

/-- The first write of a file, whose `iod_put` fails: its key is in the log, without data. -/
theorem failed_write_traces : ∃ (f : Filename) (s s' : Store) (w : Write) (m : MetaData),
    Reachable (fileMachine f (EmptyStart f)) s ∧ w.Defined f ∧
    (w.programWith f []).run serve (fun i => decide (i = 3)) s = (.returned 1, s') ∧
    s'.md f.chars = some m ∧ LogKeys s' m [w.key f] ∧ s'.iod (w.key f) = none ∧ ¬ NoTrace f s s' := by
  let f : Filename := ⟨['f'], by decide⟩
  let w : Write := ⟨.write, 1, 0, [7], 1, by decide⟩
  let s : Store := .ofFile f (.new 1)
  have hempty : EmptyStart f s := by
    intro m hm
    rw [Store.ofFile_md] at hm
    cases hm
    exact ⟨rfl, rfl⟩
  have hm : s.md f.chars = some (.new 1) := Store.ofFile_md f _
  have hdefined : w.Defined f := by decide
  have hrun : (w.programWith f []).run serve (fun i => decide (i = 3)) s =
      (.returned 1, w.storeAt f [] (.new 1) s .metaData) := by
    rw [w.run_eq hdefined.1 hm]
    have hstop : w.progress f [] (.new 1) s (fun i => decide (i = 3)) = .metaData := by decide
    rw [hstop, Write.exit, if_pos hdefined.2]
  refine ⟨f, s, _, w, (MetaData.new 1).wrote (w.key f), .start hempty, hdefined, hrun, ?_, ?_, rfl,
    w.metaData_trace [] hm⟩
  · simp only [Write.storeAt, Function.update_self]
  · exact ((Whole.empty f s (hempty _ hm)).write w []).log.congr fun _ _ _ => rfl

/-- After a write at time 1, one at time 2 whose `md_put` fails. -/
theorem failed_write_trace_two : ∃ (f : Filename) (s : Store) (w : Write),
    ((w.programWith f []).run serve (fun i => decide (i = 4)) s).1 = .returned 1 ∧
    (s.ion (w.key f)).isNone ∧ (((w.programWith f []).run serve (fun i => decide (i = 4)) s).2.ion (w.key f)).isSome ∧
    w.FailsClean f [] (fun i => decide (i = 4)) s := by
  let f : Filename := ⟨['f'], by decide⟩
  let w (t : Int64) : Write := ⟨.write, t, 0, [7], 1, by decide⟩
  let s : Store := .ofFile f (.new 1)
  have hm : s.md f.chars = some (.new 1) := Store.ofFile_md f _
  have hempty : EmptyStart f s := by
    intro m hm'
    cases hm.symm.trans hm'
    exact ⟨rfl, rfl⟩
  let s₁ : Store := (w 1).storeAt f [] (.new 1) s .all
  let m₁ : MetaData := (MetaData.new 1).wrote ((w 1).key f)
  have hlog : LogKeys s₁ m₁ [(w 1).key f] := ((Whole.empty f s (hempty _ hm)).write (w 1) []).log
  have hm₁ : s₁.md f.chars = some m₁ := by simp only [s₁, m₁, Write.storeAt, Function.update_self]
  have hrun : ((w 1).programWith f []).run serve (fun _ => false) s = (.returned 0, s₁) := by
    rw [(w 1).run_eq (by decide) hm]
    rfl
  have hstep : (fileMachine f (EmptyStart f)).step s (.writeQueueOut (w 1) [], fun _ => false) = some s₁ :=
    congrArg (fun x : Exit × Store => some x.2) hrun
  have hreach : Reach (fileMachine f (EmptyStart f)) (harmlessFailures f) s₁ := by
    refine .step (.start hempty) ⟨?_, fun _ _ _ _ hi => Bool.noConfusion hi.1⟩ hstep
    show (w 1).Defined f
    decide
  have hharmless : (w 2).Harmless f [] s₁ 4 := by
    refine ⟨by decide, fun m hm => ?_⟩
    cases hm₁.symm.trans hm
    refine ⟨by decide +kernel, fun _ => by decide, fun _ _ l hl hmem => ?_⟩
    rw [← hlog.unique hl, List.mem_singleton] at hmem
    exact absurd (ionKey_inj hmem) (by decide)
  exact ⟨f, s₁, w 2, by decide +kernel, by decide +kernel, by decide +kernel,
    (failed_write_trace hreach (w 2) [] ⟨by decide, by decide⟩).2.mpr hharmless⟩

end CacheFs.Queue
