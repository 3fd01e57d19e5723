import CacheFs.Queue.Calls

/-! Files are isolated from each other.

All files share the databases of the write log, and their keys are told apart by the
strings alone. What `sprintf` makes of a name and a time is made of no other name and
time (`ionKey_name_inj`), and the tail of a file's log, the only key that a write
follows, is a key of that file. So calls for one file leave the records of any other
as they are (`files_isolated`). -/
namespace CacheFs.Queue
open Interaction Transition

/-! ### Keys -/

theorem underscore_not_mem_decimal (t : Int64) : '_' ∉ decimal t := by
  have hdigits (n : Nat) : '_' ∉ Nat.toDigits 10 n := fun h =>
    absurd (Nat.isDigit_of_mem_toDigits (by decide) (by decide) h) (by decide)
  rw [decimal]
  split
  · simp [hdigits]
  · exact hdigits _

/-- What comes before the last underscore is the name. -/
theorem append_underscore_inj {a b c d : List Char} (h : a ++ '_' :: b = c ++ '_' :: d) (hb : '_' ∉ b)
    (hd : '_' ∉ d) : a = c ∧ b = d := by
  obtain ⟨e, hc, hbe⟩ | ⟨e, ha, hde⟩ := List.append_eq_append_iff.mp h
  · cases e with
    | nil => exact ⟨by simpa using hc.symm, (List.cons.inj hbe).2⟩
    | cons x e =>
      obtain ⟨-, rfl⟩ := List.cons.inj hbe
      simp at hb
  · cases e with
    | nil => exact ⟨by simpa using ha, (List.cons.inj hde).2.symm⟩
    | cons x e =>
      obtain ⟨-, rfl⟩ := List.cons.inj hde
      simp at hd

/-- Different names or different times make different keys. -/
theorem ionKey_name_inj {f g : Filename} {t u : Int64} (h : ionKey f t = ionKey g u) : f = g ∧ t = u := by
  obtain ⟨hname, htime⟩ := append_underscore_inj h (underscore_not_mem_decimal t) (underscore_not_mem_decimal u)
  exact ⟨Filename.ext hname, decimal_inj htime⟩

/-! ### What a call touches -/

/-- Only the records of the file are different. -/
structure TouchesOnly (g : Filename) (s s' : Store) : Prop where
  md : ∀ k ≠ g.chars, s'.md k = s.md k
  ion : ∀ k, (∀ t, k ≠ ionKey g t) → s'.ion k = s.ion k
  iod : ∀ k, (∀ t, k ≠ ionKey g t) → s'.iod k = s.iod k

/-- The tail of the file's log is a key of the file. -/
def OwnTail (g : Filename) (s : Store) : Prop :=
  ∀ m, s.md g.chars = some m → m.ioNodeQTail = [] ∨ ∃ t, m.ioNodeQTail = ionKey g t

section Touches
variable {g : Filename} {s s' : Store}

theorem TouchesOnly.trans {s'' : Store} (h : TouchesOnly g s s') (h' : TouchesOnly g s' s'') : TouchesOnly g s s'' :=
  ⟨fun k hk => (h'.md k hk).trans (h.md k hk), fun k hk => (h'.ion k hk).trans (h.ion k hk),
    fun k hk => (h'.iod k hk).trans (h.iod k hk)⟩

theorem KeepsLog.touchesOnly (h : KeepsLog g s s') : TouchesOnly g s s' := by
  obtain ⟨o, rfl, -⟩ := h
  exact ⟨fun k hk => Function.update_of_ne hk _ _, fun _ _ => rfl, fun _ _ => rfl⟩

theorem KeepsLog.ownTail (h : KeepsLog g s s') (hs : OwnTail g s) : OwnTail g s' := by
  obtain ⟨o, rfl, ho⟩ := h
  intro m' hm'
  simp only [Function.update_self] at hm'
  obtain ⟨m, hm, -, htail⟩ := ho m' hm'
  rw [htail]
  exact hs m hm

/-- However far a write gets, it touches the node of its own key, the one of the old tail, and
the metadata and the data of the file. -/
theorem Write.storeAt_touchesOnly (w : Write) (ionNext : Key) {m : MetaData} (hm : s.md g.chars = some m)
    (hs : OwnTail g s) (p : Progress) : TouchesOnly g s (w.storeAt g ionNext m s p) := by
  have hmd (k : Key) (hk : k ≠ g.chars) : Function.update s.md g.chars (some (m.wrote (w.key g))) k = s.md k :=
    Function.update_of_ne hk _ _
  have hion (k : Key) (hk : ∀ t, k ≠ ionKey g t) : w.ionWith g ionNext m s k = s.ion k :=
    Function.update_of_ne (hk w.arriveTime) _ _
  have hiod (k : Key) (hk : ∀ t, k ≠ ionKey g t) : Function.update s.iod (w.key g) (some w.stored) k = s.iod k :=
    Function.update_of_ne (hk w.arriveTime) _ _
  have hlinked (k : Key) (hk : ∀ t, k ≠ ionKey g t) :
      relinked (w.ionWith g ionNext m s) m.ioNodeQTail (w.key g) k = s.ion k := by
    obtain hnil | ⟨t, ht⟩ := hs m hm
    · simp [relinked, hnil, hion k hk]
    · rw [relinked_of_ne (ht ▸ hk t), hion k hk]
  cases p with
  | nothing => exact ⟨fun _ _ => rfl, fun _ _ => rfl, fun _ _ => rfl⟩
  | node => exact ⟨fun _ _ => rfl, hion, fun _ _ => rfl⟩
  | linked => exact ⟨fun _ _ => rfl, hlinked, fun _ _ => rfl⟩
  | metaData => exact ⟨hmd, hlinked, fun _ _ => rfl⟩
  | all => exact ⟨hmd, hlinked, hiod⟩

theorem Write.storeAt_ownTail (w : Write) (ionNext : Key) (m : MetaData) (hs : OwnTail g s) (p : Progress) :
    OwnTail g (w.storeAt g ionNext m s p) := by
  have hput (md : MetaData) (hmd : Function.update s.md g.chars (some (m.wrote (w.key g))) g.chars = some md) :
      md.ioNodeQTail = [] ∨ ∃ t, md.ioNodeQTail = ionKey g t := by
    rw [Function.update_self] at hmd
    cases hmd
    exact .inr ⟨w.arriveTime, m.wrote_tail _⟩
  cases p with
  | nothing | node | linked => exact hs
  | metaData | all => exact hput

/-- A call for a file touches only its records, and leaves it a tail of its own. -/
theorem FileCall.after_touchesOnly (c : FileCall) (fails : Nat → Bool) (hs : OwnTail g s) :
    TouchesOnly g s (c.after g fails s) ∧ OwnTail g (c.after g fails s) := by
  obtain ⟨w, ionNext, m, rfl, -, hm, hafter⟩ | hkeeps := c.after_cases g fails s
  · rw [hafter]
    exact ⟨w.storeAt_touchesOnly ionNext hm hs _, w.storeAt_ownTail ionNext m hs _⟩
  · exact ⟨hkeeps.touchesOnly, hkeeps.ownTail hs⟩

end Touches

/-- **Files are isolated**: whatever is called for one file from an empty log on, the records of
another stay as they are; and a key has one name and one time. -/
theorem files_isolated {f g : Filename} (hfg : f ≠ g) {s₀ s : Store}
    (hempty : ∀ m, s₀.md g.chars = some m → m.ioNodeQHead = [] ∧ m.ioNodeQTail = [])
    (h : Reachable (fileMachine g (· = s₀)) s) :
    s.md f.chars = s₀.md f.chars ∧
    (∀ t, s.ion (ionKey f t) = s₀.ion (ionKey f t) ∧ s.iod (ionKey f t) = s₀.iod (ionKey f t)) ∧
    ∀ f' g' t u, ionKey f' t = ionKey g' u → f' = g' ∧ t = u := by
  have hkeys (t u : Int64) : ionKey f t ≠ ionKey g u := fun heq => hfg (ionKey_name_inj heq).1
  have hname : f.chars ≠ g.chars := fun heq => hfg (Filename.ext heq)
  suffices TouchesOnly g s₀ s ∧ OwnTail g s by
    obtain ⟨htouches, -⟩ := this
    exact ⟨htouches.md _ hname, fun t => ⟨htouches.ion _ (hkeys t), htouches.iod _ (hkeys t)⟩,
      fun _ _ _ _ => ionKey_name_inj⟩
  refine h.invariant (I := fun s => TouchesOnly g s₀ s ∧ OwnTail g s) ?_ ?_
  · intro s hs
    cases hs
    exact ⟨⟨fun _ _ => rfl, fun _ _ => rfl, fun _ _ => rfl⟩, fun m hm => .inl (hempty m hm).2⟩
  · intro s c s' hs _ hstep
    cases hstep
    obtain ⟨htouches, htail⟩ := FileCall.after_touchesOnly c.1 c.2 hs.2
    exact ⟨hs.1.trans htouches, htail⟩

/-- Two writes, an update and a removal of a file `f`, and a file `f_1`. -/
theorem files_isolated_prefix : ∃ (f g : Filename) (s₀ s : Store), f.chars = g.chars ++ ['_', '1'] ∧
    Reachable (fileMachine g (· = s₀)) s ∧ (s.ion (ionKey g 1)).isSome ∧ s.md g.chars = none ∧
    s.md f.chars = s₀.md f.chars := by
  let g : Filename := ⟨['f'], by decide⟩
  let f : Filename := ⟨['f', '_', '1'], by decide⟩
  let w (t : Int64) : Write := ⟨.write, t, 0, [7], 1, by decide⟩
  have hempty (m : MetaData) (hm : (Store.ofFile g (.new 1)).md g.chars = some m) :
      m.ioNodeQHead = [] ∧ m.ioNodeQTail = [] := by
    rw [Store.ofFile_md] at hm
    cases hm
    exact ⟨rfl, rfl⟩
  obtain ⟨s, hreach, hs⟩ := Reach.exists_run (M := fileMachine g (· = .ofFile g (.new 1))) (R := always)
    [(.writeQueueOut (w 1) [], fun _ => false), (.writeQueueOut (w 2) ['x'], fun _ => false),
      (.replicaUpdate ⟨true, true⟩ ['0'] 2, fun _ => false), (.removeQueueOut, fun _ => false)]
    (fun s : Store => decide ((s.ion (ionKey g 1)).isSome ∧ s.md g.chars = none)) (.start rfl) (by decide +kernel)
  obtain ⟨hnode, hmd⟩ := of_decide_eq_true hs
  exact ⟨f, g, _, s, rfl, hreach, hnode, hmd, (files_isolated (by decide) hempty hreach).1⟩

end CacheFs.Queue
