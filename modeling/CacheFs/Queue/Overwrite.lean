import CacheFs.Queue.LogCorrect
import CacheFs.Queue.LogKeys

/-! Writes that overwrite each other.

A write is stored under the file's name and its time, in seconds. Two writes of one
second have one key, and the second takes the place of the first, in the nodes and in
the data. So of the writes that a file's queue lets through, one after the other, none
overwrites another just when their times are different and their keys and sizes fit
(`none_overwritten`). -/
namespace CacheFs.Queue
open Interaction

/-- The writes done, of requests that each go through `queue_in_wait` and then
`write_queue_out`, one after the other. -/
inductive Served (f : Filename) (s₀ : Store) : List Write → Store → Prop where
  | nil : Served f s₀ [] s₀
  /-- `queue_in_wait` does not let it through. -/
  | waits {ws s s'} (w : Write) {polls r} : Served f s₀ ws s →
      Prog.Ends serve (queueInWait f w.ioType w.arriveTime polls) s r s' → r ≠ some 0 → Served f s₀ ws s'
  | fails {ws s s' s''} (w : Write) {polls ionNext} : Served f s₀ ws s →
      Prog.Ends serve (queueInWait f w.ioType w.arriveTime polls) s (some 0) s' →
      Prog.Ends serve (w.programWith f ionNext) s' (.returned 1) s'' → Served f s₀ ws s''
  | done {ws s s' s''} (w : Write) {polls ionNext} : Served f s₀ ws s →
      Prog.Ends serve (queueInWait f w.ioType w.arriveTime polls) s (some 0) s' →
      Prog.Ends serve (w.programWith f ionNext) s' (.returned 0) s'' → Served f s₀ (ws ++ [w]) s''

/-- And the store, unless the last write has done what C leaves undefined. -/
inductive ServedTo (f : Filename) (s₀ : Store) : List Write → Option Store → Prop where
  | defined {ws s} : Served f s₀ ws s → ServedTo f s₀ ws (some s)
  | undefined {ws s s' s''} (w : Write) {polls ionNext} : Served f s₀ ws s →
      Prog.Ends serve (queueInWait f w.ioType w.arriveTime polls) s (some 0) s' →
      Prog.Ends serve (w.programWith f ionNext) s' .undefined s'' → ServedTo f s₀ (ws ++ [w]) none

/-- Each write has a key of its own, and there its node and its bytes. -/
structure NoneOverwritten (f : Filename) (ws : List Write) (s : Store) : Prop where
  keys : (keys f ws).Nodup
  node : ∀ w ∈ ws, (s.ion (w.key f)).isSome
  data : ∀ w ∈ ws, s.iod (w.key f) = some w.bytes

section Step
variable {f : Filename} {s s' : Store}

theorem KeepsLog.ion (h : KeepsLog f s s') : s'.ion = s.ion := by
  obtain ⟨o, rfl, -⟩ := h
  rfl

theorem KeepsLog.iod (h : KeepsLog f s s') : s'.iod = s.iod := by
  obtain ⟨o, rfl, -⟩ := h
  rfl

theorem Write.storeAt_isSome (w : Write) (ionNext : Key) (m : MetaData) (p : Progress) {k : Key}
    (hk : (s.ion k).isSome) : ((w.storeAt f ionNext m s p).ion k).isSome := by
  cases p with
  | nothing => exact hk
  | node => exact isSome_update (.inl hk)
  | linked | metaData | all => exact w.linked_isSome ionNext (.inl hk)

/-- Only a write that is done touches the data. -/
theorem Write.storeAt_iod (w : Write) (ionNext : Key) (m : MetaData) {p : Progress} (hp : p ≠ .all) :
    (w.storeAt f ionNext m s p).iod = s.iod := by
  cases p with
  | all => exact absurd rfl hp
  | nothing | node | linked | metaData => rfl

/-- A write that fails takes no node out, and touches no data. -/
theorem Write.fails_keeps {w : Write} {ionNext : Key}
    (h : Prog.Ends serve (w.programWith f ionNext) s (.returned 1) s') :
    (∀ k, (s.ion k).isSome → (s'.ion k).isSome) ∧ s'.iod = s.iod := by
  obtain ⟨rfl, -⟩ | ⟨m, p, -, -, -, hr, rfl⟩ := Write.ends_cases h
  · exact ⟨fun _ hk => hk, rfl⟩
  · have hp : p ≠ .all := by
      rintro rfl
      exact absurd (hr.trans (Write.exit_eq_zero.mpr rfl)) (by decide)
    exact ⟨fun k hk => w.storeAt_isSome ionNext m p hk, w.storeAt_iod ionNext m hp⟩

end Step

section Runs
variable {f : Filename} {s₀ s : Store} {ws : List Write}

/-- Each write has a node. -/
theorem Served.node (h : Served f s₀ ws s) : ∀ w ∈ ws, (s.ion (w.key f)).isSome := by
  induction h with
  | nil => simp
  | waits w _ hwait _ ih =>
    intro v hv
    rw [(queueInWait_keepsLog hwait).ion]
    exact ih v hv
  | fails w _ hwait hw ih =>
    intro v hv
    refine (Write.fails_keeps hw).1 _ ?_
    rw [(queueInWait_keepsLog hwait).ion]
    exact ih v hv
  | done w _ hwait hw ih =>
    obtain ⟨-, m, -, rfl⟩ := Write.ends_done hw
    intro v hv
    refine w.linked_isSome _ ?_
    obtain hv | hv := List.mem_append.mp hv
    · rw [(queueInWait_keepsLog hwait).ion]
      exact .inl (ih v hv)
    · rw [List.mem_singleton.mp hv]
      exact .inr rfl

/-- With different keys, each write has what reached the data store of it. -/
theorem Served.data (h : Served f s₀ ws s) (hkeys : (keys f ws).Nodup) : ∀ w ∈ ws, s.iod (w.key f) = some w.stored := by
  induction h with
  | nil => simp
  | waits w _ hwait _ ih =>
    rw [(queueInWait_keepsLog hwait).iod]
    exact ih hkeys
  | fails w _ hwait hw ih =>
    rw [(Write.fails_keeps hw).2, (queueInWait_keepsLog hwait).iod]
    exact ih hkeys
  | @done ws s s' s'' w _ _ _ hwait hw ih =>
    obtain ⟨-, m, -, rfl⟩ := Write.ends_done hw
    rw [keys, List.map_append, List.nodup_append] at hkeys
    intro v hv
    obtain hv | hv := List.mem_append.mp hv
    · have hne : v.key f ≠ w.key f := hkeys.2.2 _ (mem_keys hv) _ (by simp)
      show Function.update s'.iod _ _ _ = _
      rw [Function.update_of_ne hne, (queueInWait_keepsLog hwait).iod]
      exact ih hkeys.1 v hv
    · rw [List.mem_singleton.mp hv]
      exact Function.update_self ..

/-- Nothing of a write that is done was undefined. -/
theorem Served.defined (h : Served f s₀ ws s) : ∀ w ∈ ws, w.Defined f := by
  induction h with
  | nil => simp
  | waits _ _ _ _ ih => exact ih
  | fails _ _ _ _ ih => exact ih
  | done w _ _ hw ih =>
    intro v hv
    obtain hv | hv := List.mem_append.mp hv
    · exact ih v hv
    · rw [List.mem_singleton.mp hv]
      exact (Write.ends_done hw).1

theorem Served.none_overwritten_iff (h : Served f s₀ ws s) :
    NoneOverwritten f ws s ↔ (ws.map Write.arriveTime).Nodup ∧ ∀ w ∈ ws, w.KeyFits f ∧ w.size.toNat < 2 ^ 31 := by
  rw [← keys_nodup (f := f)]
  have hsize (w : Write) (hw : w ∈ ws) := Write.stored_eq_bytes (h.defined w hw).2
  constructor
  · intro hno
    refine ⟨hno.keys, fun w hw => ⟨(h.defined w hw).1, (hsize w hw).mp ?_⟩⟩
    exact Option.some.inj ((h.data hno.keys w hw).symm.trans (hno.data w hw))
  · intro hwrites
    obtain ⟨hkeys, hsizes⟩ := hwrites
    refine ⟨hkeys, h.node, fun w hw => ?_⟩
    rw [h.data hkeys w hw, (hsize w hw).mpr (hsizes w hw).2]

/-- **No write overwrites another**, and all of their data are there, just when they are of
different times, under keys that fit, and each of less than 2³¹ bytes. -/
theorem none_overwritten {o : Option Store} (h : ServedTo f s₀ ws o) :
    (∃ s, o = some s ∧ NoneOverwritten f ws s) ↔
      (ws.map Write.arriveTime).Nodup ∧ ∀ w ∈ ws, w.KeyFits f ∧ w.size.toNat < 2 ^ 31 := by
  cases h with
  | defined h =>
    rw [← h.none_overwritten_iff]
    exact ⟨fun ⟨s, hs, hno⟩ => Option.some.inj hs ▸ hno, fun hno => ⟨_, rfl, hno⟩⟩
  | undefined w h hwait hw =>
    refine iff_of_false (fun hsome => ?_) fun hwrites => Write.ends_undefined hw ?_
    · obtain ⟨s, hs, -⟩ := hsome
      cases hs
    · obtain ⟨hkey, hsize⟩ := hwrites.2 w (List.mem_append_right _ (List.mem_singleton_self _))
      refine ⟨hkey, ?_⟩
      show w.size.toUInt32.toNat < 2 ^ 31
      simp
      omega

end Runs

/-- The store after a request that the queue lets through at once, and whose write is done. -/
def Write.requested (f : Filename) (w : Write) (s : Store) : Store :=
  ((w.programWith f []).run serve (fun _ => false)
    ((queueInWait f w.ioType w.arriveTime 1).run serve (fun _ => false) s).2).2

theorem Served.next {f : Filename} {s₀ s : Store} {ws : List Write} (h : Served f s₀ ws s) (w : Write)
    (hwait : ((queueInWait f w.ioType w.arriveTime 1).run serve (fun _ => false) s).1 = some 0)
    (hw : ((w.programWith f []).run serve (fun _ => false)
      ((queueInWait f w.ioType w.arriveTime 1).run serve (fun _ => false) s).2).1 = .returned 0) :
    Served f s₀ (ws ++ [w]) (w.requested f s) := by
  have hwait' := Prog.run_ends (h := serve) (queueInWait f w.ioType w.arriveTime 1) (fun _ => false) s
  have hw' := Prog.run_ends (h := serve) (w.programWith f []) (fun _ => false)
    ((queueInWait f w.ioType w.arriveTime 1).run serve (fun _ => false) s).2
  rw [hwait] at hwait'
  rw [hw] at hw'
  exact .done w h hwait' hw'

/-- Two writes of one second: the first one's data are lost. -/
theorem overwritten : ∃ (f : Filename) (s₀ s : Store) (v w : Write), ServedTo f s₀ [v, w] (some s) ∧
    v.Defined f ∧ w.Defined f ∧ v.arriveTime = w.arriveTime ∧ v.bytes ≠ w.bytes ∧ s.iod (v.key f) = some w.bytes ∧
    ¬ NoneOverwritten f [v, w] s := by
  let f : Filename := ⟨['f'], by decide⟩
  let w (byte : UInt8) : Write := ⟨.write, 1, 0, [byte], 1, by simp⟩
  let s₀ : Store := .ofFile f (.new 1)
  have hone : Served f s₀ [w 7] ((w 7).requested f s₀) := Served.nil.next (w 7) (by decide +kernel) (by decide +kernel)
  have htwo : Served f s₀ [w 7, w 8] ((w 8).requested f ((w 7).requested f s₀)) :=
    hone.next (w 8) (by decide +kernel) (by decide +kernel)
  refine ⟨f, s₀, _, w 7, w 8, .defined htwo, by decide, by decide, rfl, by decide +kernel, by decide +kernel,
    fun hno => ?_⟩
  exact (List.nodup_cons.mp hno.keys).1 (List.mem_singleton_self _)

/-- Two writes a second apart. -/
theorem none_overwritten_two : ∃ (f : Filename) (s₀ : Store) (v w : Write) (o : Option Store),
    ServedTo f s₀ [v, w] o ∧ v.bytes ≠ w.bytes ∧ ∃ s, o = some s ∧ NoneOverwritten f [v, w] s := by
  let f : Filename := ⟨['f'], by decide⟩
  let w (t : Int64) (byte : UInt8) : Write := ⟨.write, t, 0, [byte], 1, by simp⟩
  let s₀ : Store := .ofFile f (.new 1)
  have hone : Served f s₀ [w 1 7] ((w 1 7).requested f s₀) :=
    Served.nil.next (w 1 7) (by decide +kernel) (by decide +kernel)
  have htwo : Served f s₀ [w 1 7, w 2 8] ((w 2 8).requested f ((w 1 7).requested f s₀)) :=
    hone.next (w 2 8) (by decide +kernel) (by decide +kernel)
  exact ⟨f, s₀, w 1 7, w 2 8, _, .defined htwo, by decide +kernel,
    (none_overwritten (.defined htwo)).mpr (by decide +kernel)⟩

end CacheFs.Queue
