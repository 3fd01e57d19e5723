import CacheFs.Library.Transition
import CacheFs.Queue.WriteLog

/-! The calls on one file, with every call of theirs to the store failing or not.

A `write_queue_out` gets somewhere; the other functions do no more to the store than
putting back the metadata with the same log, or taking them out (`KeepsLog`). -/
namespace CacheFs.Queue
open Interaction Ring Transition

/-! ### The other functions -/

/-- A program that only gets. -/
def gets : Protocol tt Unit where
  allowed := fun _ call => match call with
    | .mdGet _ | .ionGet _ | .iodGet _ => True
    | .mdPut _ _ | .mdOut _ | .ionPut _ _ | .iodPut _ _ => False
  after := fun _ _ _ => ()

section Gets
variable {R : Type}

theorem gets_store {p : Program R} (h : p.Follows gets (fun _ _ => True) ()) {s s' : Store} {r : R}
    (hends : Prog.Ends serve p s r s') : s' = s := by
  induction p with
  | ret => exact (Prog.ends_ret.mp hends).2
  | call c next ih =>
    obtain ⟨hc, hnext⟩ := h
    obtain ⟨fails, hends⟩ := Prog.ends_call.mp hends
    have hsame : (serve c fails s).2 = s := by
      cases c <;> first | rfl | exact hc.elim
    rw [hsame] at hends
    exact ih _ (hnext _) hends

theorem waitHead_gets (f : Filename) (ioType : IoType) (t : Int64) (polls : Nat) :
    (waitHead f ioType t polls).Follows gets (fun _ _ => True) () := by
  induction polls with
  | zero => trivial
  | succ polls ih =>
    refine ⟨trivial, fun a => ?_⟩
    cases a with
    | none => trivial
    | some m =>
      show Prog.Follows gets (fun _ _ => True) (if _ then _ else _) ()
      split
      · trivial
      · exact ih

theorem walkLog_gets (scratch : Scratch) (nodes : Nat) (k : Key) :
    (walkLog scratch nodes k).Follows gets (fun _ _ => True) () := by
  induction nodes generalizing k with
  | zero => cases k <;> trivial
  | succ nodes ih =>
    by_cases hk : k = []
    · subst hk
      trivial
    · rw [walkLog_succ nodes hk, ionGet_bind]
      refine ⟨trivial, fun a => ?_⟩
      cases a with
      | none => trivial
      | some node =>
        show Prog.Follows gets (fun _ _ => True) (ite _ _ _) ()
        split
        · exact ⟨trivial, fun _ => (ih node.ionNext).bind fun _ _ _ => trivial⟩
        · trivial

end Gets

/-- At most the metadata of the file are put, with the log they had, or taken out. -/
def KeepsLog (f : Filename) (s s' : Store) : Prop :=
  ∃ o : Option MetaData, s' = {s with md := Function.update s.md f.chars o} ∧
    ∀ m' ∈ o, ∃ m, s.md f.chars = some m ∧ m'.ioNodeQHead = m.ioNodeQHead ∧ m'.ioNodeQTail = m.ioNodeQTail

section KeepsLog
variable {f : Filename} {s s' : Store} {m : MetaData}

theorem KeepsLog.refl (f : Filename) (s : Store) : KeepsLog f s s :=
  ⟨s.md f.chars, by rw [Function.update_eq_self], fun m' hm' => ⟨m', hm', rfl, rfl⟩⟩

theorem KeepsLog.ret {R : Type} {r r' : R} (h : Prog.Ends serve (.ret r : Program R) s r' s') : KeepsLog f s s' := by
  rw [(Prog.ends_ret.mp h).2]
  exact .refl f s

/-- Putting metadata with the same log, whatever comes of it. -/
theorem KeepsLog.put {R : Type} {m' : MetaData} {next : Bool → Program R} {r : R} (hm : s.md f.chars = some m)
    (h : Prog.Ends serve (mdPut f.chars m' >>= next) s r s')
    (hhead : m'.ioNodeQHead = m.ioNodeQHead) (htail : m'.ioNodeQTail = m.ioNodeQTail)
    (hnext : ∀ ok, (next ok).Follows gets (fun _ _ => True) ()) : KeepsLog f s s' := by
  obtain h | h := ends_mdPut.mp h
  · rw [gets_store (hnext false) h]
    exact .refl f s
  · rw [gets_store (hnext true) h]
    refine ⟨some m', rfl, fun m₁ hm₁ => ?_⟩
    cases hm₁
    exact ⟨m, hm, hhead, htail⟩

theorem queueInWait_keepsLog {ioType : IoType} {t : Int64} {polls : Nat} {r : Option UInt32}
    (h : Prog.Ends serve (queueInWait f ioType t polls) s r s') : KeepsLog f s s' := by
  obtain h | h := ends_mdGet.mp h
  · exact .ret h
  cases hm : s.md f.chars with
  | none =>
    rw [hm] at h
    exact .ret h
  | some m =>
    rw [hm] at h
    refine .put hm h rfl rfl fun ok => ?_
    cases ok with
    | false => trivial
    | true => exact waitHead_gets f ioType t polls

theorem readQueueOut_keepsLog {t : Int64} {r : UInt32} (h : Prog.Ends serve (readQueueOut f t) s r s') :
    KeepsLog f s s' := by
  obtain h | h := ends_mdGet.mp h
  · exact .ret h
  cases hm : s.md f.chars with
  | none =>
    rw [hm] at h
    exact .ret h
  | some m =>
    rw [hm] at h
    exact .put hm h rfl rfl fun ok => by cases ok <;> trivial

theorem removeQueueOut_keepsLog {r : UInt32} (h : Prog.Ends serve (removeQueueOut f) s r s') : KeepsLog f s s' := by
  rw [removeQueueOut, mdOut_bind, Prog.ends_call] at h
  obtain ⟨fails, h⟩ := h
  have hends : s' = (serve (.mdOut f.chars) fails s).2 := by
    split at h <;> exact (Prog.ends_ret.mp h).2
  rw [hends, serve]
  split
  · exact .refl f s
  · exact ⟨none, rfl, fun m' hm' => by cases hm'⟩

theorem replicaUpdate_keepsLog {scratch : Scratch} {hostIp : List Char} {nodes : Nat} {r : Update}
    (h : Prog.Ends serve (replicaUpdate scratch f hostIp nodes) s r s') : KeepsLog f s s' := by
  obtain h | h := ends_mdGet.mp h
  · exact .ret h
  cases hm : s.md f.chars with
  | none =>
    rw [hm] at h
    exact .ret h
  | some m =>
    rw [hm] at h
    simp only at h
    generalize findReplica hostIp ((List.ofFn m.myRep).take m.replicaNum) 0 none = found at h
    obtain ⟨i, replica⟩ := found
    cases replica with
    | none => exact .ret h
    | some replica =>
      simp only at h
      split at h
      · obtain ⟨walk, s₁, hwalk, h⟩ := Prog.ends_bind.mp h
        rw [gets_store (walkLog_gets scratch nodes _) hwalk] at h
        cases walk with
        | failed | running | undefined => exact .ret h
        | ended applied =>
          simp only at h
          split at h
          · exact .put hm h rfl rfl fun ok => by cases ok <;> trivial
          · exact .ret h
      · exact .put hm h rfl rfl fun ok => by cases ok <;> trivial

end KeepsLog

/-! ### The machine -/

/-- A call of a function of `io_queue.c` for a file. -/
inductive FileCall where
  | queueInWait (ioType : IoType) (arriveTime : Int64) (polls : Nat)
  | readQueueOut (arriveTime : Int64)
  | writeQueueOut (w : Write) (ionNext : Key)
  | removeQueueOut
  | replicaUpdate (scratch : Scratch) (hostIp : List Char) (nodes : Nat)

/-- The store after a call, by which of its calls to the store fail. -/
def FileCall.after (f : Filename) (c : FileCall) (fails : Nat → Bool) (s : Store) : Store :=
  match c with
  | .queueInWait ioType t polls => ((CacheFs.Queue.queueInWait f ioType t polls).run serve fails s).2
  | .readQueueOut t => ((CacheFs.Queue.readQueueOut f t).run serve fails s).2
  | .writeQueueOut w ionNext => ((w.programWith f ionNext).run serve fails s).2
  | .removeQueueOut => ((CacheFs.Queue.removeQueueOut f).run serve fails s).2
  | .replicaUpdate scratch hostIp nodes => ((CacheFs.Queue.replicaUpdate scratch f hostIp nodes).run serve fails s).2

/-- Nothing of the call is undefined: the key and the count of a write fit. -/
def FileCall.Defined (f : Filename) (c : FileCall) (fails : Nat → Bool) (s : Store) : Prop :=
  match c with
  | .writeQueueOut w _ => w.Defined f
  | .replicaUpdate scratch hostIp nodes =>
    ((CacheFs.Queue.replicaUpdate scratch f hostIp nodes).run serve fails s).1 ≠ .undefined
  | .queueInWait _ _ _ | .readQueueOut _ | .removeQueueOut => True

/-- Calls for one file, one after the other. -/
def fileMachine (f : Filename) (start : Store → Prop) : Machine Store (FileCall × (Nat → Bool)) where
  start := start
  step := fun s c => some (c.1.after f c.2 s)

/-- What a call does to the store: a write gets somewhere, and any other keeps the log. -/
theorem FileCall.after_cases (f : Filename) (c : FileCall) (fails : Nat → Bool) (s : Store) :
    (∃ w ionNext m, c = .writeQueueOut w ionNext ∧ w.KeyFits f ∧ s.md f.chars = some m ∧
      c.after f fails s = w.storeAt f ionNext m s (w.progress f ionNext m s fails)) ∨
    KeepsLog f s (c.after f fails s) := by
  cases c with
  | queueInWait ioType t polls => exact .inr (queueInWait_keepsLog (Prog.run_ends _ fails s))
  | readQueueOut t => exact .inr (readQueueOut_keepsLog (Prog.run_ends _ fails s))
  | removeQueueOut => exact .inr (removeQueueOut_keepsLog (Prog.run_ends _ fails s))
  | replicaUpdate scratch hostIp nodes => exact .inr (replicaUpdate_keepsLog (Prog.run_ends _ fails s))
  | writeQueueOut w ionNext =>
    by_cases hfits : w.KeyFits f
    · cases hm : s.md f.chars with
      | none =>
        refine .inr ?_
        rw [after, w.run_none hfits hm]
        exact .refl f s
      | some m => exact .inl ⟨w, ionNext, m, rfl, hfits, rfl, by rw [after, w.run_eq hfits hm]⟩
    · refine .inr ?_
      rw [after, w.run_overruns hfits]
      exact .refl f s

end CacheFs.Queue
