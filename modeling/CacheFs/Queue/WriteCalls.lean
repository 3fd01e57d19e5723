import CacheFs.Queue.IoQueue

/-! What a `write_queue_out` does to the store.

It makes up to six calls to the store, one after the other, and returns 1 at the first
that fails; what it has stored by then stays (`Write.run_eq`). A key that does not fit is
undefined before the first call, and a count that is no `int` before the last. -/
namespace CacheFs.Queue
open Interaction Ring

/-- The arguments of a `write_queue_out`, with a buffer of at least `size` bytes. -/
structure Write where
  ioType : IoType
  arriveTime : Int64
  offset : UInt64
  data : List UInt8
  size : UInt64
  enough : size.toNat ≤ data.length

/-- The write's bytes. -/
def Write.bytes (w : Write) : List UInt8 := w.data.take w.size.toNat

/-- The bytes that reach the data store: the count goes through a `u32`. -/
def Write.stored (w : Write) : List UInt8 := w.data.take w.size.toUInt32.toNat

/-- `write_queue_out` with a node that `malloc` left zero-filled. -/
def Write.program (f : Filename) (w : Write) : Program Exit :=
  writeQueueOut f w.ioType w.arriveTime w.offset w.data w.size []

def Write.key (f : Filename) (w : Write) : Key := ionKey f w.arriveTime

/-- The write's key fits the arrays for keys. -/
def Write.KeyFits (f : Filename) (w : Write) : Prop := (w.key f).length < ioNodeKeyLen

/-- The write's count, cut to a `u32`, is an `int`. -/
def Write.CountFits (w : Write) : Prop := w.size.toUInt32.toNat < intLimit

/-- Nothing of the write is undefined. -/
def Write.Defined (f : Filename) (w : Write) : Prop := w.KeyFits f ∧ w.CountFits

instance (f : Filename) (w : Write) : Decidable (w.KeyFits f) := inferInstanceAs (Decidable (_ < _))

instance (w : Write) : Decidable w.CountFits := inferInstanceAs (Decidable (_ < _))

instance (f : Filename) (w : Write) : Decidable (w.Defined f) := inferInstanceAs (Decidable (_ ∧ _))

/-- The nodes with the old tail, if there is one, pointing at the new key. -/
def relinked (ion : Key → Option IoNode) (tail path : Key) : Key → Option IoNode :=
  if tail.length > 1 then Function.update ion tail ((ion tail).map ({· with ionNext := path})) else ion

/-- What the metadata is after a write. -/
def MetaData.wrote (m : MetaData) (path : Key) : MetaData := {m with ioq := m.ioq.dequeue}.logged path

/-- `write_queue_out` with a node whose `ion_next` `malloc` left as it is. -/
def Write.programWith (f : Filename) (w : Write) (ionNext : Key) : Program Exit :=
  writeQueueOut f w.ioType w.arriveTime w.offset w.data w.size ionNext

/-! ### How far a write gets -/

/-- What a write has stored when it returns: nothing, its node, that linked to the old tail,
the metadata too, or all. -/
inductive Progress where
  | nothing
  | node
  | linked
  | metaData
  | all
  deriving DecidableEq

namespace Write

/-- The node that a write stores. -/
def newNode (w : Write) (m : MetaData) (ionNext : Key) : IoNode :=
  ⟨w.ioType, w.offset, w.arriveTime, m.ioNodeQTail, ionNext⟩

/-- The nodes with the new one. -/
def ionWith (w : Write) (f : Filename) (ionNext : Key) (m : MetaData) (s : Store) : Key → Option IoNode :=
  Function.update s.ion (w.key f) (some (w.newNode m ionNext))

/-- The store when the write has got so far. -/
def storeAt (w : Write) (f : Filename) (ionNext : Key) (m : MetaData) (s : Store) : Progress → Store
  | .nothing => s
  | .node => {s with ion := w.ionWith f ionNext m s}
  | .linked => {s with ion := relinked (w.ionWith f ionNext m s) m.ioNodeQTail (w.key f)}
  | .metaData =>
    { md := Function.update s.md f.chars (some (m.wrote (w.key f)))
      ion := relinked (w.ionWith f ionNext m s) m.ioNodeQTail (w.key f)
      iod := s.iod }
  | .all =>
    { md := Function.update s.md f.chars (some (m.wrote (w.key f)))
      ion := relinked (w.ionWith f ionNext m s) m.ioNodeQTail (w.key f)
      iod := Function.update s.iod (w.key f) (some w.stored) }

/-- How far a write gets, by which of its calls fail. -/
def progress (w : Write) (f : Filename) (ionNext : Key) (m : MetaData) (s : Store) (fails : Nat → Bool) : Progress :=
  if fails 0 || fails 1 then .nothing
  else if m.ioNodeQTail.length > 1 then
    if fails 2 || (w.ionWith f ionNext m s m.ioNodeQTail).isNone || fails 3 then .node
    else if fails 4 then .linked
    else if w.CountFits ∧ fails 5 = false then .all
    else .metaData
  else if fails 2 then .linked
  else if w.CountFits ∧ fails 3 = false then .all
  else .metaData

/-- How a write ends that gets so far: with a count that is no `int`, `iod_put` is undefined. -/
def exit (w : Write) : Progress → Exit
  | .all => .returned 0
  | .metaData => if w.CountFits then .returned 1 else .undefined
  | .nothing | .node | .linked => .returned 1

theorem exit_eq_zero {w : Write} {p : Progress} : w.exit p = .returned 0 ↔ p = .all := by
  cases p with
  | all => exact iff_of_true rfl rfl
  | nothing | node | linked => simp [exit]
  | metaData =>
    rw [exit]
    split <;> decide

theorem exit_eq_undefined {w : Write} {p : Progress} : w.exit p = .undefined ↔ p = .metaData ∧ ¬ w.CountFits := by
  cases p <;> simp [exit]

theorem exit_eq_one {w : Write} {p : Progress} (hp : p ≠ .all) (hdefined : w.exit p ≠ .undefined) :
    w.exit p = .returned 1 := by
  cases p with
  | all => exact absurd rfl hp
  | nothing | node | linked => rfl
  | metaData => exact if_pos (not_not.mp fun hcount => hdefined (exit_eq_undefined.mpr ⟨rfl, hcount⟩))

theorem run_putData (w : Write) (path : Key) (s : Store) (fails : Nat → Bool) :
    (putData path w.data w.size.toUInt32).run serve fails s =
    if w.CountFits ∧ fails 0 = false then
      (.returned 0, {s with iod := Function.update s.iod path (some w.stored)})
    else (w.exit .metaData, s) := by
  by_cases hcount : w.CountFits
  · have hlt : w.size.toUInt32.toNat < intLimit := hcount
    rw [putData, if_pos hlt, iodPut_bind, Prog.run_call]
    cases h₀ : fails 0 with
    | true => simp [serve, hcount, exit]
    | false => simp [serve, hcount, stored]
  · have hle : ¬ w.size.toUInt32.toNat < intLimit := hcount
    rw [putData, if_neg hle, if_neg fun h => hcount h.1, exit, if_neg hcount]
    rfl

/-- The last two calls, with the node stored and linked. -/
theorem run_finish (w : Write) (f : Filename) (m : MetaData) (s : Store) (fails : Nat → Bool) :
    (do
      if ← mdPut f.chars ({m with ioq := m.ioq.dequeue}.logged (w.key f)) then
        putData (w.key f) w.data w.size.toUInt32
      else return .returned 1 : Program Exit).run serve fails s =
    if fails 0 then (.returned 1, s)
    else if w.CountFits ∧ fails 1 = false then (.returned 0, {s with
      md := Function.update s.md f.chars (some (m.wrote (w.key f)))
      iod := Function.update s.iod (w.key f) (some w.stored)})
    else (w.exit .metaData, {s with md := Function.update s.md f.chars (some (m.wrote (w.key f)))}) := by
  rw [mdPut_bind, Prog.run_call]
  cases h₀ : fails 0 with
  | true => rfl
  | false => exact w.run_putData (w.key f) _ _

/-- What a write under a key that fits does to a file that has metadata. -/
theorem run_eq (w : Write) {f : Filename} {m : MetaData} {s : Store} (hfits : w.KeyFits f)
    (hm : s.md f.chars = some m) (ionNext : Key) (fails : Nat → Bool) :
    (w.programWith f ionNext).run serve fails s =
      (w.exit (w.progress f ionNext m s fails), w.storeAt f ionNext m s (w.progress f ionNext m s fails)) := by
  have hkey : (ionKey f w.arriveTime).length < ioNodeKeyLen := hfits
  simp only [programWith, writeQueueOut, hkey, if_true, writeUnder, mdGet_bind, Prog.run_call]
  cases h₀ : fails 0 with
  | true => simp [serve, progress, h₀, storeAt, exit]
  | false =>
    simp only [serve, hm, if_false, Bool.false_eq_true, ionPut_bind, Prog.run_call]
    cases h₁ : fails 1 with
    | true => simp [progress, h₀, h₁, storeAt, exit]
    | false =>
      simp only [if_false, Bool.false_eq_true]
      by_cases htail : m.ioNodeQTail.length > 1
      · simp only [linkTail, htail, if_true, ionGet_bind, Prog.call_bind, Prog.run_call]
        cases h₂ : fails 2 with
        | true => simp [serve, progress, h₀, h₁, h₂, htail, storeAt, exit, ionWith, newNode, key]
        | false =>
          simp only [serve, if_false, Bool.false_eq_true]
          cases hnode : w.ionWith f ionNext m s m.ioNodeQTail with
          | none =>
            simp only [ionWith, newNode, key] at hnode
            simp [hnode, progress, h₀, h₁, h₂, htail, storeAt, exit, ionWith, newNode, key]
          | some node =>
            simp only [ionWith, newNode, key] at hnode
            simp only [hnode, ionPut_bind, Prog.run_call]
            cases h₃ : fails 3 with
            | true => simp [serve, progress, h₀, h₁, h₂, h₃, htail, hnode, storeAt, exit, ionWith, newNode, key]
            | false =>
              simp only [serve, if_false, Bool.false_eq_true, if_true]
              refine (w.run_finish f m _ _).trans ?_
              cases h₄ : fails 4 with
              | true =>
                simp [progress, h₀, h₁, h₂, h₃, h₄, htail, hnode, storeAt, exit, relinked, ionWith, newNode, key]
              | false =>
                by_cases hlast : w.CountFits ∧ fails 5 = false <;>
                  simp [progress, h₀, h₁, h₂, h₃, h₄, hlast, htail, hnode, storeAt, exit, relinked, ionWith, newNode,
                    key]
      · simp only [linkTail, htail, if_false, Prog.pure_eq, Prog.ret_bind, if_true]
        refine (w.run_finish f m _ _).trans ?_
        cases h₂ : fails 2 with
        | true => simp [progress, h₀, h₁, h₂, htail, storeAt, exit, relinked, ionWith, newNode, key]
        | false =>
          by_cases hlast : w.CountFits ∧ fails 3 = false <;>
            simp [progress, h₀, h₁, h₂, hlast, htail, storeAt, exit, relinked, ionWith, newNode, key]

theorem run_none (w : Write) {f : Filename} {s : Store} (hfits : w.KeyFits f) (hm : s.md f.chars = none)
    (ionNext : Key) (fails : Nat → Bool) : (w.programWith f ionNext).run serve fails s = (.returned 1, s) := by
  have hkey : (ionKey f w.arriveTime).length < ioNodeKeyLen := hfits
  simp only [programWith, writeQueueOut, hkey, if_true, writeUnder, mdGet_bind, Prog.run_call, serve, hm, ite_self]
  rfl

/-- With a key that does not fit, a write comes to no call. -/
theorem run_overruns (w : Write) {f : Filename} {s : Store} (hlong : ¬ w.KeyFits f) (ionNext : Key)
    (fails : Nat → Bool) : (w.programWith f ionNext).run serve fails s = (.undefined, s) := by
  have hkey : ¬ (ionKey f w.arriveTime).length < ioNodeKeyLen := hlong
  simp only [programWith, writeQueueOut, hkey, if_false]
  rfl

/-- All is done only with a count that is an `int`. -/
theorem countFits_of_progress {w : Write} {f : Filename} {ionNext : Key} {m : MetaData} {s : Store}
    {fails : Nat → Bool} (h : w.progress f ionNext m s fails = .all) : w.CountFits := by
  unfold progress at h
  grind

/-- However its calls go, a write does nothing, or gets somewhere. -/
theorem ends_cases {w : Write} {f : Filename} {ionNext : Key} {s s' : Store} {r : Exit}
    (h : Prog.Ends serve (w.programWith f ionNext) s r s') :
    (s' = s ∧ (r = .returned 1 ∨ r = .undefined ∧ ¬ w.KeyFits f)) ∨
    ∃ m p, s.md f.chars = some m ∧ w.KeyFits f ∧ (p = .all → w.CountFits) ∧ r = w.exit p ∧
      s' = w.storeAt f ionNext m s p := by
  obtain ⟨fails, hrun⟩ := Prog.ends_iff_run.mp h
  by_cases hfits : w.KeyFits f
  · cases hm : s.md f.chars with
    | none =>
      rw [w.run_none hfits hm] at hrun
      cases hrun
      exact .inl ⟨rfl, .inl rfl⟩
    | some m =>
      rw [w.run_eq hfits hm] at hrun
      cases hrun
      exact .inr ⟨m, _, rfl, hfits, countFits_of_progress, rfl, rfl⟩
  · rw [w.run_overruns hfits] at hrun
    cases hrun
    exact .inl ⟨rfl, .inr ⟨rfl, hfits⟩⟩

/-- A write that returns 0 is done, and nothing of it was undefined. -/
theorem ends_done {w : Write} {f : Filename} {ionNext : Key} {s s' : Store}
    (h : Prog.Ends serve (w.programWith f ionNext) s (.returned 0) s') :
    w.Defined f ∧ ∃ m, s.md f.chars = some m ∧ s' = w.storeAt f ionNext m s .all := by
  obtain ⟨-, hr | ⟨hr, -⟩⟩ | ⟨m, p, hm, hfits, hcount, hr, rfl⟩ := ends_cases h
  · exact absurd hr (by decide)
  · exact absurd hr (by decide)
  · obtain rfl := exit_eq_zero.mp hr.symm
    exact ⟨⟨hfits, hcount rfl⟩, m, hm, rfl⟩

/-- A write that ends otherwise than by returning is not defined. -/
theorem ends_undefined {w : Write} {f : Filename} {ionNext : Key} {s s' : Store}
    (h : Prog.Ends serve (w.programWith f ionNext) s .undefined s') : ¬ w.Defined f := by
  intro hdefined
  obtain ⟨-, hr | ⟨-, hlong⟩⟩ | ⟨m, p, -, -, -, hr, -⟩ := ends_cases h
  · exact absurd hr (by decide)
  · exact hlong hdefined.1
  · exact (exit_eq_undefined.mp hr.symm).2 hdefined.2

end Write

end CacheFs.Queue
