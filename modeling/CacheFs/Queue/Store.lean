import Mathlib.Data.Fintype.Pi
import CacheFs.Library.Interaction
import CacheFs.Library.Ring

/-! The records of a file and the store they are kept in (`md_type.h` and
`tt_func.c`).

The store is three databases: metadata by file name, and the nodes and the data of
the write log by the key that `sprintf` makes of a file name and a time. Keys are
C strings, the empty one standing for no key. -/
namespace CacheFs.Queue
open Interaction Ring

/-- `IO_NODE_KEY_LEN`. -/
def ioNodeKeyLen : Nat := 260

/-- `IO_Q_LEN`. -/
def ioQLen : Nat := 50

/-- `REPLICA_NUM`. -/
def maxReplicas : Nat := 3

/-- From here on a `u32` is a negative `int`. -/
def intLimit : Nat := 2 ^ 31

instance : NeZero ioQLen := ⟨by decide⟩
instance : NeZero maxReplicas := ⟨by decide⟩

abbrev Key := List Char

/-! ### Keys of the write log -/

/-- A file name, with a length that is an `int`, as the databases take it. -/
@[ext] structure Filename where
  chars : List Char
  length_lt : chars.length < intLimit
  deriving DecidableEq

/-- What `%ld` prints of a `time_t`. -/
def decimal (t : Int64) : List Char :=
  if t.toInt < 0 then '-' :: Nat.toDigits 10 t.toInt.natAbs else Nat.toDigits 10 t.toInt.natAbs

/-- `sprintf(path, "%s_%ld", filename, arrive_time)`. -/
def ionKey (f : Filename) (t : Int64) : Key := f.chars ++ '_' :: decimal t

theorem toDigits_inj {m n : Nat} (h : Nat.toDigits 10 m = Nat.toDigits 10 n) : m = n := by
  rw [← Nat.ofDigitChars_ten_toDigits (n := m), h, Nat.ofDigitChars_ten_toDigits]

theorem minus_ne_toDigits (l : List Char) (n : Nat) : '-' :: l ≠ Nat.toDigits 10 n := by
  intro heq
  have hmem : '-' ∈ Nat.toDigits 10 n := by
    rw [← heq]
    exact List.mem_cons_self
  exact absurd (Nat.isDigit_of_mem_toDigits (by decide) (by decide) hmem) (by decide)

theorem decimal_inj {t u : Int64} (h : decimal t = decimal u) : t = u := by
  apply Int64.toInt_inj.mp
  simp only [decimal] at h
  split at h <;> split at h
  · have := toDigits_inj (List.cons.inj h).2
    omega
  · exact absurd h (minus_ne_toDigits _ _)
  · exact absurd h.symm (minus_ne_toDigits _ _)
  · have := toDigits_inj h
    omega

/-- Writes of a file at different times have different keys. -/
theorem ionKey_inj {f : Filename} {t u : Int64} (h : ionKey f t = ionKey f u) : t = u :=
  decimal_inj (List.cons.inj (List.append_cancel_left h)).2

theorem decimal_ne_nil (t : Int64) : decimal t ≠ [] := by
  simp only [decimal]
  split
  · simp
  · exact Nat.toDigits_ne_nil

theorem one_lt_ionKey_length (f : Filename) (t : Int64) : 1 < (ionKey f t).length := by
  have := List.length_pos_iff.mpr (decimal_ne_nil t)
  simp only [ionKey, List.length_append, List.length_cons]
  omega

theorem ionKey_ne_nil (f : Filename) (t : Int64) : ionKey f t ≠ [] := by
  simp [ionKey]

/-! ### Records -/

/-- `IO_Type`. -/
inductive IoType where
  | read
  | write
  | remove
  deriving DecidableEq

/-- `IO_Node`. -/
structure IoNode where
  ioType : IoType
  offset : UInt64
  ioTime : Int64
  ionPre : Key
  ionNext : Key
  deriving DecidableEq

/-- `IO_Q_Node`. -/
structure IoQNode where
  ioType : IoType
  arriveTime : Int64
  deriving DecidableEq

/-- `IO_Q`: its `int` head and tail are only ever set below `IO_Q_LEN`. -/
structure IoQ where
  head : Fin ioQLen
  tail : Fin ioQLen
  ioQNode : Fin ioQLen → IoQNode
  deriving DecidableEq

/-- `REPLICA`. -/
structure Replica where
  hostIp : List Char
  ioNodePtr : Key
  deriving DecidableEq

/-- `Meta_Data`, with what `io_queue.c` uses of its `struct stat`. -/
structure MetaData where
  stAtime : Int64
  myRep : Fin maxReplicas → Replica
  replicaNum : Fin (maxReplicas + 1)
  ioq : IoQ
  ioNodeQHead : Key
  ioNodeQTail : Key
  deriving DecidableEq

/-! ### The store -/

inductive Call where
  | mdGet (f : Key)
  | mdPut (f : Key) (m : MetaData)
  | mdOut (f : Key)
  | ionGet (k : Key)
  | ionPut (k : Key) (n : IoNode)
  | iodGet (k : Key)
  | iodPut (k : Key) (v : List UInt8)

/-- What a call gives: the value got, if there is one, or whether it was done. -/
@[reducible] def Answer : Call → Type
  | .mdGet _ => Option MetaData
  | .ionGet _ => Option IoNode
  | .iodGet _ => Option (List UInt8)
  | .mdPut _ _ | .mdOut _ | .ionPut _ _ | .iodPut _ _ => Bool

/-- The store's calls. -/
@[reducible] def tt : Interface := ⟨Call, Answer⟩

abbrev Program := Prog tt

def mdGet (f : Key) : Program (Option MetaData) := Prog.ask (I := tt) (.mdGet f)
def mdPut (f : Key) (m : MetaData) : Program Bool := Prog.ask (I := tt) (.mdPut f m)
def mdOut (f : Key) : Program Bool := Prog.ask (I := tt) (.mdOut f)
def ionGet (k : Key) : Program (Option IoNode) := Prog.ask (I := tt) (.ionGet k)
def ionPut (k : Key) (n : IoNode) : Program Bool := Prog.ask (I := tt) (.ionPut k n)
def iodGet (k : Key) : Program (Option (List UInt8)) := Prog.ask (I := tt) (.iodGet k)

/-- `iod_put` takes its count as a `u32`, here one that is no negative `int` to `tcrdbput`. -/
def iodPut (k : Key) (value : List UInt8) (count : UInt32) : Program Bool :=
  Prog.ask (I := tt) (.iodPut k (value.take count.toNat))

section Calls
variable {R : Type}

@[simp] theorem mdGet_bind (f : Key) (k : Option MetaData → Program R) :
    (mdGet f >>= k) = .call (.mdGet f) k := rfl

@[simp] theorem mdPut_bind (f : Key) (m : MetaData) (k : Bool → Program R) :
    (mdPut f m >>= k) = .call (.mdPut f m) k := rfl

@[simp] theorem mdOut_bind (f : Key) (k : Bool → Program R) : (mdOut f >>= k) = .call (.mdOut f) k := rfl

@[simp] theorem ionGet_bind (p : Key) (k : Option IoNode → Program R) :
    (ionGet p >>= k) = .call (.ionGet p) k := rfl

@[simp] theorem ionPut_bind (p : Key) (n : IoNode) (k : Bool → Program R) :
    (ionPut p n >>= k) = .call (.ionPut p n) k := rfl

@[simp] theorem iodGet_bind (p : Key) (k : Option (List UInt8) → Program R) :
    (iodGet p >>= k) = .call (.iodGet p) k := rfl

@[simp] theorem iodPut_bind (p : Key) (v : List UInt8) (count : UInt32) (k : Bool → Program R) :
    (iodPut p v count >>= k) = .call (.iodPut p (v.take count.toNat)) k := rfl

end Calls

structure Store where
  md : Key → Option MetaData
  ion : Key → Option IoNode
  iod : Key → Option (List UInt8)

/-- A call to the store, which fails when the environment says so and then leaves
the store as it was; `md_out` also fails when there is nothing to remove. -/
def serve : Handler tt Store Bool
  | .mdGet f, fails, s => (if fails then none else s.md f, s)
  | .ionGet k, fails, s => (if fails then none else s.ion k, s)
  | .iodGet k, fails, s => (if fails then none else s.iod k, s)
  | .mdPut f m, fails, s =>
    if fails then (false, s) else (true, {s with md := Function.update s.md f (some m)})
  | .mdOut f, fails, s =>
    if fails || (s.md f).isNone then (false, s) else (true, {s with md := Function.update s.md f none})
  | .ionPut k n, fails, s =>
    if fails then (false, s) else (true, {s with ion := Function.update s.ion k (some n)})
  | .iodPut k v, fails, s =>
    if fails then (false, s) else (true, {s with iod := Function.update s.iod k (some v)})

/-- The metadata of a new file with so many replicas, each on a host of its own. -/
def MetaData.new (replicaNum : Fin (maxReplicas + 1)) : MetaData where
  stAtime := 0
  myRep := fun i => ⟨Nat.toDigits 10 i, []⟩
  replicaNum := replicaNum
  ioq := ⟨0, 0, fun _ => ⟨.read, 0⟩⟩
  ioNodeQHead := []
  ioNodeQTail := []

/-- A store with the metadata of one file. -/
def Store.ofFile (f : Filename) (m : MetaData) : Store :=
  ⟨Function.update (fun _ => none) f.chars (some m), fun _ => none, fun _ => none⟩

theorem Store.ofFile_md (f : Filename) (m : MetaData) : (Store.ofFile f m).md f.chars = some m := by
  simp [Store.ofFile]

/-! ### How a program that begins with a call may end -/

section Ends
variable {R : Type} {s s' : Store} {r : R}
open Prog

theorem ends_mdGet {f : Key} {k : Option MetaData → Program R} :
    Ends serve (mdGet f >>= k) s r s' ↔ Ends serve (k none) s r s' ∨ Ends serve (k (s.md f)) s r s' := by
  simp only [mdGet_bind, ends_call, Bool.exists_bool, serve]
  exact or_comm

theorem ends_ionGet {p : Key} {k : Option IoNode → Program R} :
    Ends serve (ionGet p >>= k) s r s' ↔ Ends serve (k none) s r s' ∨ Ends serve (k (s.ion p)) s r s' := by
  simp only [ionGet_bind, ends_call, Bool.exists_bool, serve]
  exact or_comm

theorem ends_iodGet {p : Key} {k : Option (List UInt8) → Program R} :
    Ends serve (iodGet p >>= k) s r s' ↔ Ends serve (k none) s r s' ∨ Ends serve (k (s.iod p)) s r s' := by
  simp only [iodGet_bind, ends_call, Bool.exists_bool, serve]
  exact or_comm

theorem ends_mdPut {f : Key} {m : MetaData} {k : Bool → Program R} :
    Ends serve (mdPut f m >>= k) s r s' ↔ Ends serve (k false) s r s' ∨
      Ends serve (k true) {s with md := Function.update s.md f (some m)} r s' := by
  simp only [mdPut_bind, ends_call, Bool.exists_bool, serve]
  exact or_comm

end Ends

end CacheFs.Queue
