import Mathlib.Logic.Function.Basic
import CacheFs.Mutex.Protocol

/-! The hash-based lock server (`new_md_mutex_server.c` and `hash.c`).

Locks are allocated when a file is first asked for and freed with their last user,
and are kept in `NHASH` doubly linked chains. `get_zz_mutex` reads the head of a
chain before it takes `glob_mutex`; `server` keeps the two apart, and
`atomicServer` has them in one step. -/
namespace CacheFs.Mutex.Hash

/-- `NHASH`. -/
def nhash : Nat := 101

/-- `hash_func`. -/
def hashFunc (f : FileName) : Fin nhash :=
  let hash : UInt32 := f.bytes.foldl (fun hash c => hash * 131 + c.toUInt32) 0
  ⟨hash.toNat % nhash, Nat.mod_lt _ (by decide)⟩

/-- `zz_mutex`. The `int` count is unbounded here: it never exceeds the number of
threads and holders. -/
structure ZzMutex where
  count : Int
  pMutex : Bool
  fileName : FileName
  pre : Option Nat
  next : Option Nat
  deriving DecidableEq

/-- `mutex_hash` and the heap its entries are in: `brk` is above every address that
the allocator has handed out. -/
structure HashTable where
  mutexHash : Fin nhash → Option Nat
  heap : Nat → Option ZzMutex
  brk : Nat

namespace HashTable

/-- A write to an entry through a pointer, undefined once the entry is freed. -/
def write (t : HashTable) (p : Nat) (g : ZzMutex → ZzMutex) : Option HashTable :=
  (t.heap p).map fun m => {t with heap := Function.update t.heap p (some (g m))}

/-- The same write, made only if the pointer is not null. -/
def writeIf (t : HashTable) (p : Option Nat) (g : ZzMutex → ZzMutex) : Option HashTable :=
  match p with
  | none => some t
  | some p => t.write p g

/-- The entry `malloc` has made at `p`, with its fields as they are set one by one. -/
def alloc (t : HashTable) (p : Nat) (m : ZzMutex) : HashTable :=
  {t with heap := Function.update t.heap p (some m), brk := max t.brk (p + 1)}

/-- `free_zz_mutex`. -/
def free (t : HashTable) (p : Nat) : HashTable := {t with heap := Function.update t.heap p none}

def setHead (t : HashTable) (b : Fin nhash) (p : Option Nat) : HashTable :=
  {t with mutexHash := Function.update t.mutexHash b p}

end HashTable

/-- `mutex_hash_init`. -/
def mutexHashInit : HashTable := ⟨fun _ => none, fun _ => none, 0⟩

/-- The `while` loop of `get_zz_mutex` from `my_mutex`: the entry it stops at, or null.
A read of a freed entry is undefined; a chain longer than the heap is a cycle. -/
def traverse (heap : Nat → Option ZzMutex) (f : FileName) : Nat → Option Nat → Option (Option Nat)
  | _, none => some none
  | 0, some _ => none
  | n + 1, some p => do
    let m ← heap p
    if m.fileName = f then some (some p) else traverse heap f n m.next

/-- What `get_zz_mutex` does with the entry it has allocated. -/
def insertZzMutex (t : HashTable) (nmtx : Nat) (f : FileName) : Option HashTable := do
  let hash := hashFunc f
  let t' := t.alloc nmtx ⟨1, false, f, none, t.mutexHash hash⟩
  let t' ← t'.writeIf (t.mutexHash hash) ({· with pre := some nmtx})
  some (t'.setHead hash (some nmtx))

/-- `get_zz_mutex` from the head it has read. `nmtx` is what `alloc_zz_mutex` returns if
it is called: null, or memory not in use. -/
def getZzMutex (t : HashTable) (head : Option Nat) (f : FileName) (opType : UInt8) (nmtx : Option Nat) :
    Option (Option Nat × HashTable) := do
  let myMutex ← traverse t.heap f t.brk head
  if acquires opType then
    match myMutex with
    | none =>
      match nmtx with
      | none => some (none, t)
      | some p =>
        if (t.heap p).isSome then none
        else do
          let t' ← insertZzMutex t p f
          some (some p, t')
    | some p => do
      let t' ← t.write p fun m => {m with count := m.count + 1}
      some (some p, t')
  else some (myMutex, t)

/-- What `put_zz_mutex` does with an entry that has no user left. -/
def unlinkZzMutex (t : HashTable) (p : Nat) (m : ZzMutex) : Option HashTable := do
  let t ← t.writeIf m.next ({· with pre := m.pre})
  let t ← match m.pre with
    | some q => t.write q ({· with next := m.next})
    | none => some (t.setHead (hashFunc m.fileName) m.next)
  some (t.free p)

/-- `put_zz_mutex`. -/
def putZzMutex (t : HashTable) (p : Nat) : Option HashTable := do
  let m ← t.heap p
  let t ← t.write p fun m => {m with count := m.count - 1}
  if m.count - 1 = 0 then unlinkZzMutex t p m else some t

/-- A server on the hash table, by what its lookups read early and the head they then
go on from. -/
def serverOf {L : Type} (peek : HashTable → FileName → Option L)
    (head : HashTable → FileName → Option L → Option Nat) : Server HashTable Nat L (Option Nat) where
  peek := peek
  get := fun t f opType seen nmtx => getZzMutex t (head t f seen) f opType nmtx
  mutex := fun t p => (t.heap p).map ZzMutex.pMutex
  setMutex := fun t p taken => (t.write p ({· with pMutex := taken})).getD t
  put := putZzMutex

/-- The server as it is: the head of the chain is read before `glob_mutex`. -/
def server : Server HashTable Nat (Option Nat) (Option Nat) :=
  serverOf (fun t f => some (t.mutexHash (hashFunc f)))
    fun t f seen => seen.getD (t.mutexHash (hashFunc f))

/-- The server whose lookup is one step. -/
def atomicServer : Server HashTable Nat Empty (Option Nat) :=
  serverOf (fun _ _ => none) fun t f _ => t.mutexHash (hashFunc f)

end CacheFs.Mutex.Hash
