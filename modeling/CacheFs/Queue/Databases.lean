import CacheFs.Library.Layers
import CacheFs.Library.Layout
import CacheFs.Queue.Store

/-! The databases that the store is kept in (`tt_func.c`).

Each type of value has a database of its own, at a port of its own, with the bytes of
the records by key. A function makes a remote database object, opens a connection,
makes one call and deletes the object; `iod_get` returns without deleting it when it
has nothing to return. What the functions do to the databases is what `serve` does to
the store, and they do it at once (`ttFunc_implements`). -/
namespace CacheFs.Queue
open Interaction

/-! ### Structures in memory, on x86-64 -/

/-- `IO_Type`: `READ`, `WRITE` and `REMOVE`. -/
def IoType.code : IoType → Nat
  | .read => 0
  | .write => 1
  | .remove => 2

def IoType.ofCode : Nat → Option IoType
  | 0 => some .read
  | 1 => some .write
  | 2 => some .remove
  | _ => none

def ioTypeLayout : Layout IoType := (Layout.word 4).iso IoType.code IoType.ofCode fun t => by cases t <;> rfl

def u64Layout : Layout UInt64 :=
  (Layout.word 8).iso UInt64.toNat (fun v => some (.ofNat v)) fun _ => congrArg some UInt64.ofNat_toNat

def timeLayout : Layout Int64 := u64Layout.iso Int64.toUInt64 (fun v => some v.toInt64) fun _ => rfl

/-- An `int` that is only ever set below a bound. -/
def intLayout (n : Nat) : Layout (Fin n) :=
  (Layout.word 4).iso Fin.val (fun v => if h : v < n then some ⟨v, h⟩ else none) fun v => by simp

def keyLayout : Layout Key := .chars ioNodeKeyLen

/-- `INET_ADDRSTRLEN`, as `glob.h` has it. -/
def hostIpLen : Nat := 20

/-- `IO_Node`. -/
def ioNodeLayout : Layout IoNode :=
  (ioTypeLayout.pair ((Layout.pad 4).pair (u64Layout.pair (timeLayout.pair (keyLayout.pair keyLayout))))).iso
    (fun n => (n.ioType, (), n.offset, n.ioTime, n.ionPre, n.ionNext))
    (fun (ioType, _, offset, ioTime, ionPre, ionNext) => some ⟨ioType, offset, ioTime, ionPre, ionNext⟩) fun _ => rfl

/-- `IO_Q_Node`. -/
def ioQNodeLayout : Layout IoQNode :=
  (ioTypeLayout.pair ((Layout.pad 4).pair timeLayout)).iso (fun n => (n.ioType, (), n.arriveTime))
    (fun (ioType, _, arriveTime) => some ⟨ioType, arriveTime⟩) fun _ => rfl

/-- `IO_Q`. -/
def ioQLayout : Layout IoQ :=
  ((intLayout ioQLen).pair ((intLayout ioQLen).pair (ioQNodeLayout.array ioQLen))).iso
    (fun q => (q.head, q.tail, q.ioQNode)) (fun (head, tail, ioQNode) => some ⟨head, tail, ioQNode⟩) fun _ => rfl

/-- `REPLICA`, with its `IS_DTC_FILE` and its `starting_directory` blank. -/
def replicaLayout : Layout Replica :=
  ((Layout.pad 1).pair ((Layout.chars hostIpLen).pair ((Layout.pad 260).pair keyLayout))).iso
    (fun r => ((), r.hostIp, (), r.ioNodePtr)) (fun (_, hostIp, _, ioNodePtr) => some ⟨hostIp, ioNodePtr⟩) fun _ => rfl

/-- `Meta_Data`, its `struct stat` blank but for `st_atime`. -/
def metaDataLayout : Layout MetaData :=
  ((Layout.pad 72).pair (timeLayout.pair ((Layout.pad 64).pair ((replicaLayout.array maxReplicas).pair
    ((Layout.pad 1).pair ((intLayout (maxReplicas + 1)).pair ((Layout.pad 4).pair (ioQLayout.pair
      (keyLayout.pair keyLayout))))))))).iso
    (fun m => ((), m.stAtime, (), m.myRep, (), m.replicaNum, (), m.ioq, m.ioNodeQHead, m.ioNodeQTail))
    (fun (_, stAtime, _, myRep, _, replicaNum, _, ioq, head, tail) => some ⟨stAtime, myRep, replicaNum, ioq, head, tail⟩)
    fun _ => rfl

example : ioNodeLayout.size = 544 ∧ metaDataLayout.size = 3104 := by decide

/-! ### What there is room for -/

/-- A string that fits the arrays for keys. -/
def KeyFits (k : Key) : Prop := k.length < ioNodeKeyLen ∧ ∀ c ∈ k, Layout.Plain c

def IoNode.Fits (n : IoNode) : Prop := KeyFits n.ionPre ∧ KeyFits n.ionNext

def Replica.Fits (r : Replica) : Prop :=
  (r.hostIp.length < hostIpLen ∧ ∀ c ∈ r.hostIp, Layout.Plain c) ∧ KeyFits r.ioNodePtr

structure MetaData.Fits (m : MetaData) : Prop where
  myRep : ∀ i, (m.myRep i).Fits
  head : KeyFits m.ioNodeQHead
  tail : KeyFits m.ioNodeQTail

theorem ioTypeLayout_fits (t : IoType) : ioTypeLayout.Fits t := by
  show t.code < 256 ^ 4
  cases t <;> decide

theorem timeLayout_fits (t : Int64) : timeLayout.Fits t := t.toUInt64.toNat_lt

theorem intLayout_fits {n : Nat} (hn : n ≤ 256 ^ 4) (i : Fin n) : (intLayout n).Fits i :=
  Nat.lt_of_lt_of_le i.isLt hn

theorem ioNodeLayout_fits {n : IoNode} (h : n.Fits) : ioNodeLayout.Fits n :=
  ⟨ioTypeLayout_fits _, trivial, n.offset.toNat_lt, timeLayout_fits _, h.1, h.2⟩

theorem ioQLayout_fits (q : IoQ) : ioQLayout.Fits q :=
  ⟨intLayout_fits (by decide) _, intLayout_fits (by decide) _,
    Layout.array_fits.mpr fun _ => ⟨ioTypeLayout_fits _, trivial, timeLayout_fits _⟩⟩

theorem metaDataLayout_fits {m : MetaData} (h : m.Fits) : metaDataLayout.Fits m :=
  ⟨trivial, timeLayout_fits _, trivial, Layout.array_fits.mpr fun i => ⟨trivial, (h.myRep i).1, trivial, (h.myRep i).2⟩,
    trivial, intLayout_fits (by decide) _, trivial, ioQLayout_fits _, h.head, h.tail⟩

/-! ### Remote databases -/

/-- The calls of Tokyo Tyrant; a connection is known by its port. -/
inductive RdbCall where
  | new
  | open (port : UInt32)
  | get (port : UInt32) (key : Key)
  | out2 (port : UInt32) (key : Key)
  | put (port : UInt32) (key : Key) (value : List UInt8)
  | del

@[reducible] def RdbAnswer : RdbCall → Type
  | .new | .del => Unit
  | .get _ _ => Option (List UInt8)
  | .open _ | .out2 _ _ | .put _ _ _ => Bool

@[reducible] def tcrdb : Interface := ⟨RdbCall, RdbAnswer⟩

def tcrdbnew : Prog tcrdb Unit := Prog.ask (I := tcrdb) .new
def tcrdbopen (port : UInt32) : Prog tcrdb Bool := Prog.ask (I := tcrdb) (.open port)
def tcrdbget (port : UInt32) (key : Key) : Prog tcrdb (Option (List UInt8)) := Prog.ask (I := tcrdb) (.get port key)
def tcrdbout2 (port : UInt32) (key : Key) : Prog tcrdb Bool := Prog.ask (I := tcrdb) (.out2 port key)
def tcrdbput (port : UInt32) (key : Key) (value : List UInt8) : Prog tcrdb Bool :=
  Prog.ask (I := tcrdb) (.put port key value)
def tcrdbdel : Prog tcrdb Unit := Prog.ask (I := tcrdb) .del

structure Databases where
  /-- By port and key. -/
  db : UInt32 → Key → Option (List UInt8)
  /-- How many remote database objects there are. -/
  rdbs : Nat

def Databases.set (t : Databases) (port : UInt32) (key : Key) (value : Option (List UInt8)) : Databases :=
  {t with db := Function.update t.db port (Function.update (t.db port) key value)}

section Set
variable (t : Databases) (port : UInt32) (key : Key) (value : Option (List UInt8))

@[simp] theorem Databases.set_db_self : (t.set port key value).db port = Function.update (t.db port) key value :=
  Function.update_self ..

theorem Databases.set_db_ne {q : UInt32} (h : q ≠ port) : (t.set port key value).db q = t.db q :=
  Function.update_of_ne h ..

end Set

/-- A call to the databases, which fails when the environment says so. -/
def serveRdb : Handler tcrdb Databases Bool
  | .new, _, t => ((), {t with rdbs := t.rdbs + 1})
  | .open _, fails, t => (!fails, t)
  | .get port key, fails, t => (if fails then none else t.db port key, t)
  | .out2 port key, fails, t =>
    if fails || (t.db port key).isNone then (false, t) else (true, t.set port key none)
  | .put port key value, fails, t => if fails then (false, t) else (true, t.set port key (some value))
  | .del, _, t => ((), {t with rdbs := t.rdbs - 1})

/-! ### The functions -/

/-- `value_t`. -/
inductive ValueT where
  | metaData
  | ioNode
  | fileNode
  | swapNode
  | ioData
  deriving DecidableEq

/-- `MD_PORT`. -/
def mdPort : UInt32 := 11211
/-- `ION_PORT`. -/
def ionPort : UInt32 := 11212
/-- `FN_PORT`. -/
def fnPort : UInt32 := 11213
/-- `SWPN_PORT`. -/
def swpnPort : UInt32 := 11214
/-- `IO_DATA_PORT`. -/
def ioDataPort : UInt32 := 11215

def getDbPort : ValueT → UInt32
  | .metaData => mdPort
  | .ioNode => ionPort
  | .fileNode => fnPort
  | .swapNode => swpnPort
  | .ioData => ioDataPort

/-- `memcpy` of all of `src`. -/
def memcpy (dest src : List UInt8) : List UInt8 := src ++ dest.drop src.length

/-- `tt_get`: what it returns, and `zv` after it. -/
def ttGet (key : Key) (zv : List UInt8) (vt : ValueT) : Prog tcrdb (UInt32 × List UInt8) := do
  tcrdbnew
  if ← tcrdbopen (getDbPort vt) then
    match ← tcrdbget (getDbPort vt) key with
    | none =>
      tcrdbdel
      return (2, zv)
    | some value =>
      tcrdbdel
      return (0, memcpy zv value)
  else
    tcrdbdel
    return (1, zv)

/-- `tt_out`. -/
def ttOut (key : Key) (vt : ValueT) : Prog tcrdb UInt32 := do
  tcrdbnew
  if ← tcrdbopen (getDbPort vt) then
    if ← tcrdbout2 (getDbPort vt) key then
      tcrdbdel
      return 0
    else
      tcrdbdel
      return 2
  else
    tcrdbdel
    return 1

/-- `tt_put`. -/
def ttPut (key : Key) (zv : List UInt8) (nv : Nat) (vt : ValueT) : Prog tcrdb UInt32 := do
  tcrdbnew
  if ← tcrdbopen (getDbPort vt) then
    if ← tcrdbput (getDbPort vt) key (zv.take nv) then
      tcrdbdel
      return 0
    else
      tcrdbdel
      return 2
  else
    tcrdbdel
    return 1

/-- `iod_get`. -/
def iodGetFunc (key : Key) : Prog tcrdb (Option (List UInt8)) := do
  tcrdbnew
  if ← tcrdbopen (getDbPort .ioData) then
    match ← tcrdbget (getDbPort .ioData) key with
    | none => return none
    | some value =>
      tcrdbdel
      return some value
  else return none

/-- What is in the structures of a caller before they are filled, and how those it puts lie
in memory. -/
structure Buffers where
  md : List UInt8
  ion : List UInt8
  md_size : md.length = metaDataLayout.size
  ion_size : ion.length = ioNodeLayout.size
  putMd : metaDataLayout.Image
  putIon : ioNodeLayout.Image

def Buffers.clean : Buffers where
  md := List.replicate metaDataLayout.size 0
  ion := List.replicate ioNodeLayout.size 0
  md_size := List.length_replicate
  ion_size := List.length_replicate
  putMd := metaDataLayout.clean
  putIon := ioNodeLayout.clean

/-- The functions of `tt_func.c` that `io_queue.c` calls, with the structures of their callers. -/
def ttFunc (buffers : Buffers) : (c : Call) → Prog tcrdb (Answer c)
  | .mdGet f => do
    let (rt, md) ← ttGet f buffers.md .metaData
    return if rt = 0 then metaDataLayout.value md else none
  | .mdPut f m => do
    let rt ← ttPut f (buffers.putMd.bytes m) metaDataLayout.size .metaData
    return decide (rt = 0)
  | .mdOut f => do
    let rt ← ttOut f .metaData
    return decide (rt = 0)
  | .ionGet k => do
    let (rt, ion) ← ttGet k buffers.ion .ioNode
    return if rt = 0 then ioNodeLayout.value ion else none
  | .ionPut k n => do
    let rt ← ttPut k (buffers.putIon.bytes n) ioNodeLayout.size .ioNode
    return decide (rt = 0)
  | .iodGet k => iodGetFunc k
  | .iodPut k value => do
    let rt ← ttPut k value value.length .ioData
    return decide (rt = 0)

/-! ### What the functions do -/

section Functions
variable {key : Key} {zv : List UInt8} {vt : ValueT} {port : UInt32} {t t' : Databases} {R : Type} {r : R}
open Prog

theorem ends_tcrdbnew {k : Unit → Prog tcrdb R} :
    Ends serveRdb (tcrdbnew >>= k) t r t' ↔ Ends serveRdb (k ()) {t with rdbs := t.rdbs + 1} r t' := by
  rw [tcrdbnew, ask_bind, ends_call, Bool.exists_bool]
  exact or_self_iff

theorem ends_tcrdbdel {k : Unit → Prog tcrdb R} :
    Ends serveRdb (tcrdbdel >>= k) t r t' ↔ Ends serveRdb (k ()) {t with rdbs := t.rdbs - 1} r t' := by
  rw [tcrdbdel, ask_bind, ends_call, Bool.exists_bool]
  exact or_self_iff

theorem ends_tcrdbopen {k : Bool → Prog tcrdb R} :
    Ends serveRdb (tcrdbopen port >>= k) t r t' ↔ Ends serveRdb (k false) t r t' ∨ Ends serveRdb (k true) t r t' := by
  rw [tcrdbopen, ask_bind, ends_call, Bool.exists_bool]
  exact or_comm

theorem ends_tcrdbget {k : Option (List UInt8) → Prog tcrdb R} :
    Ends serveRdb (tcrdbget port key >>= k) t r t' ↔
      Ends serveRdb (k none) t r t' ∨ Ends serveRdb (k (t.db port key)) t r t' := by
  rw [tcrdbget, ask_bind, ends_call, Bool.exists_bool]
  exact or_comm

theorem ends_tcrdbput {value : List UInt8} {k : Bool → Prog tcrdb R} :
    Ends serveRdb (tcrdbput port key value >>= k) t r t' ↔
      Ends serveRdb (k false) t r t' ∨ Ends serveRdb (k true) (t.set port key (some value)) r t' := by
  rw [tcrdbput, ask_bind, ends_call, Bool.exists_bool]
  exact or_comm

theorem ends_tcrdbout2 {k : Bool → Prog tcrdb R} : Ends serveRdb (tcrdbout2 port key >>= k) t r t' ↔
    Ends serveRdb (k false) t r t' ∨
      (t.db port key).isSome = true ∧ Ends serveRdb (k true) (t.set port key none) r t' := by
  rw [tcrdbout2, ask_bind, ends_call, Bool.exists_bool]
  cases hdb : t.db port key <;> simp [serveRdb, hdb, or_comm]

/-- A `tt_get` changes nothing; its object is deleted. -/
theorem ttGet_ends {a : UInt32 × List UInt8} : Ends serveRdb (ttGet key zv vt) t a t' ↔
    t' = t ∧ (a = (1, zv) ∨ a = (2, zv) ∨ ∃ value, t.db (getDbPort vt) key = some value ∧ a = (0, memcpy zv value)) := by
  obtain ⟨db, rdbs⟩ := t
  rw [ttGet, ends_tcrdbnew, ends_tcrdbopen]
  simp only [Bool.false_eq_true, if_false, if_true, ends_tcrdbget, ends_tcrdbdel, pure_eq, ends_ret, Nat.add_sub_cancel]
  cases hdb : db (getDbPort vt) key <;> simp only [ends_tcrdbdel, ends_ret, Nat.add_sub_cancel] <;> grind

theorem ttPut_ends {nv : Nat} {a : UInt32} : Ends serveRdb (ttPut key zv nv vt) t a t' ↔
    (a = 1 ∨ a = 2) ∧ t' = t ∨ a = 0 ∧ t' = t.set (getDbPort vt) key (some (zv.take nv)) := by
  obtain ⟨db, rdbs⟩ := t
  rw [ttPut, ends_tcrdbnew, ends_tcrdbopen]
  simp only [Bool.false_eq_true, if_false, if_true, ends_tcrdbput, ends_tcrdbdel, pure_eq, ends_ret, Databases.set,
    Nat.add_sub_cancel]
  grind

theorem ttOut_ends {a : UInt32} : Ends serveRdb (ttOut key vt) t a t' ↔
    (a = 1 ∨ a = 2) ∧ t' = t ∨
      a = 0 ∧ (t.db (getDbPort vt) key).isSome = true ∧ t' = t.set (getDbPort vt) key none := by
  obtain ⟨db, rdbs⟩ := t
  rw [ttOut, ends_tcrdbnew, ends_tcrdbopen]
  simp only [Bool.false_eq_true, if_false, if_true, ends_tcrdbout2, ends_tcrdbdel, pure_eq, ends_ret, Databases.set,
    Nat.add_sub_cancel]
  grind

/-- An `iod_get` that returns nothing leaves its object. -/
theorem iodGetFunc_ends {a : Option (List UInt8)} : Ends serveRdb (iodGetFunc key) t a t' ↔
    a = none ∧ t' = {t with rdbs := t.rdbs + 1} ∨
      ∃ value, t.db ioDataPort key = some value ∧ a = some value ∧ t' = t := by
  obtain ⟨db, rdbs⟩ := t
  rw [iodGetFunc, ends_tcrdbnew, ends_tcrdbopen]
  simp only [Bool.false_eq_true, if_false, if_true, ends_tcrdbget, getDbPort, pure_eq, ends_ret]
  cases hdb : db ioDataPort key <;> simp only [ends_tcrdbdel, ends_ret, Nat.add_sub_cancel] <;> grind

end Functions

/-! ### What the databases hold -/

/-- The record put fits its structure. -/
def CallFits : Call → Prop
  | .mdPut _ m => m.Fits
  | .ionPut _ n => n.Fits
  | .mdGet _ | .mdOut _ | .ionGet _ | .iodGet _ | .iodPut _ _ => True

/-- The databases have the records of the store, each type in its own, and these in the
others. -/
structure Held (others : UInt32 → Key → Option (List UInt8)) (s : Store) (t : Databases) : Prop where
  md : ∀ k, Option.Rel metaDataLayout.Read (s.md k) (t.db mdPort k)
  ion : ∀ k, Option.Rel ioNodeLayout.Read (s.ion k) (t.db ionPort k)
  iod : t.db ioDataPort = s.iod
  others : ∀ port, port ≠ mdPort → port ≠ ionPort → port ≠ ioDataPort → t.db port = others port

section Held
variable {others : UInt32 → Key → Option (List UInt8)} {s : Store} {t : Databases} {buffers : Buffers}
open Prog

theorem rel_update {α β : Type} {r : α → β → Prop} {g : Key → Option α} {d : Key → Option β} {o : Option α}
    {b : Option β} (h : ∀ k, Option.Rel r (g k) (d k)) (k : Key) (ho : Option.Rel r o b) (j : Key) :
    Option.Rel r (Function.update g k o j) (Function.update d k b j) := by
  by_cases hj : j = k
  · subst hj
    rwa [Function.update_self, Function.update_self]
  · rw [Function.update_of_ne hj, Function.update_of_ne hj]
    exact h j

theorem Held.setMd (h : Held others s t) (k : Key) {o : Option MetaData} {b : Option (List UInt8)}
    (ho : Option.Rel metaDataLayout.Read o b) :
    Held others {s with md := Function.update s.md k o} (t.set mdPort k b) where
  md := by
    rw [Databases.set_db_self]
    exact rel_update h.md k ho
  ion := by
    rw [Databases.set_db_ne _ _ _ _ (by decide)]
    exact h.ion
  iod := by rw [Databases.set_db_ne _ _ _ _ (by decide), h.iod]
  others := fun port hmd hion hiod => by rw [Databases.set_db_ne _ _ _ _ hmd, h.others port hmd hion hiod]

theorem Held.setIon (h : Held others s t) (k : Key) {o : Option IoNode} {b : Option (List UInt8)}
    (ho : Option.Rel ioNodeLayout.Read o b) :
    Held others {s with ion := Function.update s.ion k o} (t.set ionPort k b) where
  md := by
    rw [Databases.set_db_ne _ _ _ _ (by decide)]
    exact h.md
  ion := by
    rw [Databases.set_db_self]
    exact rel_update h.ion k ho
  iod := by rw [Databases.set_db_ne _ _ _ _ (by decide), h.iod]
  others := fun port hmd hion hiod => by rw [Databases.set_db_ne _ _ _ _ hion, h.others port hmd hion hiod]

theorem Held.setIod (h : Held others s t) (k : Key) (value : List UInt8) :
    Held others {s with iod := Function.update s.iod k (some value)} (t.set ioDataPort k (some value)) where
  md := by
    rw [Databases.set_db_ne _ _ _ _ (by decide)]
    exact h.md
  ion := by
    rw [Databases.set_db_ne _ _ _ _ (by decide)]
    exact h.ion
  iod := by rw [Databases.set_db_self, h.iod]
  others := fun port hmd hion hiod => by rw [Databases.set_db_ne _ _ _ _ hiod, h.others port hmd hion hiod]

/-- What is got in the place of a record is the record. -/
theorem value_memcpy {α : Type} {L : Layout α} {zv value : List UInt8} {o : Option α} (hzv : zv.length = L.size)
    (h : Option.Rel L.Read o (some value)) : L.value (memcpy zv value) = o := by
  cases h with
  | some hread => rw [memcpy, List.drop_eq_nil_of_le (by rw [hzv, hread.1]), List.append_nil, hread.2]

/-- What a `tt_get` for a record may give: nothing, or what there is. -/
theorem get_ends {α : Type} {L : Layout α} {vt : ValueT} {k : Key} {zv : List UInt8} {o a : Option α} {t' : Databases}
    (hzv : zv.length = L.size) (hdb : Option.Rel L.Read o (t.db (getDbPort vt) k)) :
    Ends serveRdb (ttGet k zv vt >>= fun x => .ret (if x.1 = 0 then L.value x.2 else none)) t a t' ↔
      t' = t ∧ (a = none ∨ a = o) := by
  have hvalue (value : List UInt8) (h : t.db (getDbPort vt) k = some value) : L.value (memcpy zv value) = o :=
    value_memcpy hzv (h ▸ hdb)
  simp only [ends_bind, ttGet_ends, ends_ret]
  constructor
  · rintro ⟨x, t₁, ⟨rfl, hx⟩, rfl, rfl⟩
    refine ⟨rfl, ?_⟩
    obtain rfl | rfl | ⟨value, hdb, rfl⟩ := hx
    · exact .inl rfl
    · exact .inl rfl
    · exact .inr (hvalue value hdb)
  · rintro ⟨rfl, ha⟩
    obtain rfl | rfl := ha
    · exact ⟨(1, zv), t', ⟨rfl, .inl rfl⟩, rfl, rfl⟩
    · cases hthere : t'.db (getDbPort vt) k with
      | none =>
        rw [hthere] at hdb
        cases hdb
        exact ⟨(2, zv), t', ⟨rfl, .inr (.inl rfl)⟩, rfl, rfl⟩
      | some value => exact ⟨_, t', ⟨rfl, .inr (.inr ⟨value, rfl, rfl⟩)⟩, (hvalue value hthere).symm, rfl⟩

/-- What a `tt_put` may do: nothing, or all. -/
theorem put_ends {k : Key} {value : List UInt8} {nv : Nat} (hnv : value.length = nv) {vt : ValueT} {a : Bool}
    {t' : Databases} : Ends serveRdb (ttPut k value nv vt >>= fun rt => .ret (decide (rt = 0))) t a t' ↔
      a = false ∧ t' = t ∨ a = true ∧ t' = t.set (getDbPort vt) k (some value) := by
  simp only [ends_bind, ttPut_ends, ends_ret, ← hnv, List.take_length]
  constructor
  · rintro ⟨rt, t₁, ⟨hrt, rfl⟩ | ⟨rfl, rfl⟩, rfl, rfl⟩
    · obtain rfl | rfl := hrt
      · exact .inl ⟨rfl, rfl⟩
      · exact .inl ⟨rfl, rfl⟩
    · exact .inr ⟨rfl, rfl⟩
  · rintro (⟨rfl, rfl⟩ | ⟨rfl, rfl⟩)
    · exact ⟨1, t', .inl ⟨.inl rfl, rfl⟩, rfl, rfl⟩
    · exact ⟨0, _, .inr ⟨rfl, rfl⟩, rfl, rfl⟩

theorem Held.get_md (h : Held others s t) {f : Key} {a : Option MetaData} {t' : Databases} :
    Ends serveRdb (ttFunc buffers (.mdGet f)) t a t' ↔ t' = t ∧ (a = none ∨ a = s.md f) :=
  get_ends buffers.md_size (h.md f)

theorem Held.get_ion (h : Held others s t) {k : Key} {a : Option IoNode} {t' : Databases} :
    Ends serveRdb (ttFunc buffers (.ionGet k)) t a t' ↔ t' = t ∧ (a = none ∨ a = s.ion k) :=
  get_ends buffers.ion_size (h.ion k)

theorem Held.putMd (h : Held others s t) (f : Key) {m : MetaData} (hm : m.Fits) :
    Held others {s with md := Function.update s.md f (some m)} (t.set mdPort f (some (buffers.putMd.bytes m))) :=
  h.setMd f (.some (buffers.putMd.read m (metaDataLayout_fits hm)))

theorem Held.putIon (h : Held others s t) (k : Key) {node : IoNode} (hnode : node.Fits) :
    Held others {s with ion := Function.update s.ion k (some node)}
      (t.set ionPort k (some (buffers.putIon.bytes node))) :=
  h.setIon k (.some (buffers.putIon.read node (ioNodeLayout_fits hnode)))

theorem Held.isSome_md (h : Held others s t) (f : Key) : (t.db mdPort f).isSome = (s.md f).isSome := by
  have hrel := h.md f
  cases hmd : s.md f <;> cases hdb : t.db mdPort f <;> rw [hmd, hdb] at hrel <;> first | rfl | cases hrel

theorem Held.objects (h : Held others s t) (n : Nat) : Held others s {t with rdbs := n} :=
  ⟨h.md, h.ion, h.iod, h.others⟩

theorem done_del {A : Type} (a : A) : (tcrdbdel >>= fun _ => .ret a).Done serveRdb (Held others) a :=
  fun _ _ _ hheld => ⟨hheld.objects _, rfl⟩

/-- A `tt_get` does what its call does when it gets, and fails when the connection is not opened. -/
theorem ttGet_undone {c : Call} {k : Key} {zv : List UInt8} {vt : ValueT} (answer : UInt32 × List UInt8 → Answer c)
    (hfails : ∀ rt s, rt ≠ 0 → ∃ e, serve c e s = (answer (rt, zv), s))
    (hgets : ∀ s t value, Held others s t → t.db (getDbPort vt) k = some value →
      ∃ e, serve c e s = (answer (0, memcpy zv value), s)) :
    (ttGet k zv vt >>= fun x => .ret (answer x)).Undone serve serveRdb (Held others) c := by
  have hfail (rt : UInt32) (hrt : rt ≠ 0) {s : Store} {t : Databases} (hheld : Held others s t) :
      ∃ e, Held others (serve c e s).2 t ∧
        (tcrdbdel >>= fun _ => .ret (answer (rt, zv))).Done serveRdb (Held others) (serve c e s).1 := by
    obtain ⟨e, he⟩ := hfails rt s hrt
    exact ⟨e, by rwa [he], by rw [he]; exact done_del _⟩
  refine fun s t e hheld => .inl ⟨hheld.objects _, fun s t e hheld => ?_⟩
  cases e with
  | true => exact .inr (hfail 1 (by decide) hheld)
  | false =>
    refine .inl ⟨hheld, fun s t e hheld => .inr ?_⟩
    cases e with
    | true => exact hfail 2 (by decide) hheld
    | false =>
      show ∃ e, Held others (serve c e s).2 t ∧ Prog.Done serveRdb (Held others) (serve c e s).1
        ((match t.db (getDbPort vt) k with | none => _ | some value => _) >>= _)
      cases hdb : t.db (getDbPort vt) k with
      | none => exact hfail 2 (by decide) hheld
      | some value =>
        obtain ⟨e, he⟩ := hgets s t value hheld hdb
        exact ⟨e, by rwa [he], by rw [he]; exact done_del _⟩

/-- And a `tt_put` when it puts. -/
theorem ttPut_undone {c : Call} {k : Key} {value : List UInt8} {nv : Nat} (hnv : value.length = nv) {vt : ValueT}
    (answer : UInt32 → Answer c) (hfails : ∀ rt s, rt ≠ 0 → ∃ e, serve c e s = (answer rt, s))
    (hputs : ∀ s t, Held others s t → ∃ e, (serve c e s).1 = answer 0 ∧
      Held others (serve c e s).2 (t.set (getDbPort vt) k (some value))) :
    (ttPut k value nv vt >>= fun rt => .ret (answer rt)).Undone serve serveRdb (Held others) c := by
  have hfail (rt : UInt32) (hrt : rt ≠ 0) {s : Store} {t : Databases} (hheld : Held others s t) :
      ∃ e, Held others (serve c e s).2 t ∧
        (tcrdbdel >>= fun _ => .ret (answer rt)).Done serveRdb (Held others) (serve c e s).1 := by
    obtain ⟨e, he⟩ := hfails rt s hrt
    exact ⟨e, by rwa [he], by rw [he]; exact done_del _⟩
  refine fun s t e hheld => .inl ⟨hheld.objects _, fun s t e hheld => ?_⟩
  cases e with
  | true => exact .inr (hfail 1 (by decide) hheld)
  | false =>
    refine .inl ⟨hheld, fun s t e hheld => .inr ?_⟩
    cases e with
    | true => exact hfail 2 (by decide) hheld
    | false =>
      obtain ⟨e, hanswer, hheld'⟩ := hputs s t hheld
      refine ⟨e, ?_, by rw [hanswer]; exact done_del _⟩
      show Held others _ (t.set (getDbPort vt) k (some (value.take nv)))
      rwa [← hnv, List.take_length]

theorem ttOut_undone (f : Key) :
    (ttOut f .metaData >>= fun rt => .ret (decide (rt = 0))).Undone serve serveRdb (Held others) (.mdOut f) := by
  refine fun s t e hheld => .inl ⟨hheld.objects _, fun s t e hheld => ?_⟩
  cases e with
  | true => exact .inr ⟨true, hheld, done_del false⟩
  | false =>
    refine .inl ⟨hheld, fun s t e hheld => .inr ?_⟩
    cases hnot : e || (t.db mdPort f).isNone with
    | true =>
      have hserve : serveRdb (.out2 (getDbPort .metaData) f) e t = (false, t) := by simp [serveRdb, getDbPort, hnot]
      rw [hserve]
      exact ⟨true, hheld, done_del false⟩
    | false =>
      obtain ⟨rfl, hthere⟩ := Bool.or_eq_false_iff.mp hnot
      have hout : serveRdb (.out2 (getDbPort .metaData) f) false t = (true, t.set mdPort f none) := by
        simp [serveRdb, getDbPort, hthere]
      have hserve : serve (.mdOut f) false s = (true, {s with md := Function.update s.md f none}) := by
        have hmd : (s.md f).isNone = false := by rw [← Option.not_isSome, ← hheld.isSome_md, Option.not_isSome, hthere]
        simp [serve, hmd]
      rw [hout]
      refine ⟨false, ?_, ?_⟩
      · rw [hserve]
        exact hheld.setMd f .none
      · rw [hserve]
        exact done_del true

theorem iodGetFunc_undone (k : Key) : (iodGetFunc k).Undone serve serveRdb (Held others) (.iodGet k) := by
  refine fun s t e hheld => .inl ⟨hheld.objects _, fun s t e hheld => ?_⟩
  cases e with
  | true => exact .inr ⟨true, hheld, rfl⟩
  | false =>
    refine .inl ⟨hheld, fun s t e hheld => .inr ?_⟩
    cases e with
    | true => exact ⟨true, hheld, rfl⟩
    | false =>
      show ∃ e, Held others (serve _ e s).2 t ∧ Prog.Done serveRdb (Held others) (serve _ e s).1
        (match t.db ioDataPort k with | none => _ | some value => _)
      have hiod : s.iod k = t.db ioDataPort k := congrFun hheld.iod.symm k
      cases hdb : t.db ioDataPort k with
      | none => exact ⟨true, hheld, rfl⟩
      | some value =>
        have hserve : (serve (.iodGet k) false s).1 = some value := hiod.trans hdb
        refine ⟨false, hheld, ?_⟩
        rw [hserve]
        exact done_del (some value)

/-- The functions do to the databases what the calls do to the store, if the records that are
put fit their structures. -/
theorem ttFunc_implements (others : UInt32 → Key → Option (List UInt8)) (buffers : Buffers) :
    Implements (ttFunc buffers) serve serveRdb (Held others) CallFits where
  undone := by
    intro c hc
    cases c with
    | mdGet f =>
      refine ttGet_undone (c := .mdGet f) (fun x => if x.1 = 0 then metaDataLayout.value x.2 else (none : Option MetaData))
        (fun rt s hrt => ⟨true, by simp [serve, hrt]⟩) fun s t value hheld hdb => ⟨false, ?_⟩
      have hvalue := value_memcpy buffers.md_size (hdb ▸ hheld.md f)
      simp [serve, hvalue]
    | ionGet k =>
      refine ttGet_undone (c := .ionGet k) (fun x => if x.1 = 0 then ioNodeLayout.value x.2 else (none : Option IoNode))
        (fun rt s hrt => ⟨true, by simp [serve, hrt]⟩) fun s t value hheld hdb => ⟨false, ?_⟩
      have hvalue := value_memcpy buffers.ion_size (hdb ▸ hheld.ion k)
      simp [serve, hvalue]
    | iodGet k => exact iodGetFunc_undone k
    | mdPut f m =>
      exact ttPut_undone (c := .mdPut f m) (buffers.putMd.read m (metaDataLayout_fits hc)).1 (fun rt => decide (rt = 0))
        (fun rt s hrt => ⟨true, by simp [serve, hrt]⟩) fun s t hheld => ⟨false, rfl, hheld.putMd f hc⟩
    | ionPut k node =>
      exact ttPut_undone (c := .ionPut k node) (buffers.putIon.read node (ioNodeLayout_fits hc)).1
        (fun rt => decide (rt = 0)) (fun rt s hrt => ⟨true, by simp [serve, hrt]⟩)
        fun s t hheld => ⟨false, rfl, hheld.putIon k hc⟩
    | iodPut k value =>
      exact ttPut_undone (c := .iodPut k value) rfl (fun rt => decide (rt = 0))
        (fun rt s hrt => ⟨true, by simp [serve, hrt]⟩) fun s t hheld => ⟨false, rfl, hheld.setIod k value⟩
    | mdOut f => exact ttOut_undone f
  complete := by
    intro c s t hc hheld fails
    cases c with
    | mdGet f =>
      refine ⟨t, hheld.get_md.mpr ⟨rfl, ?_⟩, hheld⟩
      cases fails
      · exact .inr rfl
      · exact .inl rfl
    | ionGet k =>
      refine ⟨t, hheld.get_ion.mpr ⟨rfl, ?_⟩, hheld⟩
      cases fails
      · exact .inr rfl
      · exact .inl rfl
    | iodGet k =>
      have hleft : Held others s {t with rdbs := t.rdbs + 1} := ⟨hheld.md, hheld.ion, hheld.iod, hheld.others⟩
      cases fails with
      | true => exact ⟨_, iodGetFunc_ends.mpr (.inl ⟨rfl, rfl⟩), hleft⟩
      | false =>
        cases hiod : s.iod k with
        | none => exact ⟨_, iodGetFunc_ends.mpr (.inl ⟨hiod, rfl⟩), hleft⟩
        | some value =>
          exact ⟨t, iodGetFunc_ends.mpr (.inr ⟨value, (congrFun hheld.iod k).trans hiod, hiod, rfl⟩), hheld⟩
    | mdPut f m =>
      have hsize := (buffers.putMd.read m (metaDataLayout_fits hc)).1
      cases fails with
      | true => exact ⟨t, (put_ends hsize).mpr (.inl ⟨rfl, rfl⟩), hheld⟩
      | false => exact ⟨_, (put_ends hsize).mpr (.inr ⟨rfl, rfl⟩), hheld.putMd f hc⟩
    | ionPut k node =>
      have hsize := (buffers.putIon.read node (ioNodeLayout_fits hc)).1
      cases fails with
      | true => exact ⟨t, (put_ends hsize).mpr (.inl ⟨rfl, rfl⟩), hheld⟩
      | false => exact ⟨_, (put_ends hsize).mpr (.inr ⟨rfl, rfl⟩), hheld.putIon k hc⟩
    | iodPut k value =>
      cases fails with
      | true => exact ⟨t, (put_ends rfl).mpr (.inl ⟨rfl, rfl⟩), hheld⟩
      | false => exact ⟨_, (put_ends rfl).mpr (.inr ⟨rfl, rfl⟩), hheld.setIod k value⟩
    | mdOut f =>
      cases hnot : fails || (s.md f).isNone with
      | true =>
        have hserve : serve (.mdOut f) fails s = (false, s) := by simp [serve, hnot]
        rw [hserve]
        exact ⟨t, ends_bind.mpr ⟨2, t, ttOut_ends.mpr (.inl ⟨.inr rfl, rfl⟩), ends_ret.mpr ⟨rfl, rfl⟩⟩, hheld⟩
      | false =>
        have hserve : serve (.mdOut f) fails s = (true, {s with md := Function.update s.md f none}) := by
          simp [serve, hnot]
        have hthere : (t.db (getDbPort .metaData) f).isSome = true := by
          rw [getDbPort, hheld.isSome_md, ← Option.not_isNone, (Bool.or_eq_false_iff.mp hnot).2]
          rfl
        rw [hserve]
        exact ⟨_, ends_bind.mpr ⟨0, _, ttOut_ends.mpr (.inr ⟨rfl, hthere, rfl⟩), ends_ret.mpr ⟨rfl, rfl⟩⟩,
          hheld.setMd f .none⟩

end Held

end CacheFs.Queue
