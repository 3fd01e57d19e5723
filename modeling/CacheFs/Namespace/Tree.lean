import CacheFs.Library.Lookup

/-! The namespace of the cache file system (`namespace_server.c`): its nodes, and what
a path denotes in it.

Nodes are records reached by pointers; the file keeps a pointer to the current working
directory, the user's home and the shared directory. A well-formed namespace is a tree
of directories with sorted children (`WellFormed`). `Ns.resolve` is what the comment
table of `get_ns_node` says of a path, stated on the tree alone. -/
namespace CacheFs.Namespace
open Lookup

abbrev Ptr := Nat

/-- A C string. -/
structure CString where
  bytes : List UInt8
  terminated : 0 ∉ bytes

theorem CString.eq_iff {s t : CString} : s.bytes = t.bytes ↔ s = t := by
  cases s
  cases t
  rw [CString.mk.injEq]

instance : DecidableEq CString := fun _ _ => decidable_of_iff _ CString.eq_iff

/-- `strcmp`: the difference of the first bytes that differ, the terminator included. -/
def strcmp : List UInt8 → List UInt8 → Int
  | [], [] => 0
  | a :: _, [] => a.toNat
  | [], b :: _ => -b.toNat
  | a :: as, b :: bs => if a = b then strcmp as bs else a.toNat - b.toNat

/-! ### File types -/

/-- `IS_DIR_FILE`. -/
def isDirFile (fileType : UInt8) : Bool := fileType &&& 1 != 0

/-- `IS_SHARED_FLAG_SET`. -/
def isSharedFlagSet (fileType : UInt8) : Bool := fileType &&& 2 != 0

/-- `IS_SHARED_DIR`. -/
def isSharedDir (fileType : UInt8) : Bool := fileType &&& 4 != 0

/-! ### Nodes -/

/-- `ns_node`. -/
structure NsNode where
  name : CString
  fileType : UInt8
  uid : UInt32
  gid : UInt32
  acl : UInt32
  parent : Ptr
  child : List Ptr
  howManyChildren : UInt32

/-- The nodes and the static variables that lead to them. -/
structure Ns where
  node : Ptr → Option NsNode
  cfsRootDir : Ptr
  currentWorkingDir : Ptr
  homeDir : Ptr
  sharedDir : Ptr

namespace Ns
variable (ns : Ns)

def isDir (p : Ptr) : Bool := (ns.node p).any fun n => isDirFile n.fileType

/-- A directory with `SHARED_FLAG` is a link to the shared directory. -/
def follow (p : Ptr) : Ptr :=
  if (ns.node p).any fun n => isDirFile n.fileType && isSharedFlagSet n.fileType then ns.sharedDir else p

/-- What children of the root are, and their children, and so on. -/
inductive InTree : Ptr → Prop where
  | root : InTree ns.cfsRootDir
  | child {p q n} : InTree p → ns.node p = some n → q ∈ n.child → InTree q

/-- A tree of directories from the root, which is its own parent; and the three
directories of the statics are in it. -/
structure WellFormed : Prop where
  root : ∃ n, ns.node ns.cfsRootDir = some n ∧ isDirFile n.fileType ∧ n.parent = ns.cfsRootDir
  inTree : ∀ p n, ns.node p = some n → ns.InTree p
  childless : ∀ p n, ns.node p = some n → ¬ isDirFile n.fileType → n.child = []
  howMany : ∀ p n, ns.node p = some n → n.howManyChildren.toNat = n.child.length
  child : ∀ p n, ns.node p = some n → ∀ q ∈ n.child,
    q ≠ ns.cfsRootDir ∧ ∃ m, ns.node q = some m ∧ m.parent = p
  sorted : ∀ p n, ns.node p = some n →
    n.child.Pairwise fun q r => ∀ m m', ns.node q = some m → ns.node r = some m' →
      strcmp m.name.bytes m'.name.bytes < 0
  current : ns.isDir ns.currentWorkingDir
  home : ns.isDir ns.homeDir
  shared : ns.isDir ns.sharedDir

/-! ### What a path denotes -/

/-- The namespace as directories to follow paths in. From the shared directory `..` leads
to the user's home, and wherever a path comes to a link it goes on from its target. -/
def directories : Directories Ptr (List UInt8) where
  isDir := ns.isDir
  upper := fun p => (ns.node p).elim p fun n => ns.follow (if isSharedDir n.fileType then ns.homeDir else n.parent)
  child := fun p name => (ns.node p).bind fun n =>
    (n.child.find? fun q => (ns.node q).any fun m => m.name.bytes = name).map ns.follow

/-- Where a path starts: at the root if it begins with `/`, else at the current directory. -/
def startingNode (path : CString) : Ptr :=
  if path.bytes.head? = some 47 then ns.cfsRootDir else ns.currentWorkingDir

end Ns

/-- The components of a path: what is between slashes and not empty. -/
def components (path : CString) : List (Component (List UInt8)) :=
  ((path.bytes.splitOn 47).filter (· ≠ [])).map fun c => if c = [46, 46] then .upper else .name c

/-- A row of the return table of `get_ns_node`. -/
structure Returned where
  ret : UInt32
  nsnode : Ptr
  fileName : List UInt8
  deriving DecidableEq

/-- The return table of `get_ns_node`. -/
def returnTable : Outcome Ptr (List UInt8) → Returned
  | .found n => ⟨0, n, []⟩
  | .notDir n => ⟨1, n, []⟩
  | .upper n => ⟨2, n, []⟩
  | .missing n name => ⟨3, n, name⟩
  | .missingDir n name => ⟨4, n, name⟩

/-- What `get_ns_node` should return for a path. -/
def Ns.resolve (ns : Ns) (path : CString) : Returned :=
  returnTable (Lookup.resolve ns.directories (ns.follow (ns.startingNode path)) (components path))

/-- The node that a path denotes, if there is one. -/
def Ns.denotes (ns : Ns) (path : CString) : Option Ptr :=
  (Lookup.resolve ns.directories (ns.follow (ns.startingNode path)) (components path)).node

theorem Ns.denotes_eq {ns : Ns} {path : CString} {p : Ptr} :
    ns.denotes path = some p ↔ Leads ns.directories (ns.follow (ns.startingNode path)) (components path) p :=
  resolve_node

end CacheFs.Namespace
