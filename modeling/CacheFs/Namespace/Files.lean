import Mathlib.Data.List.TakeWhile
import CacheFs.Namespace.ChildArray
import CacheFs.Namespace.GetNsNode

/-! The operations on files: `mkfile`, `rmfile`, `cd` and `ls`.

Each looks its path up with `get_ns_node` and goes on by the code that returns. As
that code is always 0 and the node always the directory that the path starts from,
`mkfile` never makes anything (`mkfile_eq`), `rmfile` takes out that directory
(`rmfile_eq`) and `cd` goes there (`cd_eq`). -/
namespace CacheFs.Namespace

/-- `FILE_PATH_LEN`. -/
def filePathLen : Nat := 260

/-- `REGULAR_FILE`. -/
def regularFile : UInt8 := 0

/-- `DIRECTORY_FILE`. -/
def directoryFile : UInt8 := 1

/-- `IS_REG_FILE`. -/
def isRegFile (fileType : UInt8) : Bool := fileType ||| regularFile == 0

/-- What `mkfile` reads of `current_user`. -/
structure CfsUser where
  uid : UInt32
  gid : UInt32

/-- What the allocator answers `mkfile`: the node, its name, and the longer array of children. -/
structure Alloc where
  node : Option Ptr
  name : Bool
  child : Bool

theorem cString_terminated (buf : List UInt8) : 0 ∉ cString buf := by
  intro h
  simpa using List.mem_takeWhile_imp h

/-- The part of `mkfile` after a lookup that returned 3. The count of children is raised
before the array is reallocated, and stays so when that fails. What the new slot holds is
never read. -/
def addNode (user : CfsUser) (alloc : Alloc) (ns : Ns) (found : GetNsNode) (fileType : UInt8) (acl : UInt32) :
    Option (Option Ptr × Ns) :=
  if (cString found.fileNameBuf).length = 0 then some (none, ns)
  else do
    let dir ← ns.node found.nsnode
    match alloc.node with
    | none => return (none, ns)
    | some newFile =>
      if !alloc.name then return (none, ns)
      let name : CString := ⟨cString found.fileNameBuf, cString_terminated _⟩
      if !alloc.child then
        let howManyChildren := dir.howManyChildren + 1
        return (none, {ns with node := Function.update ns.node found.nsnode (some {dir with howManyChildren})})
      let (child, howManyChildren) ← insertChild dir.child dir.howManyChildren found.index newFile 0
      let node := Function.update ns.node found.nsnode (some {dir with child, howManyChildren})
      let new : NsNode := ⟨name, fileType, user.uid, user.gid, acl, found.nsnode, [], 0⟩
      return (some newFile, {ns with node := Function.update node newFile (some new)})

/-- `mkfile`. -/
def mkfile (depth : Nat) (user : CfsUser) (alloc : Alloc) (ns : Ns) (filePath : CString) (fileType : UInt8)
    (acl : UInt32) : Option (Option Ptr × Ns) :=
  if (isRegFile fileType || isDirFile fileType) && !isSharedFlagSet fileType && !isSharedDir fileType then
    some (none, ns)
  else do
    let r ← getNsNode depth ns filePath filePathLen
    if r.ret = 3 then addNode user alloc ns r fileType acl else return (none, ns)

/-- `rmfile`, with what `calloc` answers it, which it does not check; the root is not from
`malloc` and cannot be freed. -/
def rmfile (depth : Nat) (calloc : Bool) (ns : Ns) (filePath : CString) : Option (UInt32 × Ns) := do
  let r ← getNsNode depth ns filePath filePathLen
  if r.ret = 0 then
    let rmnode ← ns.node r.nsnode
    let parentDir ← ns.node rmnode.parent
    let howManyChildren := parentDir.howManyChildren - 1
    if calloc = false ∧ howManyChildren ≠ 0 then none
    else do
      let child ← copyChildren parentDir.child r.index.toNat howManyChildren.toNat 0
      let node := Function.update ns.node rmnode.parent (some {parentDir with child, howManyChildren})
      if r.nsnode = ns.cfsRootDir then none
      else return (0, {ns with node := Function.update node r.nsnode none})
  else return (1, ns)

/-- `cd`. -/
def cd (depth : Nat) (ns : Ns) (filePath : CString) : Option (UInt32 × Ns) := do
  let r ← getNsNode depth ns filePath filePathLen
  if r.ret = 0 then
    let destDir ← ns.node r.nsnode
    if destDir.fileType ≠ directoryFile then return (1, ns)
    else return (0, {ns with currentWorkingDir := r.nsnode})
  else if r.ret = 2 then return (0, {ns with currentWorkingDir := r.nsnode})
  else return (0, ns)

/-- What `ls` returns, and what it leaves in its arguments. -/
structure Ls where
  ret : UInt32
  singleFile : Option Ptr
  allFileInDir : Option (List Ptr × UInt32)

/-- `ls`, which returns 0 when it fails. -/
def ls (depth : Nat) (ns : Ns) (filePath : CString) : Option Ls := do
  let r ← getNsNode depth ns filePath filePathLen
  if r.ret = 0 ∨ r.ret = 2 then
    let lsfile ← ns.node r.nsnode
    if isRegFile lsfile.fileType then return ⟨1, some r.nsnode, none⟩
    else if isDirFile lsfile.fileType then return ⟨2, none, some (lsfile.child, lsfile.howManyChildren)⟩
    else return ⟨0, none, none⟩
  else return ⟨0, none, none⟩

/-! ### What they do -/

namespace Ns

/-- The directory that a path starts from. -/
abbrev origin (ns : Ns) (path : CString) : Ptr := ns.follow (ns.startingNode path)

variable {ns : Ns}

theorem WellFormed.origin_isDir (h : ns.WellFormed) (path : CString) : ns.isDir (ns.origin path) := by
  rw [origin, follow]
  split
  · exact h.shared
  · rw [startingNode]
    split
    · obtain ⟨n, hn, hdir, -⟩ := h.root
      exact (Option.any_eq_true _ _).mpr ⟨n, hn, hdir⟩
    · exact h.current

/-- No directory but the root is its own parent. -/
theorem WellFormed.parent_ne (h : ns.WellFormed) {p : Ptr} {n : NsNode} (hn : ns.node p = some n)
    (hp : p ≠ ns.cfsRootDir) : n.parent ≠ p := by
  have htree := h.inTree p n hn
  induction htree generalizing n with
  | root => exact absurd rfl hp
  | @child q p m _ hm hmem ih =>
    obtain ⟨hne, n', hn', hparent⟩ := h.child q m hm p hmem
    cases hn.symm.trans hn'
    intro hself
    have hqp : q = p := hparent.symm.trans hself
    subst hqp
    exact ih hm hne (by cases hm.symm.trans hn; exact hself)

/-- Each node but the root is among its parent's children. -/
theorem WellFormed.parent_spec (h : ns.WellFormed) {p : Ptr} {n : NsNode} (hn : ns.node p = some n)
    (hp : p ≠ ns.cfsRootDir) : ∃ m, ns.node n.parent = some m ∧ p ∈ m.child := by
  cases h.inTree p n hn with
  | root => exact absurd rfl hp
  | @child q _ m _ hm hmem =>
    obtain ⟨-, n', hn', hparent⟩ := h.child q m hm p hmem
    cases hn.symm.trans hn'
    exact ⟨m, hparent ▸ hm, hmem⟩

/-- One child less is one count less. -/
theorem WellFormed.howMany_pred (h : ns.WellFormed) {p : Ptr} {n : NsNode} (hn : ns.node p = some n)
    (hpos : 0 < n.child.length) : (n.howManyChildren - 1).toNat = n.child.length - 1 := by
  have hlen := h.howMany p n hn
  have hone : (1 : UInt32) ≤ n.howManyChildren := by
    rw [UInt32.le_iff_toNat_le, hlen]
    exact hpos
  rw [UInt32.toNat_sub_of_le _ _ hone, hlen]
  rfl

end Ns

section Operations
variable {ns : Ns}

/-- **`mkfile` makes nothing**, whatever the path and the type: it refuses the types that it is
for, and for any other its lookup does not return 3. -/
theorem mkfile_eq (hns : ns.WellFormed) (depth : Nat) (user : CfsUser) (alloc : Alloc) (filePath : CString)
    (fileType : UInt8) (acl : UInt32) : mkfile depth user alloc ns filePath fileType acl = some (none, ns) := by
  rw [mkfile]
  split
  · rfl
  · rw [getNsNode_eq hns]
    rfl

/-- A directory without `SHARED_FLAG` and `SHARED_DIR`. -/
def Ns.Unflagged (ns : Ns) (p : Ptr) : Prop := ∃ n, ns.node p = some n ∧ n.fileType = directoryFile

/-- `cd` looks at the type of the directory that its path starts from, and at nothing else. -/
theorem cd_unflagged (hns : ns.WellFormed) (depth : Nat) {filePath : CString} (h : ns.Unflagged (ns.origin filePath)) :
    cd depth ns filePath = some (0, {ns with currentWorkingDir := ns.origin filePath}) := by
  obtain ⟨n, hn, htype⟩ := h
  rw [cd, getNsNode_eq hns]
  simp [hn, htype]

theorem cd_flagged (hns : ns.WellFormed) (depth : Nat) {filePath : CString} (h : ¬ ns.Unflagged (ns.origin filePath)) :
    cd depth ns filePath = some (1, ns) := by
  obtain ⟨n, hn⟩ := Ns.isDir_live (hns.origin_isDir filePath)
  have htype : n.fileType ≠ directoryFile := fun htype => h ⟨n, hn, htype⟩
  rw [cd, getNsNode_eq hns]
  simp [hn, htype]

/-- `cd` goes to the directory that its path starts from. -/
theorem cd_eq (hns : ns.WellFormed) (depth : Nat) (filePath : CString) :
    cd depth ns filePath = some (1, ns) ∨
      cd depth ns filePath = some (0, {ns with currentWorkingDir := ns.origin filePath}) := by
  by_cases h : ns.Unflagged (ns.origin filePath)
  · exact .inr (cd_unflagged hns depth h)
  · exact .inl (cd_flagged hns depth h)

/-- The namespace without the directory `d`, which is freed, and without the child at place
`i` of its parent. -/
def Ns.removed (ns : Ns) (d parent : Ptr) (parentDir : NsNode) (i : Nat) : Ns :=
  let child := parentDir.child.eraseIdx i
  let howManyChildren := parentDir.howManyChildren - 1
  let node := Function.update ns.node parent (some {parentDir with child, howManyChildren})
  {ns with node := Function.update node d none}

/-- The place that `rmfile` leaves out: the length of the path, or the last if there are
fewer children. -/
def erasedPlace (filePath : CString) (parentDir : NsNode) : Nat :=
  min (UInt32.ofNat filePath.bytes.length).toNat (parentDir.child.length - 1)

/-- **`rmfile` frees the directory that its path starts from**, whatever the path names. -/
theorem rmfile_eq (hns : ns.WellFormed) (depth : Nat) (calloc : Bool) (filePath : CString) {n m : NsNode}
    (hn : ns.node (ns.origin filePath) = some n) (hm : ns.node n.parent = some m) :
    rmfile depth calloc ns filePath =
      if ns.origin filePath = ns.cfsRootDir ∨ (calloc = false ∧ m.child.length ≠ 1) then none
      else some (0, ns.removed (ns.origin filePath) n.parent m (erasedPlace filePath m)) := by
  simp only [rmfile, getNsNode_eq hns, Option.bind_eq_bind, Option.bind_some, if_true, hn, hm]
  by_cases hroot : ns.origin filePath = ns.cfsRootDir
  · have hnone (x : Option (List Ptr)) : x.bind (fun _ => (none : Option (UInt32 × Ns))) = none := by
      cases x <;> rfl
    simp only [hnone, ite_self, hroot, true_or, if_true]
  · obtain ⟨m', hm', hmem⟩ := hns.parent_spec hn hroot
    cases hm.symm.trans hm'
    have hpos := List.length_pos_of_mem hmem
    have hrounds := hns.howMany_pred hm hpos
    have hcopy := @copyChildren_eq m.child (UInt32.ofNat filePath.bytes.length).toNat (m.child.length - 1) 0
      (Nat.zero_le _) (by omega)
    have hzero : m.howManyChildren - 1 ≠ 0 ↔ m.child.length ≠ 1 := by
      rw [not_iff_not, ← UInt32.toNat_inj, hrounds]
      have h0 : (0 : UInt32).toNat = 0 := rfl
      omega
    rw [hrounds, hcopy]
    simp only [hzero, hroot, false_or]
    split
    · rfl
    · rfl

end Operations

end CacheFs.Namespace
