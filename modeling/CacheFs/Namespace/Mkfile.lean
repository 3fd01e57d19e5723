import CacheFs.Namespace.Files
import CacheFs.Namespace.PathLookup

/-! Whether `mkfile` makes the file asked for.

It makes none (`mkfile_eq`), so it is right just when there is nothing to make
(`mkfile_correct`), and wrong on the simplest request (`mkfile_incorrect`). -/
namespace CacheFs.Namespace
open Lookup

/-- The new file `p`, of the name asked for, is in its directory `d` with the children that
were there, in order; its path leads to it, and the other paths lead where they did. -/
structure Created (depth : Nat) (user : CfsUser) (ns ns' : Ns) (filePath : CString) (fileType : UInt8)
    (acl : UInt32) (d : Ptr) (name : List UInt8) (p : Ptr) : Prop where
  file : ∃ n, ns'.node p = some n ∧ n.name.bytes = name ∧ n.fileType = fileType ∧ n.uid = user.uid ∧
    n.gid = user.gid ∧ n.acl = acl ∧ n.parent = d ∧ n.child = []
  children : ∃ m m', ns.node d = some m ∧ ns'.node d = some m' ∧ m'.child.Perm (p :: m.child) ∧
    m'.howManyChildren.toNat = m'.child.length ∧
    m'.child.Pairwise fun q r => ∀ n n', ns'.node q = some n → ns'.node r = some n' →
      strcmp n.name.bytes n'.name.bytes < 0
  found : ∃ r, getNsNode depth ns' filePath filePathLen = some r ∧ r.ret = 0 ∧ r.nsnode = p
  kept : ∀ path q, ns.denotes path = some q → ns'.resolve path = ns.resolve path

/-- The allocator gives `mkfile` all it asks for, the node at a place where none is. -/
structure Alloc.Gives (alloc : Alloc) (ns : Ns) (p : Ptr) : Prop where
  node : alloc.node = some p
  unused : ns.node p = none
  name : alloc.name
  child : alloc.child

/-- `REGULAR_FILE` or `DIRECTORY_FILE`. -/
def Plain (fileType : UInt8) : Prop := fileType = regularFile ∨ fileType = directoryFile

/-- `mkfile` makes a plain file whose name is missing from a directory that is there, and
refuses any other, leaving the namespace as it was. -/
structure MkfileCorrect (depth : Nat) (user : CfsUser) (alloc : Alloc) (ns : Ns) (filePath : CString)
    (fileType : UInt8) (acl : UInt32) : Prop where
  makes : ∀ d name p, Plain fileType → ns.resolve filePath = ⟨3, d, name⟩ → alloc.Gives ns p →
    ∃ ns', mkfile depth user alloc ns filePath fileType acl = some (some p, ns') ∧
      Created depth user ns ns' filePath fileType acl d name p
  refuses : isSharedFlagSet fileType ∨ isSharedDir fileType ∨ (ns.resolve filePath).ret ≠ 3 →
    mkfile depth user alloc ns filePath fileType acl = some (none, ns)

/-- **`mkfile` does what is asked** just when it is asked for nothing that can be made: the
type is not plain, or the name is there, or its directory is not, or an allocation
fails. -/
theorem mkfile_correct {ns : Ns} (hns : ns.WellFormed) (depth : Nat) (user : CfsUser) (alloc : Alloc)
    (filePath : CString) (fileType : UInt8) (acl : UInt32) :
    MkfileCorrect depth user alloc ns filePath fileType acl ↔
      ¬ (Plain fileType ∧ (ns.resolve filePath).ret = 3 ∧ ∃ p, alloc.Gives ns p) := by
  have hnone := mkfile_eq hns depth user alloc filePath fileType acl
  constructor
  · intro h hasked
    obtain ⟨hplain, hret, p, hgives⟩ := hasked
    obtain ⟨ns', hmade, -⟩ := h.makes _ _ p hplain
      (show ns.resolve filePath = ⟨3, (ns.resolve filePath).nsnode, (ns.resolve filePath).fileName⟩ by
        rw [← hret]) hgives
    rw [hnone] at hmade
    cases hmade
  · intro h
    refine ⟨fun d name p hplain hresolve hgives => ?_, fun _ => hnone⟩
    exact absurd ⟨hplain, by rw [hresolve], p, hgives⟩ h

/-- The directory `/b` is asked for where there are `/a` and `/s`; `mkfile` returns `NULL`. -/
theorem mkfile_incorrect : ∃ ns path alloc p, ns.WellFormed ∧ ns.resolve path = ⟨3, 0, [98]⟩ ∧
    alloc.Gives ns p ∧ ∀ depth user acl, mkfile depth user alloc ns path directoryFile acl = some (none, ns) ∧
      ¬ MkfileCorrect depth user alloc ns path directoryFile acl := by
  have hns := smallNs_wellFormed 0 rfl
  have hresolve : (smallNs 0).resolve ⟨[47, 98], by decide⟩ = ⟨3, 0, [98]⟩ := by decide
  have hgives : Alloc.Gives ⟨some 3, true, true⟩ (smallNs 0) 3 := ⟨rfl, rfl, rfl, rfl⟩
  refine ⟨smallNs 0, ⟨[47, 98], by decide⟩, _, 3, hns, hresolve, hgives, fun depth user acl => ⟨?_, fun h => ?_⟩⟩
  · exact mkfile_eq hns ..
  · obtain ⟨ns', hmade, -⟩ := h.makes 0 [98] 3 (.inr rfl) hresolve hgives
    rw [mkfile_eq hns] at hmade
    cases hmade

/-- The directory `/a` is asked for where it is. -/
theorem mkfile_correct_there : ∃ ns path, ns.WellFormed ∧ ns.denotes path = some 1 ∧
    ∀ depth user alloc acl, MkfileCorrect depth user alloc ns path directoryFile acl := by
  have hns := smallNs_wellFormed 0 rfl
  refine ⟨smallNs 0, ⟨[47, 97], by decide⟩, hns, by decide, fun depth user alloc acl => ?_⟩
  refine (mkfile_correct hns depth user alloc _ _ acl).mpr fun h => ?_
  exact absurd h.2.1 (by decide)

end CacheFs.Namespace
