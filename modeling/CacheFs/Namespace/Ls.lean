import CacheFs.Library.Settling
import CacheFs.Namespace.Runs

/-! What `ls` lists.

It lists the directory that its path starts from (`ls_eq`), so it is right for the paths
that denote that directory and for the paths from an empty directory to another
(`ls_correct`). No call but `rmfile` makes or changes a node, and the current directory is
left for the root or the target of a link only: what `ls` can list along a run was known
when it began (`run_confined`). -/
namespace CacheFs.Namespace
open Transition

/-- What there is to list of a file: itself if it is regular, its children if it is a directory. -/
def listed (p : Ptr) (n : NsNode) : Option Ls :=
  if isRegFile n.fileType then some ⟨1, some p, none⟩
  else if isDirFile n.fileType then some ⟨2, none, some (n.child, n.howManyChildren)⟩
  else none

/-- `ls` lists the file that the path denotes, and returns 0 where the path denotes none. -/
structure LsCorrect (depth : Nat) (ns : Ns) (filePath : CString) : Prop where
  lists : ∀ p n l, ns.denotes filePath = some p → ns.node p = some n → listed p n = some l →
    ls depth ns filePath = some l
  fails : ns.denotes filePath = none → ∃ l, ls depth ns filePath = some l ∧ l.ret = 0

namespace Ns
variable {ns : Ns}

/-- A directory without children. -/
def Empty (ns : Ns) (p : Ptr) : Prop := ∃ n, ns.node p = some n ∧ isDirFile n.fileType ∧ n.child = []

/-- A regular file. -/
def isReg (ns : Ns) (p : Ptr) : Bool := (ns.node p).any fun n => isRegFile n.fileType

/-- Directories with the same children are one, unless they have none. -/
theorem WellFormed.same_children (h : ns.WellFormed) {p q : Ptr} {n m : NsNode} (hn : ns.node p = some n)
    (hm : ns.node q = some m) (hchild : n.child = m.child) (hne : m.child ≠ []) : p = q := by
  obtain ⟨r, hr⟩ := List.exists_mem_of_ne_nil _ hne
  obtain ⟨-, x, hx, hp⟩ := h.child p n hn r (hchild ▸ hr)
  exact hp.symm.trans (h.parent_eq hx hm hr)

/-- What a path denotes is there. -/
theorem WellFormed.denotes_live (h : ns.WellFormed) {path : CString} {p : Ptr} (hp : ns.denotes path = some p) :
    ∃ n, ns.node p = some n :=
  h.leads_live (denotes_eq.mp hp) (h.follow_live (h.start_live path))

end Ns

theorem isRegFile_dir {fileType : UInt8} (h : isDirFile fileType) : isRegFile fileType = false := by
  apply Bool.eq_false_iff.mpr
  intro hreg
  simp only [isRegFile, regularFile, UInt8.or_zero, beq_iff_eq] at hreg
  simp [isDirFile, hreg] at h

section Ls
variable {ns ns' : Ns} {depth : Nat} {filePath : CString}

/-- **`ls` lists the directory that its path starts from**, whatever the path names. -/
theorem ls_eq (hns : ns.WellFormed) (depth : Nat) (filePath : CString) {n : NsNode}
    (hn : ns.node (ns.origin filePath) = some n) :
    ls depth ns filePath = some ⟨2, none, some (n.child, n.howManyChildren)⟩ := by
  have hdir : isDirFile n.fileType := by
    have horigin := hns.origin_isDir filePath
    rw [Ns.isDir, hn] at horigin
    exact horigin
  rw [ls, getNsNode_eq hns]
  simp [hn, isRegFile_dir hdir, hdir]

/-- **`ls` is right** just when its path denotes a file that is not regular, and for a directory
either the one that the path starts from, or an empty one and the path starts from another. -/
theorem ls_correct (hns : ns.WellFormed) (depth : Nat) (filePath : CString) :
    LsCorrect depth ns filePath ↔ ∃ p, ns.denotes filePath = some p ∧ ns.isReg p = false ∧
      (ns.isDir p → p = ns.origin filePath ∨ ns.Empty p ∧ ns.Empty (ns.origin filePath)) := by
  have horigin := hns.origin_isDir filePath
  obtain ⟨m, hm⟩ := Ns.isDir_live horigin
  have hls := ls_eq hns depth filePath hm
  have hmdir : isDirFile m.fileType := by
    rw [Ns.isDir, hm] at horigin
    exact horigin
  cases hp : ns.denotes filePath with
  | none =>
    refine iff_of_false (fun h => ?_) (by simp)
    obtain ⟨l, hl, hzero⟩ := h.fails hp
    rw [hls] at hl
    cases hl
    cases hzero
  | some p =>
    obtain ⟨n, hn⟩ := hns.denotes_live hp
    have hreg : ns.isReg p = isRegFile n.fileType := by rw [Ns.isReg, hn]; rfl
    have hdir : ns.isDir p = isDirFile n.fileType := by rw [Ns.isDir, hn]; rfl
    simp only [Option.some.injEq, exists_eq_left', hreg, hdir]
    constructor
    · intro h
      have hlists (l : Ls) (hl : listed p n = some l) : some l = ls depth ns filePath := (h.lists p n l hp hn hl).symm
      cases hr : isRegFile n.fileType with
      | true =>
        have heq := hlists _ (if_pos hr)
        rw [hls] at heq
        cases heq
      | false =>
        refine ⟨rfl, fun hd => ?_⟩
        have heq := hlists ⟨2, none, some (n.child, n.howManyChildren)⟩ (by simp [listed, hr, hd])
        rw [hls] at heq
        have hchild : n.child = m.child := by
          injection heq with heq
          injection heq with _ _ hdir
          injection hdir with hdir
          exact congrArg Prod.fst hdir
        by_cases hempty : m.child = []
        · exact .inr ⟨⟨n, hn, hd, hchild.trans hempty⟩, m, hm, hmdir, hempty⟩
        · exact .inl (hns.same_children hn hm hchild hempty)
    · intro h
      refine ⟨fun q x l hq hx hl => ?_, fun hnone => by rw [hp] at hnone; cases hnone⟩
      cases hp.symm.trans hq
      cases hn.symm.trans hx
      rw [listed, if_neg (by simp [h.1])] at hl
      split at hl
      · rename_i hd
        cases hl
        rw [hls]
        obtain rfl | ⟨⟨x, hx, -, hxempty⟩, y, hy, -, hyempty⟩ := h.2 hd
        · cases hn.symm.trans hm
          rfl
        · cases hn.symm.trans hx
          cases hm.symm.trans hy
          -- as many children as in the lists, so none in both
          have hcount : m.howManyChildren = n.howManyChildren := by
            rw [← UInt32.toNat_inj, hns.howMany _ m hm, hns.howMany _ n hn, hxempty, hyempty]
          rw [hxempty, hyempty, hcount]
      · cases hl

/-! ### Along runs -/

/-- A namespace with the same nodes, whose current directory is the other's, or what that or the
root is a link to, or the root. -/
structure Confined (ns ns' : Ns) : Prop where
  node : ns'.node = ns.node
  root : ns'.cfsRootDir = ns.cfsRootDir
  shared : ns'.sharedDir = ns.sharedDir
  current : ns'.currentWorkingDir = ns.currentWorkingDir ∨ ns'.currentWorkingDir = ns.follow ns.currentWorkingDir ∨
    ns'.currentWorkingDir = ns.follow ns.cfsRootDir

theorem Confined.refl (ns : Ns) : Confined ns ns := ⟨rfl, rfl, rfl, .inl rfl⟩

theorem Confined.follow (h : Confined ns ns') : ns'.follow = ns.follow := by
  funext p
  show (if (ns'.node p).any _ then ns'.sharedDir else p) = _
  rw [h.node, h.shared]
  rfl

/-- Paths start from one of two directories. -/
theorem Confined.origin (h : Confined ns ns') (path : CString) :
    ns'.origin path = ns.follow ns.currentWorkingDir ∨ ns'.origin path = ns.follow ns.cfsRootDir := by
  rw [Ns.origin, h.follow, Ns.startingNode, h.root]
  split
  · exact .inr rfl
  · obtain hcwd | hcwd | hcwd := h.current
    · rw [hcwd]
      exact .inl rfl
    · rw [hcwd, Ns.follow_follow]
      exact .inl rfl
    · rw [hcwd, Ns.follow_follow]
      exact .inr rfl

theorem Confined.call {ns'' : Ns} (h : Confined ns ns') (hns : ns'.WellFormed) {c : Call} (hc : noRmfile ns' c)
    (hcall : call depth ns' c = some ns'') : Confined ns ns'' := by
  cases c with
  | mkfile user alloc filePath fileType acl =>
    rw [Namespace.call, mkfile_eq hns] at hcall
    cases hcall
    exact h
  | rmfile => exact hc.elim
  | cd filePath =>
    rw [Namespace.call] at hcall
    obtain hcd | hcd := cd_eq hns depth filePath
    · rw [hcd] at hcall
      cases hcall
      exact h
    · rw [hcd] at hcall
      cases hcall
      exact ⟨h.node, h.root, h.shared, .inr (h.origin filePath)⟩
  | ls filePath =>
    obtain ⟨-, -, rfl⟩ := Option.map_eq_some_iff.mp hcall
    exact h

/-- **No run leads anywhere**: without `rmfile` each run from a well-formed namespace makes and
changes no node, and wherever it has come to, `ls` of any path lists the directory that the run
began in, or the root, or what these are links to. -/
theorem run_confined (hns : ns.WellFormed) (h : Reach ((machine depth).from ns) noRmfile ns') :
    ns'.node = ns.node ∧ ∀ path, ∃ d n, (d = ns.follow ns.currentWorkingDir ∨ d = ns.follow ns.cfsRootDir) ∧
      ns.node d = some n ∧ ls depth ns' path = some ⟨2, none, some (n.child, n.howManyChildren)⟩ := by
  have hinv : Confined ns ns' ∧ ns'.WellFormed := by
    refine h.invariant (I := fun s => Confined ns s ∧ s.WellFormed) ?_ ?_
    · rintro s rfl
      exact ⟨.refl s, hns⟩
    · intro s c s' hs hc hcall
      exact ⟨hs.1.call hs.2 hc hcall, call_wellFormed hs.2 hc hcall⟩
  obtain ⟨hconfined, hns'⟩ := hinv
  refine ⟨hconfined.node, fun path => ?_⟩
  obtain ⟨n, hn⟩ := Ns.isDir_live (hns'.origin_isDir path)
  exact ⟨_, n, hconfined.origin path, by rw [← hconfined.node]; exact hn, ls_eq hns' depth path hn⟩

end Ls

/-- In `a`, which is as empty as the shared directory, `ls ../s` is right. -/
theorem ls_correct_empty : ∃ ns path, ns.WellFormed ∧ ns.denotes path = some 2 ∧ ns.origin path = 1 ∧
    LsCorrect 1 ns path := by
  have hns := smallNs_wellFormed 1 rfl
  have hdenotes : (smallNs 1).denotes ⟨[46, 46, 47, 115], by decide⟩ = some 2 := by decide
  refine ⟨smallNs 1, ⟨[46, 46, 47, 115], by decide⟩, hns, hdenotes, by decide, (ls_correct hns 1 _).mpr ?_⟩
  exact ⟨2, hdenotes, rfl, fun _ => .inr ⟨⟨_, rfl, rfl, rfl⟩, _, rfl, rfl, rfl⟩⟩

/-- From `a`, making nothing, and going to the root. -/
theorem run_confined_root : ∃ ns ns', ns.WellFormed ∧ Reach ((machine 2).from ns) noRmfile ns' ∧
    ns'.currentWorkingDir ≠ ns.currentWorkingDir ∧ ns'.node = ns.node := by
  have hstart : Reach ((machine 2).from (smallNs 1)) noRmfile (smallNs 1) := .start rfl
  have hb : 0 ∉ [(98 : UInt8)] := by decide
  have hslash : 0 ∉ [(47 : UInt8)] := by decide
  obtain ⟨ns', hreach, hroot⟩ := hstart.exists_run
    [.mkfile ⟨0, 0⟩ ⟨some 3, true, true⟩ ⟨[98], hb⟩ directoryFile 0, .cd ⟨[47], hslash⟩]
    (fun ns' => ns'.currentWorkingDir == 0) (by rfl)
  have hzero : ns'.currentWorkingDir = 0 := by simpa using hroot
  refine ⟨smallNs 1, ns', smallNs_wellFormed 1 rfl, hreach, ?_, (run_confined (smallNs_wellFormed 1 rfl) hreach).1⟩
  rw [hzero]
  exact Nat.zero_ne_one

end CacheFs.Namespace
