import Mathlib.Data.List.Nodup
import CacheFs.Library.Transition
import CacheFs.Namespace.Rmfile

/-! Whether the namespace stays well formed along its runs.

The calls are `mkfile`, `rmfile`, `cd` and `ls`, in any order. `rmfile` frees the
directory that its path starts from, which a static pointer or a link still leads to:
not one of its calls leaves a sound namespace (`rmfile_breaks`), and in runs without
it the namespace is sound throughout (`run_sound`). -/
namespace CacheFs.Namespace
open Transition

/-- What a child array, a parent pointer or a link leads to, and so on. -/
inductive Ns.Reaches (ns : Ns) : Ptr → Ptr → Prop where
  | refl (p) : Reaches ns p p
  | child {p q r n} : Reaches ns p q → ns.node q = some n → r ∈ n.child → Reaches ns p r
  | parent {p q n} : Reaches ns p q → ns.node q = some n → Reaches ns p n.parent
  | link {p q n} : Reaches ns p q → ns.node q = some n → Reaches ns p (ns.follow q)

/-- A well-formed namespace, each node but the root once among its parent's children, whose
current directory is in the tree; and what is reached from there or from the root is not
freed. -/
structure Ns.Sound (ns : Ns) : Prop where
  wellFormed : ns.WellFormed
  once : ∀ p n, ns.node p = some n → p ≠ ns.cfsRootDir →
    ∃ m, ns.node n.parent = some m ∧ m.child.count p = 1
  current : ns.isDir ns.currentWorkingDir ∧ ns.InTree ns.currentWorkingDir
  live : ∀ p q, p = ns.cfsRootDir ∨ p = ns.currentWorkingDir → ns.Reaches p q → ∃ n, ns.node q = some n

/-- A call, with what the allocator answers it. -/
inductive Call where
  | mkfile (user : CfsUser) (alloc : Alloc) (filePath : CString) (fileType : UInt8) (acl : UInt32)
  | rmfile (calloc : Bool) (filePath : CString)
  | cd (filePath : CString)
  | ls (filePath : CString)

/-- The namespace after a call, if the call is defined. -/
def call (depth : Nat) (ns : Ns) : Call → Option Ns
  | .mkfile user alloc filePath fileType acl => (mkfile depth user alloc ns filePath fileType acl).map Prod.snd
  | .rmfile calloc filePath => (rmfile depth calloc ns filePath).map Prod.snd
  | .cd filePath => (cd depth ns filePath).map Prod.snd
  | .ls filePath => (ls depth ns filePath).map fun _ => ns

def machine (depth : Nat) : Machine Ns Call where
  start := Ns.WellFormed
  step := call depth

/-- A call of any operation but `rmfile`. -/
def noRmfile : Rule Ns Call := fun _ c =>
  match c with
  | .rmfile _ _ => False
  | .mkfile _ _ _ _ _ | .cd _ | .ls _ => True

instance (ns : Ns) (c : Call) : Decidable (noRmfile ns c) :=
  match c with
  | .rmfile _ _ => isFalse id
  | .mkfile _ _ _ _ _ | .cd _ | .ls _ => isTrue trivial

namespace Ns
variable {ns : Ns}

/-- Following pointers from a node that is there ends at one. -/
theorem WellFormed.reaches_live (h : ns.WellFormed) {p q : Ptr} (hp : ∃ n, ns.node p = some n)
    (hreaches : ns.Reaches p q) : ∃ n, ns.node q = some n := by
  induction hreaches with
  | refl => exact hp
  | @child q r n _ hn hr _ =>
    obtain ⟨-, m, hm, -⟩ := h.child q n hn r hr
    exact ⟨m, hm⟩
  | parent _ hn _ => exact h.parent_live hn
  | link _ hn _ => exact h.follow_live ⟨_, hn⟩

theorem WellFormed.sound (h : ns.WellFormed) : ns.Sound := by
  obtain ⟨n, hn⟩ := isDir_live h.current
  refine ⟨h, fun p n hn hp => ?_, ⟨h.current, h.inTree _ n hn⟩, fun p q hp hreaches => ?_⟩
  · obtain ⟨m, hm, hmem⟩ := h.parent_spec hn hp
    exact ⟨m, hm, List.count_eq_one_of_mem (h.child_nodup hm) hmem⟩
  · refine h.reaches_live ?_ hreaches
    obtain rfl | rfl := hp
    · obtain ⟨r, hr, -⟩ := h.root
      exact ⟨r, hr⟩
    · exact ⟨n, hn⟩

theorem InTree.changeDir (d : Ptr) {p : Ptr} (h : ns.InTree p) : InTree {ns with currentWorkingDir := d} p := by
  induction h with
  | root => exact .root
  | child _ hn hq ih => exact .child ih hn hq

/-- Going to another directory leaves the tree as it is. -/
theorem WellFormed.changeDir (h : ns.WellFormed) {d : Ptr} (hd : ns.isDir d) :
    WellFormed {ns with currentWorkingDir := d} where
  root := h.root
  inTree := fun p n hn => (h.inTree p n hn).changeDir d
  childless := h.childless
  howMany := h.howMany
  child := h.child
  sorted := h.sorted
  current := hd
  home := h.home
  shared := h.shared

end Ns

variable {depth : Nat} {ns ns' : Ns}

/-- No call of `rmfile` leaves a sound namespace. -/
theorem rmfile_breaks (hns : ns.WellFormed) {calloc : Bool} {filePath : CString}
    (hcall : (machine depth).step ns (.rmfile calloc filePath) = some ns') : ¬ ns'.Sound := by
  obtain ⟨⟨r, _⟩, hrm, rfl⟩ := Option.map_eq_some_iff.mp hcall
  obtain ⟨n, m, -, hm, -, -, -, rfl⟩ := rmfile_some hns hrm
  intro hsound
  have hfreed := Ns.removed_node (d := ns.origin filePath) (i := erasedPlace filePath m) hm
  -- the freed directory is where the path starts, or a link from there leads to it
  have hreaches : (ns.removed (ns.origin filePath) n.parent m (erasedPlace filePath m)).Reaches
      (ns.startingNode filePath) (ns.origin filePath) := by
    by_cases hstart : ns.startingNode filePath = ns.origin filePath
    · rw [hstart]
      exact .refl _
    · obtain ⟨x, hx⟩ := hns.start_live filePath
      have hx' := hfreed (ns.startingNode filePath)
      rw [if_neg hstart, hx, Option.map_some] at hx'
      have hlink := Ns.Reaches.link (.refl _) hx'
      rwa [Ns.removed_follow hm Ns.follow_follow] at hlink
  have hplace : ns.startingNode filePath = ns.cfsRootDir ∨ ns.startingNode filePath = ns.currentWorkingDir := by
    rw [Ns.startingNode]
    split
    · exact .inl rfl
    · exact .inr rfl
  obtain ⟨x, hx⟩ := hsound.live _ _ hplace hreaches
  rw [hfreed, if_pos rfl] at hx
  cases hx

/-- Every other call keeps the namespace well formed. -/
theorem call_wellFormed (hns : ns.WellFormed) {c : Call} (hc : noRmfile ns c) (hcall : call depth ns c = some ns') :
    ns'.WellFormed := by
  cases c with
  | mkfile user alloc filePath fileType acl =>
    rw [call, mkfile_eq hns] at hcall
    cases hcall
    exact hns
  | rmfile => exact hc.elim
  | cd filePath =>
    rw [call] at hcall
    obtain hcd | hcd := cd_eq hns depth filePath
    · rw [hcd] at hcall
      cases hcall
      exact hns
    · rw [hcd] at hcall
      cases hcall
      exact hns.changeDir (hns.origin_isDir filePath)
  | ls filePath =>
    obtain ⟨-, -, rfl⟩ := Option.map_eq_some_iff.mp hcall
    exact hns

/-- **The namespace is sound along every run** in which no file is removed. -/
theorem run_sound (h : Reach (machine depth) noRmfile ns) : ns.Sound :=
  (h.invariant (fun _ hs => hs) fun _ _ _ hs hc hcall => call_wellFormed hs hc hcall).sound

/-- In `a` the path `x` denotes nothing, and after `rmfile` of it the current directory is freed. -/
theorem run_unsound : ∃ (ns : Ns) (path : CString) (ns' : Ns), ns.WellFormed ∧ ns.denotes path = none ∧
    ∀ depth, call depth ns (.rmfile true path) = some ns' ∧ Reachable (machine depth) ns' ∧
      ns'.node ns'.currentWorkingDir = none ∧ ¬ ns'.Sound := by
  have hns := smallNs_wellFormed 1 rfl
  have hrm (depth : Nat) := rmfile_eq (n := .of ⟨[97], by decide⟩ 1 0 [])
    (m := .of ⟨[47], by decide⟩ 1 0 [1, 2]) hns depth true ⟨[120], by decide⟩ rfl rfl
  have hcall (depth : Nat) : (machine depth).step (smallNs 1) (.rmfile true ⟨[120], by decide⟩) =
      some ((smallNs 1).removed 1 0 (.of ⟨[47], by decide⟩ 1 0 [1, 2]) 1) :=
    congrArg (Option.map Prod.snd) (hrm depth)
  refine ⟨smallNs 1, ⟨[120], by decide⟩, _, hns, by decide, fun depth => ⟨hcall depth, ?_, rfl, ?_⟩⟩
  · exact .step (.start hns) trivial (hcall depth)
  · exact rmfile_breaks hns (hcall depth)

/-- From `a`, listing it, making a directory that is not made and going to the root. -/
theorem run_sound_root : ∃ ns, Reach (machine 2) noRmfile ns ∧ ns.currentWorkingDir = ns.cfsRootDir ∧ ns.Sound := by
  have hstart : Reach (machine 2) noRmfile (smallNs 1) := .start (smallNs_wellFormed 1 rfl)
  have ha : 0 ∉ [(97 : UInt8)] := by decide
  have hb : 0 ∉ [(98 : UInt8)] := by decide
  have hslash : 0 ∉ [(47 : UInt8)] := by decide
  obtain ⟨ns, hreach, hroot⟩ := hstart.exists_run
    [.ls ⟨[97], ha⟩, .mkfile ⟨0, 0⟩ ⟨some 3, true, true⟩ ⟨[98], hb⟩ directoryFile 0, .cd ⟨[47], hslash⟩]
    (fun ns => ns.currentWorkingDir == ns.cfsRootDir) (by rfl)
  exact ⟨ns, hreach, by simpa using hroot, run_sound hreach⟩

end CacheFs.Namespace
