import CacheFs.Namespace.GetNsNode

/-! Whether `get_ns_node` finds what a path denotes.

It always returns 0 and the directory that the path starts from (`getNsNode_eq`). So
it is right just for the paths whose components lead back to that directory, the last
of them being a name (`lookup_correct`), a path of slashes only being one of them; it
does not find a child of the current directory (`lookup_incorrect`). -/
namespace CacheFs.Namespace
open Lookup

/-- `get_ns_node` returns the code, the node and the name of the return table. -/
def LookupCorrect (depth : Nat) (ns : Ns) (path : CString) (fbufsiz : Nat) : Prop :=
  ∃ r, getNsNode depth ns path fbufsiz = some r ∧
    ⟨r.ret, r.nsnode, cString r.fileNameBuf⟩ = ns.resolve path

theorem cString_zeros (n : Nat) : cString (List.replicate n 0) = [] := by
  cases n <;> simp [cString, List.replicate_succ]

/-- Only a node that is found is returned with 0. -/
theorem returnTable_zero {o : Outcome Ptr (List UInt8)} {p : Ptr} : returnTable o = ⟨0, p, []⟩ ↔ o = .found p := by
  cases o <;> simp [returnTable]

/-- **A path is looked up correctly** just when each of its components is there, the last
is not `..`, and they lead back to the directory that the path starts from. -/
theorem lookup_correct {ns : Ns} (hns : ns.WellFormed) (depth : Nat) (path : CString) (fbufsiz : Nat) :
    LookupCorrect depth ns path fbufsiz ↔
      Leads ns.directories (ns.follow (ns.startingNode path)) (components path)
        (ns.follow (ns.startingNode path)) ∧ (components path).getLast? ≠ some .upper := by
  rw [← resolve_eq_found, ← returnTable_zero, LookupCorrect, getNsNode_eq hns]
  simp only [Option.some.injEq, exists_eq_left', cString_zeros, Ns.resolve]
  exact eq_comm

/-! ### Small namespaces -/

/-- A node with nothing to say of its owner. -/
def NsNode.of (name : CString) (fileType : UInt8) (parent : Ptr) (child : List Ptr) : NsNode :=
  ⟨name, fileType, 0, 0, 0, parent, child, UInt32.ofNat child.length⟩

/-- The root with a home `a` and the shared directory `s`, and some current directory. -/
def smallNs (currentWorkingDir : Ptr) : Ns where
  node := fun p => [NsNode.of ⟨[47], by decide⟩ 1 0 [1, 2], .of ⟨[97], by decide⟩ 1 0 [],
    .of ⟨[115], by decide⟩ 5 0 []][p]?
  cfsRootDir := 0
  currentWorkingDir := currentWorkingDir
  homeDir := 1
  sharedDir := 2

theorem smallNs_wellFormed (cwd : Ptr) (hcwd : (smallNs cwd).isDir cwd) : (smallNs cwd).WellFormed := by
  have cases {P : Ptr → NsNode → Prop} (h₀ : P 0 (.of ⟨[47], by decide⟩ 1 0 [1, 2]))
      (h₁ : P 1 (.of ⟨[97], by decide⟩ 1 0 [])) (h₂ : P 2 (.of ⟨[115], by decide⟩ 5 0 [])) (p n)
      (h : (smallNs cwd).node p = some n) : P p n := by
    match p with
    | 0 => cases h; exact h₀
    | 1 => cases h; exact h₁
    | 2 => cases h; exact h₂
    | p + 3 => cases h
  refine ⟨⟨_, rfl, rfl, rfl⟩, ?_, ?_, ?_, ?_, ?_, hcwd, rfl, rfl⟩
  · have hroot : (smallNs cwd).InTree 0 := .root
    exact cases hroot (.child hroot rfl (by decide)) (.child hroot rfl (by decide))
  · exact cases (fun h => absurd rfl h) (fun _ => rfl) (fun _ => rfl)
  · exact cases rfl rfl rfl
  · refine cases (fun q hq => ?_) (fun q hq => by cases hq) (fun q hq => by cases hq)
    obtain rfl | rfl := List.mem_pair.mp hq
    · exact ⟨Nat.succ_ne_zero 0, _, rfl, rfl⟩
    · exact ⟨Nat.succ_ne_zero 1, _, rfl, rfl⟩
  · refine cases (List.pairwise_pair.mpr fun m m' hm hm' => ?_) .nil .nil
    cases hm
    cases hm'
    decide

/-- The root with the shared directory, which is the home and the current one too. -/
def oneDirNs : Ns where
  node := fun p => [NsNode.of ⟨[47], by decide⟩ 1 0 [1], .of ⟨[115], by decide⟩ 5 0 []][p]?
  cfsRootDir := 0
  currentWorkingDir := 1
  homeDir := 1
  sharedDir := 1

theorem oneDirNs_wellFormed : oneDirNs.WellFormed := by
  have cases {P : Ptr → NsNode → Prop} (h₀ : P 0 (.of ⟨[47], by decide⟩ 1 0 [1]))
      (h₁ : P 1 (.of ⟨[115], by decide⟩ 5 0 [])) (p n) (h : oneDirNs.node p = some n) : P p n := by
    match p with
    | 0 => cases h; exact h₀
    | 1 => cases h; exact h₁
    | p + 2 => cases h
  refine ⟨⟨_, rfl, rfl, rfl⟩, ?_, ?_, ?_, ?_, ?_, rfl, rfl, rfl⟩
  · exact cases .root (.child .root rfl (by decide))
  · exact cases (fun h => absurd rfl h) (fun _ => rfl)
  · exact cases rfl rfl
  · refine cases (fun q hq => ?_) (fun q hq => by cases hq)
    obtain rfl := List.mem_singleton.mp hq
    exact ⟨Nat.succ_ne_zero 0, _, rfl, rfl⟩
  · exact cases (List.pairwise_singleton _ _) .nil

/-- In the root the path `a` denotes its child, and `get_ns_node` returns the root. -/
theorem lookup_incorrect : ∃ ns path, ns.WellFormed ∧ ns.resolve path = ⟨0, 1, []⟩ ∧
    ∀ depth fbufsiz, (getNsNode depth ns path fbufsiz).map GetNsNode.nsnode = some 0 ∧
      ¬ LookupCorrect depth ns path fbufsiz := by
  have hns := smallNs_wellFormed 0 rfl
  have hresolve : (smallNs 0).resolve ⟨[97], by decide⟩ = ⟨0, 1, []⟩ := by decide
  refine ⟨smallNs 0, ⟨[97], by decide⟩, hns, hresolve, fun depth fbufsiz => ?_⟩
  rw [LookupCorrect, getNsNode_eq hns, hresolve]
  refine ⟨rfl, ?_⟩
  intro h
  obtain ⟨r, ⟨⟩, hr⟩ := h
  cases congrArg Returned.nsnode hr

/-- From `a` the path `../a` leads back to it. -/
theorem lookup_correct_back : ∃ ns path, ns.WellFormed ∧ components path = [.upper, .name [97]] ∧
    LookupCorrect 1 ns path 16 := by
  have hns := smallNs_wellFormed 1 rfl
  refine ⟨smallNs 1, ⟨[46, 46, 47, 97], by decide⟩, hns, by decide, (lookup_correct hns 1 _ 16).mpr ⟨?_, by decide⟩⟩
  exact .upper rfl (.name rfl rfl (.nil 1))

end CacheFs.Namespace
