import CacheFs.Namespace.Files
import CacheFs.Namespace.PathLookup

/-! Whether `rmfile` removes the file named.

It frees the directory that its path starts from and takes a child out of that
directory's parent, at the place given by the length of the path (`rmfile_eq`). So it
is right only where it is asked for nothing that could be removed, or for just that
directory, in a namespace where no path leads away from it (`rmfile_correct`); else it
removes another (`rmfile_incorrect`). -/
namespace CacheFs.Namespace
open Lookup

/-- A regular file, or a directory without children, that is not the root. -/
def Ns.Removable (ns : Ns) (p : Ptr) : Prop :=
  p ≠ ns.cfsRootDir ∧ ∃ n, ns.node p = some n ∧
    (isRegFile n.fileType ∨ isDirFile n.fileType ∧ n.child = [])

/-- The file `p` is no longer among its parent's children, and the paths to any other node
that is there lead where they did. -/
structure Removed (ns ns' : Ns) (p : Ptr) : Prop where
  children : ∃ n m m', ns.node p = some n ∧ ns.node n.parent = some m ∧ ns'.node n.parent = some m' ∧
    m'.child = m.child.erase p ∧ m'.howManyChildren.toNat = m'.child.length
  kept : ∀ path q, ns.denotes path = some q → q ≠ p →
    ns'.resolve path = ns.resolve path ∧ ∃ n, ns'.node q = some n

/-- `rmfile` removes a removable file, and returns another code than 0 when the path denotes
nothing, leaving the namespace as it was. -/
structure RmfileCorrect (depth : Nat) (calloc : Bool) (ns : Ns) (filePath : CString) : Prop where
  removes : ∀ p, ns.denotes filePath = some p → ns.Removable p →
    ∃ ns', rmfile depth calloc ns filePath = some (0, ns') ∧ Removed ns ns' p
  refuses : ns.denotes filePath = none → ∃ r, rmfile depth calloc ns filePath = some (r, ns) ∧ r ≠ 0

/-- The path starts from the directory `p`, `..` leads from there to itself, and the child that
`rmfile` takes out of its parent is the directory; the new array is allocated, or empty. -/
structure TakesOut (ns : Ns) (calloc : Bool) (filePath : CString) (p : Ptr) : Prop where
  origin : ns.origin filePath = p
  stays : ns.directories.upper p = p
  place : ∃ n m, ns.node p = some n ∧ ns.node n.parent = some m ∧
    m.child[erasedPlace filePath m]? = some p ∧ (calloc ∨ m.child.length = 1)

section Trees
variable {ns : Ns}

theorem strcmp_self (s : List UInt8) : strcmp s s = 0 := by
  induction s with
  | nil => rfl
  | cons a s ih => simp [strcmp, ih]

/-- No child is there twice. -/
theorem Ns.WellFormed.child_nodup (h : ns.WellFormed) {p : Ptr} {n : NsNode} (hn : ns.node p = some n) :
    n.child.Nodup := by
  refine List.Pairwise.imp_of_mem (fun {a b} ha _ hab heq => ?_) (h.sorted p n hn)
  obtain ⟨-, m, hm, -⟩ := h.child p n hn a ha
  have hlt := hab m m hm (heq ▸ hm)
  rw [strcmp_self] at hlt
  exact absurd hlt (Int.lt_irrefl 0)

/-- A node is a child of its parent only. -/
theorem Ns.WellFormed.parent_eq (h : ns.WellFormed) {p q : Ptr} {n m : NsNode} (hn : ns.node p = some n)
    (hm : ns.node q = some m) (hmem : p ∈ m.child) : n.parent = q := by
  obtain ⟨-, n', hn', hparent⟩ := h.child q m hm p hmem
  cases hn.symm.trans hn'
  exact hparent

end Trees

/-- Erasing at a place erases the member that is there. -/
theorem eraseIdx_eq_erase_iff {l : List Ptr} (hl : l.Nodup) {p : Ptr} (hp : p ∈ l) {i : Nat}
    (hi : i < l.length) : l.eraseIdx i = l.erase p ↔ l[i]? = some p := by
  constructor
  · intro heq
    by_contra hne
    rw [List.getElem?_eq_getElem hi, Option.some.injEq] at hne
    have hmem : l[i] ∈ l.erase p := (List.mem_erase_of_ne hne).mpr (List.getElem_mem hi)
    rw [← heq, List.mem_eraseIdx_iff_getElem] at hmem
    obtain ⟨j, hj, hji, hsame⟩ := hmem
    exact hji ((List.getElem_inj hl).mp hsame)
  · intro heq
    obtain ⟨hi', rfl⟩ := List.getElem?_eq_some_iff.mp heq
    rw [List.erase_eq_eraseIdx_of_idxOf (hl.idxOf_getElem i hi')]

/-- Erasing a member leaves a search as it was, when the search does not end at it. -/
theorem find?_erase {l : List Ptr} {p : Ptr} {f g : Ptr → Bool} (hsame : ∀ q ≠ p, g q = f q)
    (hp : g p = false) (hfind : l.find? f ≠ some p) : (l.erase p).find? g = l.find? f := by
  induction l with
  | nil => rfl
  | cons a l ih =>
    by_cases hap : a = p
    · subst hap
      cases hf : f a with
      | true => exact absurd (List.find?_cons_of_pos hf) hfind
      | false =>
        rw [List.find?_cons_of_neg (by simp [hf]), List.erase_cons_head]
        congr 1
        funext q
        by_cases hq : q = a
        · rw [hq, hp, hf]
        · exact hsame q hq
    · have hga := hsame a hap
      rw [List.erase_cons_tail (by simpa using hap)]
      cases hf : f a with
      | true => rw [List.find?_cons_of_pos hf, List.find?_cons_of_pos (hga.trans hf)]
      | false =>
        have hf' : ¬ f a = true := by simp [hf]
        have hg' : ¬ g a = true := by simp [hga, hf]
        rw [List.find?_cons_of_neg hf'] at hfind
        rw [List.find?_cons_of_neg hf', List.find?_cons_of_neg hg', ih hfind]

/-! ### A namespace without one directory -/

section Without
variable {ns : Ns} {d : Ptr} {n m : NsNode} {i : Nat}

theorem Ns.removed_node (hm : ns.node n.parent = some m) (q : Ptr) :
    (ns.removed d n.parent m i).node q = if q = d then none else (ns.node q).map fun x =>
      if q = n.parent then {x with child := x.child.eraseIdx i, howManyChildren := x.howManyChildren - 1} else x := by
  by_cases hq : q = d
  · rw [if_pos hq, hq]
    exact Function.update_self ..
  · rw [if_neg hq]
    refine (Function.update_of_ne hq _ _).trans ?_
    by_cases hqp : q = n.parent
    · simp [hqp, hm]
    · simp [hqp]

theorem Ns.removed_isDir (hm : ns.node n.parent = some m) {q : Ptr} (hq : q ≠ d) :
    (ns.removed d n.parent m i).isDir q = ns.isDir q := by
  rw [isDir, isDir, removed_node hm, if_neg hq, Option.any_map]
  refine congrArg (Option.any · (ns.node q)) (funext fun x => ?_)
  split <;> rfl

theorem Ns.removed_follow (hm : ns.node n.parent = some m) (hfollow : ns.follow d = d)
    (q : Ptr) : (ns.removed d n.parent m i).follow q = ns.follow q := by
  by_cases hq : q = d
  · rw [hq, hfollow, follow, removed_node hm, if_pos rfl]
    rfl
  · have hany : ((ns.removed d n.parent m i).node q).any
          (fun x => isDirFile x.fileType && isSharedFlagSet x.fileType) =
        (ns.node q).any fun x => isDirFile x.fileType && isSharedFlagSet x.fileType := by
      rw [removed_node hm, if_neg hq, Option.any_map]
      refine congrArg (Option.any · (ns.node q)) (funext fun x => ?_)
      split <;> rfl
    rw [follow, follow, hany]
    rfl

theorem Ns.removed_upper (hm : ns.node n.parent = some m) (hfollow : ns.follow d = d)
    {q : Ptr} (hq : q ≠ d) : (ns.removed d n.parent m i).directories.upper q = ns.directories.upper q := by
  simp only [directories, removed_node hm, if_neg hq, removed_follow hm hfollow]
  cases ns.node q with
  | none => rfl
  | some x =>
    simp only [Option.map_some, Option.elim_some]
    split <;> rfl

theorem Ns.removed_child (hns : ns.WellFormed) (hn : ns.node d = some n) (hm : ns.node n.parent = some m)
    (hfollow : ns.follow d = d) (hplace : m.child.eraseIdx i = m.child.erase d) {q : Ptr} (hq : q ≠ d)
    {k : List UInt8} (hk : ns.directories.child q k ≠ some d) :
    (ns.removed d n.parent m i).directories.child q k = ns.directories.child q k := by
  cases hx : ns.node q with
  | none => simp [directories, removed_node hm, hq, hx]
  | some x =>
    -- the children of any node but `d`, with `d` left out
    have hchild : ∃ x', (ns.removed d n.parent m i).node q = some x' ∧ x'.child = x.child.erase d := by
      rw [removed_node hm, if_neg hq, hx, Option.map_some]
      by_cases hqp : q = n.parent
      · subst hqp
        cases hm.symm.trans hx
        exact ⟨_, rfl, by rw [if_pos rfl, hplace]⟩
      · refine ⟨_, rfl, ?_⟩
        rw [if_neg hqp, List.erase_of_not_mem fun hmem => hqp (hns.parent_eq hn hx hmem).symm]
    obtain ⟨x', hx', hchild⟩ := hchild
    simp only [directories, hx, Option.bind_some, hx', hchild] at hk ⊢
    rw [find?_erase (p := d) (f := fun r => (ns.node r).any fun y => decide (y.name.bytes = k)) _ _ _]
    · congr 1
      funext r
      exact removed_follow hm hfollow r
    · intro r hr
      rw [removed_node hm, if_neg hr, Option.any_map]
      refine congrArg (Option.any · (ns.node r)) (funext fun y => ?_)
      by_cases hrp : r = n.parent <;> simp [hrp]
    · rw [removed_node hm, if_pos rfl]
      rfl
    · intro hfind
      rw [hfind, Option.map_some, hfollow] at hk
      exact hk rfl

end Without

/-! ### Where paths lead -/

section Paths
variable {ns : Ns}

theorem Ns.WellFormed.parent_live (h : ns.WellFormed) {p : Ptr} {n : NsNode} (hn : ns.node p = some n) :
    ∃ m, ns.node n.parent = some m := by
  by_cases hroot : p = ns.cfsRootDir
  · obtain ⟨r, hr, -, hparent⟩ := h.root
    rw [hroot] at hn
    cases hr.symm.trans hn
    exact ⟨n, by rw [hparent, hr]⟩
  · obtain ⟨m, hm, -⟩ := h.parent_spec hn hroot
    exact ⟨m, hm⟩

/-- A path leads only to nodes that are there. -/
theorem Ns.WellFormed.leads_live (h : ns.WellFormed) {p q : Ptr} {l : List (Component (List UInt8))}
    (hleads : Leads ns.directories p l q) (hp : ∃ n, ns.node p = some n) : ∃ n, ns.node q = some n := by
  induction hleads with
  | nil => exact hp
  | @upper p _ _ _ _ ih =>
    obtain ⟨n, hn⟩ := hp
    refine ih ?_
    simp only [directories, hn, Option.elim_some]
    split
    · exact h.follow_live (isDir_live h.home)
    · exact h.follow_live (h.parent_live hn)
  | @name p k q _ _ _ hk _ ih =>
    obtain ⟨n, hn⟩ := hp
    simp only [directories, hn, Option.bind_some] at hk
    obtain ⟨r, hr, rfl⟩ := Option.map_eq_some_iff.mp hk
    obtain ⟨-, m, hm, -⟩ := h.child p n hn r (List.mem_of_find?_eq_some hr)
    exact ih (h.follow_live ⟨m, hm⟩)

/-- From where a path starts another starts that has no components, and another that has
the step to the upper directory only. -/
theorem Ns.startingNode_alike (ns : Ns) (path : CString) :
    (∃ q, ns.startingNode q = ns.startingNode path ∧ components q = []) ∧
    ∃ q, ns.startingNode q = ns.startingNode path ∧ components q = [.upper] := by
  by_cases h : path.bytes.head? = some 47
  · refine ⟨⟨⟨[47], by decide⟩, ?_, by decide⟩, ⟨[47, 46, 46], by decide⟩, ?_, by decide⟩
    · rw [startingNode, startingNode, if_pos h]
      rfl
    · rw [startingNode, startingNode, if_pos h]
      rfl
  · refine ⟨⟨⟨[], by decide⟩, ?_, by decide⟩, ⟨[46, 46], by decide⟩, ?_, by decide⟩
    · rw [startingNode, startingNode, if_neg h]
      rfl
    · rw [startingNode, startingNode, if_neg h]
      rfl

end Paths

/-! ### What is removed -/

section Correct
variable {ns : Ns} {depth : Nat} {calloc : Bool} {filePath : CString}

/-- What a removal that returns has done. -/
theorem rmfile_some (hns : ns.WellFormed) {r : UInt32} {ns' : Ns}
    (h : rmfile depth calloc ns filePath = some (r, ns')) :
    ∃ n m, ns.node (ns.origin filePath) = some n ∧ ns.node n.parent = some m ∧ r = 0 ∧
      ns.origin filePath ≠ ns.cfsRootDir ∧ (calloc ∨ m.child.length = 1) ∧
      ns' = ns.removed (ns.origin filePath) n.parent m (erasedPlace filePath m) := by
  obtain ⟨n, hn⟩ := Ns.isDir_live (hns.origin_isDir filePath)
  obtain ⟨m, hm⟩ := hns.parent_live hn
  rw [rmfile_eq hns depth calloc filePath hn hm] at h
  split at h
  · cases h
  · rename_i hcond
    cases h
    refine ⟨n, m, hn, hm, rfl, fun hroot => hcond (.inl hroot), ?_, rfl⟩
    by_contra hcalloc
    rw [not_or] at hcalloc
    exact hcond (.inr ⟨by simpa using hcalloc.1, hcalloc.2⟩)

/-- The place that `rmfile` leaves out is there. -/
theorem erasedPlace_lt {m : NsNode} (h : 0 < m.child.length) : erasedPlace filePath m < m.child.length := by
  rw [erasedPlace]
  omega

/-- Only the directory that the path starts from is ever removed rightly, and that only where
no path leads away from it. -/
theorem Removed.takesOut (hns : ns.WellFormed) {p : Ptr} {ns' : Ns}
    (h : rmfile depth calloc ns filePath = some (0, ns')) (hremoved : Removed ns ns' p) :
    TakesOut ns calloc filePath p := by
  obtain ⟨n, m, hn, hm, -, hroot, hcalloc, rfl⟩ := rmfile_some hns h
  obtain ⟨⟨q, hq, hqc⟩, ⟨u, hu, huc⟩⟩ := ns.startingNode_alike filePath
  obtain ⟨m', hm', hmem⟩ := hns.parent_spec hn hroot
  cases hm.symm.trans hm'
  -- the path with no components leads to the directory that is freed
  have horigin : ns.origin filePath = p := by
    by_contra hne
    have hdenotes : ns.denotes q = some (ns.origin filePath) := by
      rw [Ns.denotes_eq, hq, hqc]
      exact .nil _
    obtain ⟨-, x, hx⟩ := hremoved.kept q _ hdenotes hne
    rw [Ns.removed_node hm, if_pos rfl] at hx
    cases hx
  subst horigin
  have hdir := hns.origin_isDir filePath
  refine ⟨rfl, ?_, n, m, hn, hm, ?_, hcalloc⟩
  · by_contra hne
    have hdenotes : ns.denotes u = some (ns.directories.upper (ns.origin filePath)) := by
      rw [Ns.denotes_eq, hu, huc]
      exact .upper hdir (.nil _)
    obtain ⟨hsame, -⟩ := hremoved.kept u _ hdenotes hne
    -- `..` led somewhere from there, and there is no directory any more
    have hgone : (ns.removed (ns.origin filePath) n.parent m (erasedPlace filePath m)).isDir
        (ns.origin filePath) = false := by
      rw [Ns.isDir, Ns.removed_node hm, if_pos rfl]
      rfl
    have hstart : (ns.removed (ns.origin filePath) n.parent m (erasedPlace filePath m)).startingNode u =
        ns.startingNode filePath := hu
    rw [Ns.resolve, Ns.resolve, hstart, hu, huc, Ns.removed_follow hm Ns.follow_follow,
      resolve_notDir (D := Ns.directories _) hgone, resolve_upper (D := ns.directories) hdir] at hsame
    cases congrArg Returned.ret hsame
  · obtain ⟨n₁, m₁, m', hn₁, hm₁, hm', hchild, -⟩ := hremoved.children
    cases hn.symm.trans hn₁
    cases hm.symm.trans hm₁
    rw [Ns.removed_node hm, if_neg (hns.parent_ne hn hroot), hm, Option.map_some, if_pos rfl] at hm'
    cases hm'
    exact (eraseIdx_eq_erase_iff (hns.child_nodup hm) hmem (erasedPlace_lt (List.length_pos_of_mem hmem))).mp hchild

/-- A directory that no path leads away from is removed rightly by its own place. -/
theorem TakesOut.removed (hns : ns.WellFormed) {p : Ptr} (h : TakesOut ns calloc filePath p)
    (hrem : ns.Removable p) (depth : Nat) :
    ∃ ns', rmfile depth calloc ns filePath = some (0, ns') ∧ Removed ns ns' p := by
  obtain ⟨rfl, hupper, n, m, hn, hm, hplace, hcalloc⟩ := h
  obtain ⟨hroot, n', hn', hkind⟩ := hrem
  cases hn.symm.trans hn'
  have hmem := List.mem_of_getElem? hplace
  have hlt : erasedPlace filePath m < m.child.length := erasedPlace_lt (List.length_pos_of_mem hmem)
  have herase := (eraseIdx_eq_erase_iff (hns.child_nodup hm) hmem hlt).mpr hplace
  have hparent := hns.parent_ne hn hroot
  have hnode := Ns.removed_node (d := ns.origin filePath) (i := erasedPlace filePath m) hm
  have hempty : n.child = [] := by
    obtain hreg | ⟨-, hempty⟩ := hkind
    · refine hns.childless _ n hn ?_
      simp only [isRegFile, regularFile, UInt8.or_zero, beq_iff_eq] at hreg
      simp [isDirFile, hreg]
    · exact hempty
  have hstays {l : List (Component (List UInt8))} {q : Ptr}
      (hl : Leads ns.directories (ns.origin filePath) l q) : q = ns.origin filePath :=
    hl.stays hupper fun k => by simp [Ns.directories, hn, hempty]
  refine ⟨ns.removed (ns.origin filePath) n.parent m (erasedPlace filePath m), ?_, ⟨n, m, {m with
    child := m.child.eraseIdx (erasedPlace filePath m)
    howManyChildren := m.howManyChildren - 1}, hn, hm, ?_, herase, ?_⟩, fun path q hq hne => ?_⟩
  · rw [rmfile_eq hns depth calloc filePath hn hm, if_neg]
    intro hc
    obtain hc | ⟨hc, hlen⟩ := hc
    · exact hroot hc
    · exact hlen (hcalloc.resolve_left (by simp [hc]))
  · rw [hnode, if_neg hparent, hm, Option.map_some, if_pos rfl]
  · rw [hns.howMany_pred hm (List.length_pos_of_mem hmem), List.length_eraseIdx_of_lt hlt]
  · have hleads := Ns.denotes_eq.mp hq
    have hlive := hns.leads_live hleads (hns.follow_live (hns.start_live path))
    refine ⟨?_, ?_⟩
    · have hstart : (ns.removed (ns.origin filePath) n.parent m (erasedPlace filePath m)).startingNode path =
          ns.startingNode path := rfl
      rw [Ns.resolve, Ns.resolve, hstart, Ns.removed_follow hm Ns.follow_follow]
      congr 1
      exact resolve_avoids hstays (fun r hr => Ns.removed_isDir hm hr)
        (fun r hr _ => Ns.removed_upper hm Ns.follow_follow hr)
        (fun r hr k hk => Ns.removed_child hns hn hm Ns.follow_follow herase hr hk) hleads hne
    · obtain ⟨x, hx⟩ := hlive
      rw [hnode, if_neg hne, hx]
      exact ⟨_, rfl⟩

end Correct

/-- **`rmfile` does what is asked** just when the path denotes a file that it need not remove,
the root or a directory with children, or the one that it takes out. -/
theorem rmfile_correct {ns : Ns} (hns : ns.WellFormed) (depth : Nat) (calloc : Bool) (filePath : CString) :
    RmfileCorrect depth calloc ns filePath ↔
      ∃ p, ns.denotes filePath = some p ∧ (ns.Removable p → TakesOut ns calloc filePath p) := by
  constructor
  · intro h
    cases hp : ns.denotes filePath with
    | none =>
      obtain ⟨r, hr, hne⟩ := h.refuses hp
      obtain ⟨_, _, _, _, hzero, -⟩ := rmfile_some hns hr
      exact absurd hzero hne
    | some p =>
      refine ⟨p, rfl, fun hrem => ?_⟩
      obtain ⟨ns', hrm, hremoved⟩ := h.removes p hp hrem
      exact hremoved.takesOut hns hrm
  · intro h
    obtain ⟨p, hp, htakes⟩ := h
    refine ⟨fun q hq hrem => ?_, fun hnone => ?_⟩
    · cases hp.symm.trans hq
      exact (htakes hrem).removed hns hrem depth
    · rw [hp] at hnone
      cases hnone

/-- In `a` the path `../s` denotes the shared directory, which has no children, and `rmfile` frees
`a`. -/
theorem rmfile_incorrect : ∃ ns path, ns.WellFormed ∧ ns.denotes path = some 2 ∧ ns.Removable 2 ∧
    ∀ depth, (∃ ns', rmfile depth true ns path = some (0, ns') ∧ ns'.node 1 = none ∧ ∃ n, ns'.node 2 = some n) ∧
      ¬ RmfileCorrect depth true ns path := by
  have hns := smallNs_wellFormed 1 rfl
  have hrem : (smallNs 1).Removable 2 := ⟨Nat.succ_ne_zero 1, _, rfl, .inr ⟨rfl, rfl⟩⟩
  have hdenotes : (smallNs 1).denotes ⟨[46, 46, 47, 115], by decide⟩ = some 2 := by decide
  refine ⟨smallNs 1, ⟨[46, 46, 47, 115], by decide⟩, hns, hdenotes, hrem, fun depth => ⟨?_, fun h => ?_⟩⟩
  · exact ⟨_, rmfile_eq hns depth true _ rfl rfl, rfl, _, rfl⟩
  · obtain ⟨ns', hrm, hremoved⟩ := h.removes 2 hdenotes hrem
    exact absurd (hremoved.takesOut hns hrm).origin (by decide)

/-- The empty path denotes the shared directory, and `rmfile` takes it out of the root. -/
theorem rmfile_correct_shared : ∃ ns path p, ns.WellFormed ∧ ns.denotes path = some p ∧ ns.Removable p ∧
    ∀ depth calloc, RmfileCorrect depth calloc ns path := by
  have hrem : oneDirNs.Removable 1 := ⟨Nat.succ_ne_zero 0, _, rfl, .inr ⟨rfl, rfl⟩⟩
  have hdenotes : oneDirNs.denotes ⟨[], by decide⟩ = some 1 := by decide
  refine ⟨oneDirNs, ⟨[], by decide⟩, 1, oneDirNs_wellFormed, hdenotes, hrem, fun depth calloc => ?_⟩
  refine (rmfile_correct oneDirNs_wellFormed depth calloc _).mpr ⟨1, hdenotes, fun _ => ?_⟩
  exact ⟨by decide, by decide, _, _, rfl, rfl, by decide, .inr rfl⟩

end CacheFs.Namespace
