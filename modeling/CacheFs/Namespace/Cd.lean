import CacheFs.Namespace.Files
import CacheFs.Namespace.PathLookup

/-! Whether `cd` reports what it did.

It goes to the directory that its path starts from, whatever the path names, and refuses
that directory when it has a flag, as `/shared` has. So it is right just for the paths
that lead back to an unflagged start, and from a flagged one for the paths that
denote no directory (`cd_correct`). -/
namespace CacheFs.Namespace
open Lookup

/-- `cd` goes to the directory that the path denotes and returns 0, and it returns another code
and stays where the path denotes none. -/
structure CdCorrect (depth : Nat) (ns : Ns) (filePath : CString) : Prop where
  goes : ∀ d, ns.denotes filePath = some d → ns.isDir d →
    cd depth ns filePath = some (0, {ns with currentWorkingDir := d})
  stays : (∀ d, ns.denotes filePath = some d → ¬ ns.isDir d) → ∃ r, r ≠ 0 ∧ cd depth ns filePath = some (r, ns)

/-- **`cd` reports what it did** just when the directory that the path starts from is unflagged
and is what the path denotes, or it is flagged and the path denotes no directory. -/
theorem cd_correct {ns : Ns} (hns : ns.WellFormed) (depth : Nat) (filePath : CString) :
    CdCorrect depth ns filePath ↔
      (ns.Unflagged (ns.origin filePath) ∧ ns.denotes filePath = some (ns.origin filePath)) ∨
      (¬ ns.Unflagged (ns.origin filePath) ∧ ∀ d, ns.denotes filePath = some d → ¬ ns.isDir d) := by
  by_cases hflag : ns.Unflagged (ns.origin filePath)
  · have hcd := cd_unflagged hns depth hflag
    simp only [hflag, true_and, not_true_eq_false, false_and, or_false]
    constructor
    · intro h
      by_cases hnone : ∀ d, ns.denotes filePath = some d → ¬ ns.isDir d
      · obtain ⟨r, hr, hstays⟩ := h.stays hnone
        have heq := congrArg Prod.fst (Option.some.inj (hcd.symm.trans hstays))
        exact absurd heq.symm hr
      · push Not at hnone
        obtain ⟨d, hd, hdir⟩ := hnone
        have heq := Option.some.inj (hcd.symm.trans (h.goes d hd hdir))
        have hd' : ns.origin filePath = d := congrArg (fun x => x.2.currentWorkingDir) heq
        rw [hd, hd']
    · intro h
      refine ⟨fun d hd _ => ?_, fun hnone => ?_⟩
      · cases h.symm.trans hd
        exact hcd
      · exact absurd (hns.origin_isDir filePath) (hnone _ h)
  · have hcd := cd_flagged hns depth hflag
    simp only [hflag, false_and, not_false_eq_true, true_and, false_or]
    constructor
    · intro h d hd hdir
      cases hcd.symm.trans (h.goes d hd hdir)
    · intro h
      exact ⟨fun d hd hdir => absurd hdir (h d hd), fun _ => ⟨1, by decide, hcd⟩⟩

/-- In the root, `cd a` stays and returns 0, and so does `cd x` where there is no `x`; and in the
shared directory `cd ..` returns 1. -/
theorem cd_incorrect : ∃ ns ns' path path' path'', ns.WellFormed ∧ ns'.WellFormed ∧
    ns.denotes path = some 1 ∧ ns.isDir 1 ∧ ns.denotes path' = none ∧ ns'.denotes path'' = some 1 ∧ ns'.isDir 1 ∧
    ∀ depth, cd depth ns path = some (0, ns) ∧ ¬ CdCorrect depth ns path ∧
      cd depth ns path' = some (0, ns) ∧ ¬ CdCorrect depth ns path' ∧
      cd depth ns' path'' = some (1, ns') ∧ ¬ CdCorrect depth ns' path'' := by
  have hns := smallNs_wellFormed 0 rfl
  have hns' := smallNs_wellFormed 2 rfl
  have ha : (smallNs 0).denotes ⟨[97], by decide⟩ = some 1 := by decide
  have hx : (smallNs 0).denotes ⟨[120], by decide⟩ = none := by decide
  have hup : (smallNs 2).denotes ⟨[46, 46], by decide⟩ = some 1 := by decide
  have hcd (path : CString) (hpath : path.bytes.head? ≠ some 47) (depth : Nat) :
      cd depth (smallNs 0) path = some (0, smallNs 0) := by
    have horigin : (smallNs 0).origin path = 0 := by
      rw [Ns.origin, Ns.startingNode, if_neg hpath]
      rfl
    have hroot : (smallNs 0).Unflagged ((smallNs 0).origin path) := by
      rw [horigin]
      exact ⟨_, rfl, rfl⟩
    rw [cd_unflagged hns depth hroot, horigin]
    rfl
  have hcd' (depth : Nat) : cd depth (smallNs 2) ⟨[46, 46], by decide⟩ = some (1, smallNs 2) := by
    refine cd_flagged hns' depth fun h => ?_
    obtain ⟨n, hn, htype⟩ := h
    cases hn
    cases htype
  refine ⟨smallNs 0, smallNs 2, _, _, _, hns, hns', ha, rfl, hx, hup, rfl, fun depth => ?_⟩
  refine ⟨hcd _ (by decide) depth, fun h => ?_, hcd _ (by decide) depth, fun h => ?_, hcd' depth, fun h => ?_⟩
  · cases congrArg (Option.map fun x => x.2.currentWorkingDir) ((hcd _ (by decide) depth).symm.trans (h.goes 1 ha rfl))
  · obtain ⟨r, hr, hstays⟩ := h.stays fun d hd => by cases hx.symm.trans hd
    cases congrArg (Option.map Prod.fst) ((hcd _ (by decide) depth).symm.trans hstays)
    exact hr rfl
  · cases congrArg (Option.map Prod.fst) ((hcd' depth).symm.trans (h.goes 1 hup rfl))

/-- In `a` the path `../a` is where `cd` is already. -/
theorem cd_correct_back : ∃ ns path, ns.WellFormed ∧ components path = [.upper, .name [97]] ∧ CdCorrect 1 ns path := by
  have hns := smallNs_wellFormed 1 rfl
  refine ⟨smallNs 1, ⟨[46, 46, 47, 97], by decide⟩, hns, by decide, (cd_correct hns 1 _).mpr (.inl ⟨?_, by decide⟩)⟩
  exact ⟨_, rfl, rfl⟩

end CacheFs.Namespace
