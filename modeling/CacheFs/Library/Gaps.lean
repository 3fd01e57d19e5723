import Mathlib.Data.List.NodupEquivFin
import Mathlib.Data.List.Count
import Mathlib.Order.Bounds.Basic
import Mathlib.Data.Int.Init

/-! Gaps in a sorted list of integers.

There is a gap behind a value when what comes next is not its successor, where the list
is taken to go on with 0. When there may be several gaps and any of them may be looked
at, the value before it leads to the least free number just when the list goes up in
steps of one and only its last value is repeated (`all_gaps_least`). -/
namespace Gaps

/-- There is a gap behind the value `v` at place `i`. -/
def Gap (l : List ℤ) (i : ℕ) (v : ℤ) : Prop := l[i]? = some v ∧ l[i + 1]?.getD 0 ≠ v + 1

/-- The numbers from 0 on that are not in the list. -/
def free (l : List ℤ) : Set ℤ := {v | 0 ≤ v ∧ v ∉ l}

/-- The list has just the numbers from some number up to `m`, and those below `m` once. -/
structure Steps (l : List ℤ) (m : ℤ) : Prop where
  top : 0 ≤ m
  mem : ∃ k, k ≤ 0 ∧ ∀ v, v ∈ l ↔ k ≤ v ∧ v ≤ m
  once : ∀ v < m, l.count v ≤ 1

variable {l : List ℤ} {i j : ℕ} {v w m : ℤ}

theorem Steps.perm {l' : List ℤ} (h : Steps l m) (hperm : l.Perm l') : Steps l' m := by
  obtain ⟨k, hk, hmem⟩ := h.mem
  refine ⟨h.top, ⟨k, hk, fun v => ?_⟩, fun v hv => ?_⟩
  · rw [← hperm.mem_iff, hmem]
  · rw [← hperm.count_eq]
    exact h.once v hv

/-- Above a list that has all numbers from 0 to `m`, the least free one is next. -/
theorem Steps.least (h : Steps l m) : IsLeast (free l) (m + 1) := by
  obtain ⟨k, hk, hmem⟩ := h.mem
  have htop := h.top
  refine ⟨⟨by omega, fun hin => ?_⟩, fun v hv => ?_⟩
  · have := ((hmem _).mp hin).2
    omega
  · obtain ⟨hv0, hvl⟩ := hv
    rw [hmem] at hvl
    omega

theorem sorted_le (hs : l.Pairwise (· ≤ ·)) (hij : i ≤ j) (hi : l[i]? = some v) (hj : l[j]? = some w) : v ≤ w := by
  obtain ⟨hi', rfl⟩ := List.getElem?_eq_some_iff.mp hi
  obtain ⟨hj', rfl⟩ := List.getElem?_eq_some_iff.mp hj
  obtain hlt | rfl := Nat.lt_or_eq_of_le hij
  · exact List.pairwise_iff_getElem.mp hs i j hi' hj' hlt
  · exact le_rfl

/-- A value that has another of its kind before it is not the only one. -/
theorem two_le_count (hij : i < j) (hi : l[i]? = some v) (hj : l[j]? = some v) : 2 ≤ l.count v := by
  obtain ⟨hi', rfl⟩ := List.getElem?_eq_some_iff.mp hi
  obtain ⟨hj', hv⟩ := List.getElem?_eq_some_iff.mp hj
  exact List.duplicate_iff_two_le_count.mp
    (List.duplicate_iff_exists_distinct_get.mpr ⟨⟨i, hi'⟩, ⟨j, hj'⟩, hij, rfl, hv.symm⟩)

/-- In a list that goes up in steps of one the successor comes next. -/
theorem Steps.next (h : Steps l m) (hs : l.Pairwise (· ≤ ·)) (hi : l[i]? = some v) (hv : v < m) :
    l[i + 1]? = some (v + 1) := by
  obtain ⟨k, -, hmem⟩ := h.mem
  have hkv := (hmem v).mp (List.mem_of_getElem? hi)
  obtain ⟨j, hj⟩ := List.mem_iff_getElem?.mp ((hmem (v + 1)).mpr ⟨by omega, by omega⟩)
  have hij : i < j := by
    apply Classical.byContradiction
    intro hji
    have := sorted_le hs (Nat.le_of_not_lt hji) hj hi
    omega
  obtain ⟨w, hw⟩ : ∃ w, l[i + 1]? = some w := by
    obtain ⟨hlen, -⟩ := List.getElem?_eq_some_iff.mp hj
    exact ⟨_, List.getElem?_eq_getElem (by omega)⟩
  have hle := sorted_le hs hij hw hj
  have hge := sorted_le hs (Nat.le_succ i) hi hw
  have hne : w ≠ v := by
    intro heq
    have := two_le_count (Nat.lt_succ_self i) hi (heq ▸ hw)
    have := h.once v hv
    omega
  rw [hw]
  congr 1
  omega

/-- Where every gap leads to the least free number, the list goes up in steps of one. -/
theorem steps_of_gaps (hs : l.Pairwise (· ≤ ·)) (hi : l[i]? = some m) (hlast : i + 1 = l.length) (hm : 0 ≤ m)
    (hgaps : ∀ i v, Gap l i v → IsLeast (free l) (v + 1)) : Steps l m := by
  have hend : l[i + 1]? = none := List.getElem?_eq_none (by omega)
  have hleast : IsLeast (free l) (m + 1) := hgaps i m ⟨hi, by rw [hend, Option.getD_none]; omega⟩
  have hbound {v : ℤ} (hv : v ∈ l) : v ≤ m := by
    obtain ⟨j, hj⟩ := List.mem_iff_getElem?.mp hv
    obtain ⟨hlen, -⟩ := List.getElem?_eq_some_iff.mp hj
    exact sorted_le hs (by omega) hj hi
  have hnext {j : ℕ} {v : ℤ} (hj : l[j]? = some v) (hv : v < m) : l[j + 1]? = some (v + 1) := by
    have hno : ¬ Gap l j v := by
      intro hgap
      have := (hgaps j v hgap).unique hleast
      omega
    cases hw : l[j + 1]? with
    | none =>
      have hlen := List.getElem?_eq_none_iff.mp hw
      have := sorted_le hs (by omega) hi hj
      omega
    | some w => simpa [Gap, hj, hw] using hno
  have hzero : (0 : ℤ) ∈ l := by
    apply Classical.byContradiction
    intro hout
    have := hleast.2 ⟨le_rfl, hout⟩
    omega
  obtain ⟨k, hk⟩ : ∃ k, l[0]? = some k := ⟨_, List.getElem?_eq_getElem (by omega)⟩
  refine ⟨hm, ⟨k, ?_, fun v => ⟨fun hv => ⟨?_, hbound hv⟩, fun hv => ?_⟩⟩, fun v hv => ?_⟩
  · obtain ⟨j, hj⟩ := List.mem_iff_getElem?.mp hzero
    exact sorted_le hs (Nat.zero_le j) hk hj
  · obtain ⟨j, hj⟩ := List.mem_iff_getElem?.mp hv
    exact sorted_le hs (Nat.zero_le j) hk hj
  · -- up from the first value, one step at a time
    obtain ⟨hkv, hvm⟩ := hv
    induction v, hkv using Int.leInduction with
    | base => exact List.mem_of_getElem? hk
    | succ v _ ih =>
      obtain ⟨j, hj⟩ := List.mem_iff_getElem?.mp (ih (by omega))
      exact List.mem_of_getElem? (hnext hj (by omega))
  · apply Classical.byContradiction
    intro hcount
    obtain ⟨p, q, hpq, hp, hq⟩ :=
      List.duplicate_iff_exists_distinct_get.mp (List.duplicate_iff_two_le_count.mpr (Nat.lt_of_not_le hcount))
    have hp' : l[p.val]? = some v := List.getElem?_eq_some_iff.mpr ⟨p.isLt, hp.symm⟩
    have hq' : l[q.val]? = some v := List.getElem?_eq_some_iff.mpr ⟨q.isLt, hq.symm⟩
    have := sorted_le hs hpq (hnext hp' hv) hq'
    omega

/-- **Every gap of a sorted list leads to the least free number** just when the list goes up in
steps of one to a number that is not negative. -/
theorem all_gaps_least (hs : l.Pairwise (· ≤ ·)) :
    ((∃ i m, l[i]? = some m ∧ i + 1 = l.length ∧ 0 ≤ m) ∧ ∀ i v, Gap l i v → IsLeast (free l) (v + 1)) ↔
      ∃ m, Steps l m := by
  constructor
  · intro h
    obtain ⟨⟨i, m, hi, hlast, hm⟩, hgaps⟩ := h
    exact ⟨m, steps_of_gaps hs hi hlast hm hgaps⟩
  · intro h
    obtain ⟨m, hsteps⟩ := h
    obtain ⟨k, hk, hmem⟩ := hsteps.mem
    have htop := hsteps.top
    refine ⟨?_, fun i v hgap => ?_⟩
    · obtain ⟨j, hj⟩ := List.mem_iff_getElem?.mp ((hmem m).mpr ⟨by omega, le_rfl⟩)
      obtain ⟨hlen, -⟩ := List.getElem?_eq_some_iff.mp hj
      have hlast := List.getElem?_eq_getElem (l := l) (i := l.length - 1) (by omega)
      have := sorted_le hs (by omega) hj hlast
      exact ⟨l.length - 1, _, hlast, by omega, by omega⟩
    · have hv := ((hmem v).mp (List.mem_of_getElem? hgap.1)).2
      obtain hlt | rfl := Int.lt_or_eq_of_le hv
      · have := hsteps.next hs hgap.1 hlt
        exact absurd (by rw [this, Option.getD_some]) hgap.2
      · exact hsteps.least

end Gaps
