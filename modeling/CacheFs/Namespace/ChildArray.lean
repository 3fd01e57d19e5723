import Mathlib.Algebra.Group.Nat.Defs
import CacheFs.Namespace.Tree

/-! The loops that put a child into an array and take one out (`mkfile` and `rmfile`).

`mkfile` has the array made longer, moves what is behind the new place one further, from
the last down, and writes the new child there; `rmfile` copies all children but one into a
new array. What the loops do is `insertIdx` and `eraseIdx`, and one undoes the other
(`children_edited`); only that a count of 2^32 - 1 children has no next
(`children_not_edited`). -/
namespace CacheFs.Namespace

/-- `realloc` of an array of children, with what it leaves in new slots. -/
def realloc (child : List Ptr) (count : Nat) (stale : Ptr) : List Ptr :=
  child.take count ++ List.replicate (count - child.length) stale

/-- The `for` loop of `mkfile` that makes room at `index`, from `j` down. -/
def shiftChildren (index : Nat) : Nat → List Ptr → Option (List Ptr)
  | 0, child => some child
  | j + 1, child =>
    if index < j + 1 then do
      let q ← child[j]?
      if j + 1 < child.length then shiftChildren index j (child.set (j + 1) q) else none
    else some child

/-- The children of `mkfile` and their count, from `realloc` on. -/
def insertChild (child : List Ptr) (howManyChildren index : UInt32) (newFile stale : Ptr) :
    Option (List Ptr × UInt32) := do
  let howManyChildren := howManyChildren + 1
  let child ← shiftChildren index.toNat (howManyChildren - 1).toNat (realloc child howManyChildren.toNat stale)
  if index.toNat < child.length then return (child.set index.toNat newFile, howManyChildren) else none

/-- The `for` loop of `rmfile`: so many children copied, from place `k` on, with the one at
`i` left out. -/
def copyChildren (child : List Ptr) (i : Nat) : Nat → Nat → Option (List Ptr)
  | 0, _ => some []
  | rounds + 1, k => do
    let k := if k = i then k + 1 else k
    let q ← child[k]?
    return q :: (← copyChildren child i rounds (k + 1))

/-- The children of `rmfile` and their count. -/
def removeChild (child : List Ptr) (howManyChildren i : UInt32) : Option (List Ptr × UInt32) := do
  let howManyChildren := howManyChildren - 1
  let child ← copyChildren child i.toNat howManyChildren.toNat 0
  return (child, howManyChildren)

theorem insertIdx_eq {child : List Ptr} {index : Nat} {q : Ptr} (h : index ≤ child.length) :
    child.insertIdx index q = child.take index ++ q :: child.drop index := by
  induction index generalizing child with
  | zero => rfl
  | succ index ih =>
    cases child with
    | nil => cases h
    | cons r child => exact congrArg (r :: ·) (ih (Nat.le_of_succ_le_succ h))

section Shift
variable {child : List Ptr} {index j : Nat}

/-- Every child from `index` to `j` goes one further, and the others stay. -/
theorem shiftChildren_spec (index : Nat) (hj : j < child.length) : ∃ child', shiftChildren index j child = some child' ∧
    child'.length = child.length ∧ ∀ p : Nat, child'[p]? = if index < p ∧ p ≤ j then child[p - 1]? else child[p]? := by
  induction j generalizing child with
  | zero =>
    refine ⟨child, rfl, rfl, fun p => ?_⟩
    rw [if_neg (by omega)]
  | succ j ih =>
    by_cases hindex : index < j + 1
    · have hlt : j < (child.set (j + 1) child[j]).length := by
        rw [List.length_set]
        omega
      obtain ⟨child', hshift, hlen, hget⟩ := ih hlt
      refine ⟨child', ?_, hlen.trans List.length_set, fun p => ?_⟩
      · rw [shiftChildren, if_pos hindex, List.getElem?_eq_getElem (by omega)]
        simp only [Option.bind_eq_bind, Option.bind_some, if_pos hj, hshift]
      · rw [hget, List.getElem?_set, List.getElem?_set]
        by_cases hlast : p = j + 1
        · subst hlast
          simp [hj, hindex]
        · have hpred : index < p ∧ p ≤ j + 1 ↔ index < p ∧ p ≤ j := by omega
          simp only [hpred]
          split
          · rw [if_neg (by omega)]
          · rw [if_neg (Ne.symm hlast)]
    · refine ⟨child, if_neg hindex, rfl, fun p => ?_⟩
      rw [if_neg (by omega)]

/-- In an array without slots there is nothing to read. -/
theorem shiftChildren_nil (index j : Nat) : shiftChildren index j [] = if index < j then none else some [] := by
  cases j with
  | zero => rfl
  | succ j => rfl

end Shift

section Copy
variable {child : List Ptr} {i : Nat}

/-- Past the place to leave out, the children are copied as they are. -/
theorem copyChildren_past {rounds k : Nat} (hk : i < k) (hlen : k + rounds ≤ child.length) :
    copyChildren child i rounds k = some ((child.drop k).take rounds) := by
  induction rounds generalizing k with
  | zero => rfl
  | succ rounds ih =>
    have hlt : k < child.length := by omega
    rw [copyChildren, if_neg (by omega), List.getElem?_eq_getElem hlt]
    simp only [Option.bind_eq_bind, Option.bind_some, ih (k := k + 1) (by omega) (by omega)]
    rw [List.drop_eq_getElem_cons hlt, List.take_succ_cons]
    rfl

/-- All children but one are copied, and that is the last when the place to leave out is
past it. -/
theorem copyChildren_eq {rounds k : Nat} (hk : k ≤ i) (hlen : k + rounds + 1 = child.length) :
    copyChildren child i rounds k = some ((child.drop k).eraseIdx (min (i - k) rounds)) := by
  induction rounds generalizing k with
  | zero =>
    have hlt : k < child.length := by omega
    rw [copyChildren, Nat.min_zero, List.drop_eq_getElem_cons hlt, List.drop_of_length_le (by omega)]
    rfl
  | succ rounds ih =>
    have hlt : k < child.length := by omega
    by_cases hki : k = i
    · subst hki
      have hlt' : k + 1 < child.length := by omega
      have hpast : copyChildren child k rounds (k + 1 + 1) = some (child.drop (k + 1 + 1)) := by
        rw [copyChildren_past (by omega) (by omega), List.take_of_length_le (by rw [List.length_drop]; omega)]
      rw [copyChildren, if_pos rfl, List.getElem?_eq_getElem hlt']
      simp only [Option.bind_eq_bind, Option.bind_some, hpast]
      rw [Nat.sub_self, Nat.zero_min, List.drop_eq_getElem_cons hlt, List.eraseIdx_cons_zero,
        List.drop_eq_getElem_cons hlt']
      rfl
    · rw [copyChildren, if_neg hki, List.getElem?_eq_getElem hlt]
      simp only [Option.bind_eq_bind, Option.bind_some, ih (k := k + 1) (by omega) (by omega)]
      have hmin : min (i - k) (rounds + 1) = min (i - (k + 1)) rounds + 1 := by omega
      rw [List.drop_eq_getElem_cons hlt, hmin, List.eraseIdx_cons_succ]
      rfl

end Copy

section Edits
variable {child : List Ptr} {n index i : UInt32}

theorem toNat_succ (hroom : n.toNat + 1 < 2 ^ 32) : (n + 1).toNat = n.toNat + 1 := by
  rw [UInt32.toNat_add]
  exact Nat.mod_eq_of_lt hroom

theorem succ_pred (n : UInt32) : n + 1 - 1 = n := by
  rw [UInt32.add_sub_cancel]

theorem insertChild_eq (hlen : child.length = n.toNat) (hroom : n.toNat + 1 < 2 ^ 32) (hindex : index ≤ n)
    (newFile stale : Ptr) : insertChild child n index newFile stale = some (child.insertIdx index.toNat newFile, n + 1) := by
  have hle := UInt32.le_iff_toNat_le.mp hindex
  have hgrown : realloc child (n + 1).toNat stale = child ++ [stale] := by
    rw [realloc, toNat_succ hroom, List.take_of_length_le (by omega), hlen, Nat.add_sub_cancel_left,
      List.replicate_one]
  have hlast : n.toNat < (child ++ [stale]).length := by simp [hlen]
  obtain ⟨child', hshift, hlen', hget⟩ := shiftChildren_spec index.toNat hlast
  rw [List.length_append, List.length_singleton, hlen] at hlen'
  have hset : child'.set index.toNat newFile = child.insertIdx index.toNat newFile := by
    refine List.ext_getElem? fun p => ?_
    rw [List.getElem?_set, hget, List.getElem?_insertIdx, hlen']
    by_cases hp : p < index.toNat
    · rw [if_neg (by omega), if_neg (by omega), if_pos hp, List.getElem?_append_left (by omega)]
    · by_cases hhere : p = index.toNat
      · rw [if_pos hhere.symm, if_pos (by omega), if_neg hp, if_pos hhere, if_pos (by omega)]
      · rw [if_neg (Ne.symm hhere), if_neg hp, if_neg hhere]
        by_cases hlast : p ≤ n.toNat
        · rw [if_pos ⟨by omega, hlast⟩, List.getElem?_append_left (by omega)]
        · rw [if_neg (by omega), List.getElem?_eq_none (by simp; omega), List.getElem?_eq_none (by omega)]
  simp only [insertChild, succ_pred, hgrown, hshift, Option.bind_eq_bind, Option.bind_some, hset]
  rw [if_pos (by omega)]
  rfl

theorem removeChild_eq (hlen : child.length = n.toNat) (hi : i < n) :
    removeChild child n i = some (child.eraseIdx i.toNat, n - 1) ∧ (n - 1).toNat + 1 = n.toNat := by
  have hlt := UInt32.lt_iff_toNat_lt.mp hi
  have hpred : (n - 1).toNat + 1 = n.toNat := by
    have hone : (1 : UInt32) ≤ n := UInt32.le_iff_toNat_le.mpr (show 1 ≤ n.toNat by omega)
    rw [UInt32.toNat_sub_of_le _ _ hone]
    exact Nat.sub_add_cancel (UInt32.le_iff_toNat_le.mp hone)
  have hcopy := copyChildren_eq (Nat.zero_le i.toNat) (show 0 + (n - 1).toNat + 1 = child.length by omega)
  have hmin : min (i.toNat - 0) (n - 1).toNat = i.toNat := by omega
  rw [hmin, List.drop_zero] at hcopy
  refine ⟨?_, hpred⟩
  simp only [removeChild, hcopy, Option.bind_eq_bind, Option.bind_some]
  rfl

/-- **The loops insert and remove**: with fewer than 2^32 - 1 children the new one goes in at
its index, any child is taken out, and taking out the one that went in gives back the array. -/
theorem children_edited (hlen : child.length = n.toNat) (newFile stale : Ptr) :
    (n.toNat + 1 < 2 ^ 32 → ∀ index ≤ n, insertChild child n index newFile stale =
        some (child.take index.toNat ++ newFile :: child.drop index.toNat, n + 1) ∧ (n + 1).toNat = n.toNat + 1 ∧
      ∃ child', insertChild child n index newFile stale = some (child', n + 1) ∧
        removeChild child' (n + 1) index = some (child, n)) ∧
    ∀ i < n, removeChild child n i = some (child.take i.toNat ++ child.drop (i.toNat + 1), n - 1) ∧
      (n - 1).toNat + 1 = n.toNat := by
  refine ⟨fun hroom index hindex => ?_, fun i hi => ?_⟩
  · have hle := UInt32.le_iff_toNat_le.mp hindex
    have hinsert := insertChild_eq hlen hroom hindex newFile stale
    refine ⟨?_, toNat_succ hroom, _, hinsert, ?_⟩
    · rw [hinsert, insertIdx_eq (by omega)]
    · have hlen' : (child.insertIdx index.toNat newFile).length = (n + 1).toNat := by
        rw [List.length_insertIdx_of_le_length (by omega), toNat_succ hroom, hlen]
      have hlt : index < n + 1 := by
        rw [UInt32.lt_iff_toNat_lt, toNat_succ hroom]
        omega
      rw [(removeChild_eq hlen' hlt).1, List.eraseIdx_insertIdx_self, succ_pred]
  · rw [(removeChild_eq hlen hi).1, List.eraseIdx_eq_take_drop_succ]
    exact ⟨rfl, (removeChild_eq hlen hi).2⟩

/-- A child more than 2^32 - 1 makes the count 0, and with it the array empty. -/
theorem children_not_edited : ∃ (child : List Ptr) (n : UInt32), child.length = n.toNat ∧ n.toNat = 2 ^ 32 - 1 ∧
    ∀ index ≤ n, ∀ newFile stale, insertChild child n index newFile stale = none := by
  refine ⟨List.replicate (2 ^ 32 - 1) 0, 4294967295, List.length_replicate, rfl, fun index hindex newFile stale => ?_⟩
  have hcount : (4294967295 : UInt32) + 1 = 0 := rfl
  have hgrown (child : List Ptr) : realloc child (0 : UInt32).toNat stale = [] := by simp [realloc]
  simp only [insertChild, hcount, hgrown, shiftChildren_nil, Option.bind_eq_bind]
  split
  · rfl
  · simp

/-- A child between two, and out again. -/
theorem children_edited_two : insertChild [5, 6] 2 1 9 0 = some ([5, 9, 6], 3) ∧
    removeChild [5, 6] 2 0 = some ([6], 1) := by
  have h := children_edited (show [5, 6].length = (2 : UInt32).toNat from rfl) 9 0
  exact ⟨(h.1 (by decide) 1 (by decide)).1, (h.2 0 (by decide)).1⟩

end Edits

end CacheFs.Namespace
