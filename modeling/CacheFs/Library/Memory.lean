import Mathlib.Data.List.GetD

/-! Memory as a function, and stores of several cells in a row.

A store changes the cells it is for and no other (`read_put`, `read_put_of_disjoint`). -/
namespace Memory

variable {V : Type}

/-- The memory after these values were stored in a row from an address on. -/
def put (mem : Nat → V) (p : Nat) (values : List V) : Nat → V :=
  fun a => if p ≤ a then values.getD (a - p) (mem a) else mem a

/-- So many cells from an address on. -/
def read (mem : Nat → V) (p n : Nat) : List V := (List.range n).map fun i => mem (p + i)

variable {mem : Nat → V} {p q n a : Nat} {values : List V}

@[simp] theorem length_read : (read mem p n).length = n := by simp [read]

theorem getElem?_read {i : Nat} (h : i < n) : (read mem p n)[i]? = some (mem (p + i)) := by simp [read, h]

theorem put_of_outside (h : a < p ∨ p + values.length ≤ a) : put mem p values a = mem a := by
  unfold put
  split
  · exact List.getD_eq_default _ _ (by omega)
  · rfl

theorem put_of_lt {i : Nat} (h : i < values.length) : put mem p values (p + i) = values[i] := by
  simp [put, h]

/-- The cells that were stored, and what is behind them. -/
theorem read_put (h : values.length ≤ n) : read (put mem p values) p n = values ++ (read mem p n).drop values.length := by
  refine List.ext_getElem? fun i => ?_
  by_cases hn : i < n
  · rw [getElem?_read hn]
    by_cases hi : i < values.length
    · rw [put_of_lt hi, List.getElem?_append_left hi, List.getElem?_eq_getElem hi]
    · have hdrop : values.length + (i - values.length) = i := by omega
      rw [put_of_outside (by omega), List.getElem?_append_right (by omega), List.getElem?_drop, hdrop, getElem?_read hn]
  · rw [List.getElem?_eq_none (by simpa using hn), List.getElem?_eq_none]
    simp
    omega

theorem read_put_of_disjoint (h : q + n ≤ p ∨ p + values.length ≤ q) : read (put mem p values) q n = read mem q n := by
  refine List.map_congr_left fun i hi => put_of_outside ?_
  have := List.mem_range.mp hi
  omega

end Memory
