import Mathlib.Data.List.Chain
import Mathlib.Data.List.Nodup
import Mathlib.Data.List.TakeWhile

/-! Lists linked one way, whose last cell may point anywhere.

A list that is read from its head to a known tail does not need its last pointer, so
what that is does not matter to it (`congr`). Appending a cell that is in the list
already cuts the list there: what came after is no longer reached before the tail
(`append`). -/
namespace Chain

variable {K : Type}

/-- Each cell of the list points to the one after it. -/
abbrev Linked (next : K → Option K) (l : List K) : Prop := l.IsChain fun k k' => next k = some k'

variable {next next' : K → Option K} {l : List K}

/-- Only the cells before the last matter. -/
theorem Linked.congr (h : Linked next l) (same : ∀ k ∈ l.dropLast, next' k = next k) : Linked next' l := by
  induction l with
  | nil => exact .nil
  | cons a l ih =>
    cases l with
    | nil => exact .singleton a
    | cons b l =>
      obtain ⟨hab, hl⟩ := List.isChain_cons_cons.mp h
      rw [List.dropLast_cons_cons] at same
      exact .cons_cons ((same a List.mem_cons_self).trans hab) (ih hl fun k hk => same k (List.mem_cons_of_mem _ hk))

/-- The list is determined by its ends. -/
theorem Linked.unique {l' : List K} (h : Linked next l) (h' : Linked next l') (hd : l.Nodup) (hd' : l'.Nodup)
    (head : l.head? = l'.head?) (last : l.getLast? = l'.getLast?) : l = l' := by
  induction l generalizing l' with
  | nil => exact (List.head?_eq_none_iff.mp head.symm).symm
  | cons a l ih =>
    cases l' with
    | nil => cases head
    | cons a' l' =>
      cases head
      have hal := (List.nodup_cons.mp hd).1
      have hal' := (List.nodup_cons.mp hd').1
      cases l with
      | nil =>
        cases l' with
        | nil => rfl
        | cons b' l' =>
          rw [List.getLast?_cons_cons] at last
          exact absurd (List.mem_of_getLast? last.symm) hal'
      | cons b l =>
        cases l' with
        | nil =>
          rw [List.getLast?_cons_cons] at last
          exact absurd (List.mem_of_getLast? last) hal
        | cons b' l' =>
          obtain ⟨hab, hl⟩ := List.isChain_cons_cons.mp h
          obtain ⟨hab', hl'⟩ := List.isChain_cons_cons.mp h'
          rw [hab] at hab'
          rw [List.getLast?_cons_cons, List.getLast?_cons_cons] at last
          rw [ih hl hl' hd.of_cons hd'.of_cons hab' last]

variable [DecidableEq K]

/-- The list after its tail was pointed to `p`, which is the tail then. -/
def appended (l : List K) (p : K) : List K := l.takeWhile (· ≠ p) ++ [p]

theorem takeWhile_eq {p : K} (h : p ∉ l) : l.takeWhile (· ≠ p) = l :=
  List.takeWhile_eq_self_iff.mpr fun k hk => by simpa using ne_of_mem_of_not_mem hk h

theorem takeWhile_append_cons {u v : List K} {p : K} (h : p ∉ u) : (u ++ p :: v).takeWhile (· ≠ p) = u := by
  rw [List.takeWhile_append_of_pos fun k hk => by simpa using ne_of_mem_of_not_mem hk h]
  simp

theorem mem_appended {k p : K} (h : k ∈ appended l p) : k ∈ l ∨ k = p := by
  obtain h | h := List.mem_append.mp h
  · exact .inl ((List.takeWhile_prefix _).subset h)
  · exact .inr (List.mem_singleton.mp h)

theorem head?_appended (l : List K) (p : K) : (appended l p).head? = some (l.head?.getD p) := by
  cases l with
  | nil => rfl
  | cons a l => by_cases ha : a = p <;> simp [appended, ha]

theorem appended_nodup (h : l.Nodup) (p : K) : (appended l p).Nodup := by
  refine List.nodup_append.mpr ⟨h.sublist (List.takeWhile_prefix _).sublist, List.nodup_singleton p, ?_⟩
  intro a ha b hb
  rw [List.mem_singleton.mp hb]
  simpa using List.mem_takeWhile_imp ha

/-- Writing a cell and pointing the old tail at it appends it, and cuts the list where the cell
was. -/
theorem Linked.append (h : Linked next l) {p : K} (same : ∀ k ∈ l.dropLast, k ≠ p → next' k = next k)
    (last : ∀ k ∈ l.getLast?, k ≠ p → next' k = some p) : Linked next' (appended l p) := by
  by_cases hp : p ∈ l
  · obtain ⟨u, v, rfl, hu⟩ := List.eq_append_cons_of_mem hp
    rw [appended, takeWhile_append_cons hu]
    have hprefix : Linked next (u ++ [p]) := h.prefix ⟨v, by simp⟩
    refine hprefix.congr fun k hk => same k ?_ ?_
    · rw [List.dropLast_concat] at hk
      rw [List.dropLast_append_of_ne_nil (List.cons_ne_nil _ _)]
      exact List.mem_append_left _ hk
    · rw [List.dropLast_concat] at hk
      exact ne_of_mem_of_not_mem hk hu
  · rw [appended, takeWhile_eq hp]
    have hne {k : K} (hk : k ∈ l) : k ≠ p := ne_of_mem_of_not_mem hk hp
    refine List.IsChain.append (h.congr fun k hk => same k hk (hne (List.dropLast_subset _ hk))) (.singleton p) ?_
    intro k hk k' hk'
    cases hk'
    exact last k hk (hne (List.mem_of_getLast? hk))

end Chain
