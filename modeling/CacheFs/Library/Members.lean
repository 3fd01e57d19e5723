import Mathlib.Algebra.Ring.Nat
import Mathlib.Data.List.Count
import Mathlib.Data.List.Forall2

/-! The members of a list that changes at one place.

A list is changed by replacing one member or by adding one at its end: which members
it has then, how many of them satisfy a predicate, and whether they are still like those
of another list that is changed with it. -/
namespace Members

variable {α : Type} {l : List α}

theorem getElem?_append_one {x y : α} {i : Nat} (h : (l ++ [x])[i]? = some y) :
    l[i]? = some y ∨ i = l.length ∧ y = x := by
  obtain hi | rfl | hi := Nat.lt_trichotomy i l.length
  · rw [List.getElem?_append_left hi] at h
    exact .inl h
  · rw [List.getElem?_append_right (Nat.le_refl _), Nat.sub_self] at h
    exact .inr ⟨rfl, (Option.some.inj h).symm⟩
  · have hlen := (List.getElem?_eq_some_iff.mp h).1
    simp only [List.length_append, List.length_cons, List.length_nil] at hlen
    omega

/-- The members of a list with one replaced. -/
theorem getElem?_set_cases {i j : Nat} {x y : α} (h : (l.set i x)[j]? = some y) :
    i = j ∧ y = x ∨ i ≠ j ∧ l[j]? = some y := by
  rw [List.getElem?_set] at h
  split at h
  · split at h
    · exact .inl ⟨‹_›, (Option.some.inj h).symm⟩
    · cases h
  · exact .inr ⟨‹_›, h⟩

theorem getElem?_set_same {i : Nat} {x : α} (h : l[i]? = some x) (y : α) : (l.set i y)[i]? = some y :=
  List.getElem?_set_self (List.getElem?_eq_some_iff.mp h).1

/-- What a replaced member shares with the old one is as it was. -/
theorem set_same {i : Nat} {x : α} (h : l[i]? = some x) : l.set i x = l := by
  obtain ⟨hi, rfl⟩ := List.getElem?_eq_some_iff.mp h
  exact List.set_getElem_self hi

theorem map_set_same {β : Type} {g : α → β} {i : Nat} {x y : α} (h : l[i]? = some x) (hg : g y = g x) :
    (l.set i y).map g = l.map g := by
  apply List.ext_getElem?
  intro j
  simp only [List.getElem?_map, List.getElem?_set]
  split
  · rename_i hij
    subst hij
    obtain ⟨hi, -⟩ := List.getElem?_eq_some_iff.mp h
    simp only [hi, if_true, h, Option.map_some, hg]
  · rfl

/-- A sum over a list changed at one place has the new summand instead of the old. -/
theorem sum_map_set (g : α → Nat) {i : Nat} {x y : α} (h : l[i]? = some x) :
    ((l.set i y).map g).sum + g x = (l.map g).sum + g y := by
  induction l generalizing i with
  | nil => simp at h
  | cons z l ih =>
    cases i with
    | zero =>
      simp only [List.getElem?_cons_zero, Option.some.injEq] at h
      subst h
      simp only [List.set_cons_zero, List.map_cons, List.sum_cons]
      omega
    | succ i =>
      have := ih (by simpa using h)
      simp only [List.set_cons_succ, List.map_cons, List.sum_cons]
      omega

variable (p : α → Bool)

/-- A list changed at one place counts the new member instead of the old. -/
theorem countP_set_add {i : Nat} {x : α} (h : l[i]? = some x) (y : α) :
    (l.set i y).countP p + (p x).toNat = l.countP p + (p y).toNat := by
  obtain ⟨hi, rfl⟩ := List.getElem?_eq_some_iff.mp h
  have hpos : (p l[i]).toNat ≤ l.countP p := by
    cases hp : p l[i]
    · simp
    · exact List.countP_pos_iff.mpr ⟨l[i], List.getElem_mem hi, hp⟩
  rw [List.countP_set hi]
  cases hx : p l[i]
  · simp
    cases p y <;> rfl
  · rw [hx, Bool.toNat_true] at hpos
    simp only [if_true, Bool.toNat_true]
    cases p y <;> simp <;> omega

theorem countP_append_one (x : α) : (l ++ [x]).countP p = l.countP p + (p x).toNat := by
  cases h : p x <;> simp [List.countP_append, h]

/-- A list without one member counts it no more. -/
theorem countP_eraseIdx_add {i : Nat} {x : α} (h : l[i]? = some x) :
    (l.eraseIdx i).countP p + (p x).toNat = l.countP p := by
  induction l generalizing i with
  | nil => simp at h
  | cons a l ih =>
    cases i with
    | zero =>
      simp only [List.getElem?_cons_zero, Option.some.injEq] at h
      subst h
      rw [List.eraseIdx_cons_zero, List.countP_cons]
      cases p a <;> rfl
    | succ i =>
      have := ih (by simpa using h)
      rw [List.eraseIdx_cons_succ, List.countP_cons, List.countP_cons]
      omega

/-- A member replaced by one that is counted alike. -/
theorem countP_set_same {i : Nat} {x y : α} (h : l[i]? = some x) (hp : p y = p x) :
    (l.set i y).countP p = l.countP p := by
  have := countP_set_add p h y
  rw [hp] at this
  omega

/-- Where each member is counted by just one of three, the three counts add up. -/
theorem countP_eq_add {q r t : α → Bool}
    (h : ∀ x ∈ l, (p x).toNat = (q x).toNat + (r x).toNat + (t x).toNat) :
    l.countP p = l.countP q + l.countP r + l.countP t := by
  induction l with
  | nil => rfl
  | cons a l ih =>
    have ha := h a List.mem_cons_self
    have hl := ih fun x hx => h x (List.mem_cons_of_mem a hx)
    have cons (g : α → Bool) : (a :: l).countP g = l.countP g + (g a).toNat := by
      rw [List.countP_cons]
      cases g a <;> rfl
    rw [cons, cons, cons, cons]
    omega

/-- Members at two places count twice. -/
theorem two_le_countP {i j : Nat} {x y : α} (hij : i ≠ j) (hx : l[i]? = some x)
    (hy : l[j]? = some y) (px : p x = true) (py : p y = true) : 2 ≤ l.countP p := by
  induction l generalizing i j with
  | nil => simp at hx
  | cons a l ih =>
    rw [List.countP_cons]
    cases i with
    | zero =>
      cases j with
      | zero => exact absurd rfl hij
      | succ j =>
        rw [List.getElem?_cons_succ] at hy
        rw [List.getElem?_cons_zero, Option.some.injEq] at hx
        have : 0 < l.countP p := List.countP_pos_iff.mpr ⟨y, List.mem_of_getElem? hy, py⟩
        rw [hx, if_pos px]
        omega
    | succ i =>
      rw [List.getElem?_cons_succ] at hx
      cases j with
      | zero =>
        rw [List.getElem?_cons_zero, Option.some.injEq] at hy
        have : 0 < l.countP p := List.countP_pos_iff.mpr ⟨x, List.mem_of_getElem? hx, px⟩
        rw [hy, if_pos py]
        omega
      | succ j =>
        rw [List.getElem?_cons_succ] at hy
        have := ih (by omega) hx hy
        omega

section Pairs
open List
variable {β : Type} {r : α → β → Prop} {l' : List β}

theorem forall₂_getElem? (h : Forall₂ r l l') {i : Nat} {x : α} (hx : l[i]? = some x) :
    ∃ y, l'[i]? = some y ∧ r x y := by
  induction h generalizing i with
  | nil => simp at hx
  | cons hr _ ih =>
    cases i with
    | zero =>
      cases hx
      exact ⟨_, rfl, hr⟩
    | succ i => exact ih hx

theorem forall₂_set (h : Forall₂ r l l') (i : Nat) {x : α} {y : β} (hr : r x y) :
    Forall₂ r (l.set i x) (l'.set i y) := by
  induction h generalizing i with
  | nil => exact .nil
  | cons hfirst hrest ih =>
    cases i with
    | zero => exact .cons hr hrest
    | succ i => exact .cons hfirst (ih i)

theorem forall₂_append_one (h : Forall₂ r l l') {x : α} {y : β} (hr : r x y) :
    Forall₂ r (l ++ [x]) (l' ++ [y]) :=
  rel_append h (.cons hr .nil)

end Pairs

end Members
