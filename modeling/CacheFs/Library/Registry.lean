import Mathlib.Logic.Function.Basic

/-! Named entries kept in cells, and the same entries by name.

A program keeps entries in cells it reaches by pointer, each cell carrying the
name its entry is for; what the cells mean is a partial map from names to
entries. `Represents` says that the cells hold exactly the map, each name in one
cell, and the three ways a program changes a cell — altering, filling and
emptying it — change the map at that name alone. -/
namespace Registry

variable {P N E : Type}

/-- The cells hold exactly the entries of `m`, each name in one cell. -/
structure Represents (view : P → Option (N × E)) (m : N → Option E) : Prop where
  sound : ∀ {p n e}, view p = some (n, e) → m n = some e
  complete : ∀ {n e}, m n = some e → ∃ p, view p = some (n, e)
  unique : ∀ {p q n e e'}, view p = some (n, e) → view q = some (n, e') → p = q

/-- No cell is for this name. -/
def Absent (view : P → Option (N × E)) (n : N) : Prop := ∀ p e, view p ≠ some (n, e)

namespace Represents
variable {view : P → Option (N × E)} {m : N → Option E}

theorem absent_iff (h : Represents view m) (n : N) : Absent view n ↔ m n = none := by
  constructor
  · intro ha
    cases hm : m n with
    | none => rfl
    | some e =>
      obtain ⟨p, hp⟩ := h.complete hm
      exact absurd hp (ha p e)
  · intro hm p e hp
    rw [h.sound hp] at hm
    cases hm

theorem empty : Represents (fun _ : P => (none : Option (N × E))) (fun _ => none) :=
  ⟨nofun, nofun, nofun⟩

variable [DecidableEq P] [DecidableEq N]

/-- Filling an empty cell with a name no cell has adds it to the map. -/
theorem fill (h : Represents view m) {p : P} {n : N} (hp : view p = none) (hn : m n = none) (e : E) :
    Represents (Function.update view p (some (n, e))) (Function.update m n (some e)) := by
  have other {q : P} {n' : N} {x : E} (hqp : q ≠ p) (hq : view q = some (n', x)) : n' ≠ n := by
    intro heq
    subst heq
    rw [h.sound hq] at hn
    cases hn
  refine ⟨fun {q n' x} hq => ?_, fun {n' x} hx => ?_, fun {q r n' x y} hq hr => ?_⟩
  · by_cases hqp : q = p
    · subst hqp
      simp only [Function.update_self, Option.some.injEq, Prod.mk.injEq] at hq
      rw [← hq.1, ← hq.2, Function.update_self]
    · rw [Function.update_of_ne hqp] at hq
      rw [Function.update_of_ne (other hqp hq)]
      exact h.sound hq
  · by_cases hn' : n' = n
    · subst hn'
      rw [Function.update_self] at hx
      cases hx
      exact ⟨p, Function.update_self ..⟩
    · rw [Function.update_of_ne hn'] at hx
      obtain ⟨q, hq⟩ := h.complete hx
      have hqp : q ≠ p := by
        intro heq
        subst heq
        rw [hp] at hq
        cases hq
      exact ⟨q, by rw [Function.update_of_ne hqp, hq]⟩
  · by_cases hqp : q = p <;> by_cases hrp : r = p
    · rw [hqp, hrp]
    · subst hqp
      rw [Function.update_self] at hq
      rw [Function.update_of_ne hrp] at hr
      cases hq
      exact absurd rfl (other hrp hr)
    · subst hrp
      rw [Function.update_self] at hr
      rw [Function.update_of_ne hqp] at hq
      cases hr
      exact absurd rfl (other hqp hq)
    · rw [Function.update_of_ne hqp] at hq
      rw [Function.update_of_ne hrp] at hr
      exact h.unique hq hr

/-- Emptying a cell drops its name from the map. -/
theorem erase (h : Represents view m) {p : P} {n : N} {e : E} (hp : view p = some (n, e)) :
    Represents (Function.update view p none) (Function.update m n none) := by
  have kept {q : P} {n' : N} {x : E} (hq : Function.update view p none q = some (n', x)) :
      q ≠ p ∧ view q = some (n', x) := by
    by_cases hqp : q = p
    · subst hqp
      rw [Function.update_self] at hq
      cases hq
    · rw [Function.update_of_ne hqp] at hq
      exact ⟨hqp, hq⟩
  refine ⟨fun {q n' x} hq => ?_, fun {n' x} hx => ?_, fun {q r n' x y} hq hr => ?_⟩
  · obtain ⟨hqp, hq⟩ := kept hq
    have hne : n' ≠ n := fun hn => hqp (h.unique (hn ▸ hq) hp)
    rw [Function.update_of_ne hne]
    exact h.sound hq
  · by_cases hn' : n' = n
    · subst hn'
      rw [Function.update_self] at hx
      cases hx
    · rw [Function.update_of_ne hn'] at hx
      obtain ⟨q, hq⟩ := h.complete hx
      have hqp : q ≠ p := by
        intro heq
        subst heq
        rw [hp] at hq
        cases hq
        exact hn' rfl
      exact ⟨q, by rw [Function.update_of_ne hqp, hq]⟩
  · exact h.unique (kept hq).2 (kept hr).2

/-- Altering the entry of a cell alters the map at its name. -/
theorem alter (h : Represents view m) {p : P} {n : N} {e : E} (hp : view p = some (n, e)) (e' : E) :
    Represents (Function.update view p (some (n, e'))) (Function.update m n (some e')) := by
  have hfill := (h.erase hp).fill (p := p) (n := n) (Function.update_self ..) (Function.update_self ..) e'
  rwa [Function.update_idem, Function.update_idem] at hfill

omit [DecidableEq N] in
/-- Altering an entry leaves every cell in use for the name it had. -/
theorem name_kept {p : P} {n : N} {e e' : E} (hp : view p = some (n, e)) {q : P} {n' : N} {x : E}
    (hq : view q = some (n', x)) : ∃ y, Function.update view p (some (n, e')) q = some (n', y) := by
  by_cases hqp : q = p
  · subst hqp
    rw [hp] at hq
    cases hq
    exact ⟨e', Function.update_self ..⟩
  · exact ⟨x, by rw [Function.update_of_ne hqp, hq]⟩

omit [DecidableEq N] in
/-- Filling an empty cell leaves the others as they were. -/
theorem fill_kept {p : P} {n : N} {e : E} (hp : view p = none) {q : P} {n' : N} {x : E}
    (hq : view q = some (n', x)) : Function.update view p (some (n, e)) q = some (n', x) := by
  rw [Function.update_of_ne, hq]
  intro heq
  subst heq
  rw [hp] at hq
  cases hq

end Represents

end Registry
