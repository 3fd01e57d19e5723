import Mathlib.Data.Nat.ModEq
import Mathlib.Logic.Function.Basic

/-! Queues in a ring of slots.

A ring keeps a queue in consecutive slots from its head to just before its tail,
wrapping around. `Holds` says which queue that is; pushing writes the tail slot and
moves the tail on, popping moves the head on and leaves the slot as it is. -/
namespace Ring

variable {α : Type} {n : Nat}

/-- The slot `k` places on, around the ring. -/
def place (i : Fin n) (k : Nat) : Fin n := ⟨(i + k) % n, Nat.mod_lt _ (Nat.zero_lt_of_lt i.isLt)⟩

@[simp] theorem place_zero (i : Fin n) : place i 0 = i := Fin.ext (Nat.mod_eq_of_lt i.isLt)

theorem place_place (i : Fin n) (j k : Nat) : place (place i j) k = place i (j + k) := by
  refine Fin.ext ?_
  show ((i + j) % n + k) % n = (i + (j + k)) % n
  rw [Nat.mod_add_mod, Nat.add_assoc]

/-- Fewer than `n` places on never comes back to where it was. -/
theorem place_inj {i : Fin n} {j k : Nat} (hj : j < n) (hk : k < n) (h : place i j = place i k) : j = k := by
  have hmod : (i + j) % n = (i + k) % n := congrArg Fin.val h
  have := Nat.ModEq.add_left_cancel' i.val hmod
  exact Nat.ModEq.eq_of_lt_of_lt this hj hk

/-- The ring holds the queue. -/
structure Holds (slots : Fin n → α) (head tail : Fin n) (q : List α) : Prop where
  fits : q.length ≤ n
  tail_eq : tail = place head q.length
  slot : ∀ i x, q[i]? = some x → slots (place head i) = x

namespace Holds
variable {slots : Fin n → α} {head tail : Fin n} {q : List α}

theorem nil (slots : Fin n → α) (head : Fin n) : Holds slots head head [] :=
  ⟨Nat.zero_le _, by simp, by simp⟩

/-- The head slot has the front of the queue. -/
theorem front {x : α} (h : Holds slots head tail (x :: q)) : slots head = x := by
  simpa using h.slot 0 x rfl

/-- Pushing into a ring with a free slot. -/
theorem push (h : Holds slots head tail q) (hroom : q.length < n) (x : α) :
    Holds (Function.update slots tail x) head (place tail 1) (q ++ [x]) := by
  refine ⟨by rw [List.length_append]; exact hroom, ?_, fun i y hy => ?_⟩
  · rw [h.tail_eq, place_place, List.length_append]
    rfl
  · obtain hi | rfl | hi := Nat.lt_trichotomy i q.length
    · rw [List.getElem?_append_left hi] at hy
      rw [Function.update_of_ne, h.slot i y hy]
      rw [h.tail_eq]
      exact fun heq => absurd (place_inj (by omega) hroom heq) (by omega)
    · rw [List.getElem?_append_right (Nat.le_refl _), Nat.sub_self] at hy
      cases hy
      rw [h.tail_eq, Function.update_self]
    · have := (List.getElem?_eq_some_iff.mp hy).1
      simp only [List.length_append, List.length_cons, List.length_nil] at this
      omega

/-- Popping the front. -/
theorem pop {x : α} (h : Holds slots head tail (x :: q)) : Holds slots (place head 1) tail q := by
  have hfits := h.fits
  rw [List.length_cons] at hfits
  refine ⟨by omega, ?_, fun i y hy => ?_⟩
  · rw [h.tail_eq, place_place, List.length_cons, Nat.add_comm]
  · rw [place_place, Nat.add_comm]
    exact h.slot (i + 1) y hy

end Holds

end Ring
