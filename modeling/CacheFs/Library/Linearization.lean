import Mathlib.Data.List.Nodup
import Mathlib.Data.List.Sublists

/-! Linearizability.

A history is what callers see: calls that begin and calls that return, in the order in which
that happens. It is linearized by a list of operations on one object, one after the other,
when these are what the calls asked for and were answered, and a call that returned
before another began comes before it. A list that is extended while the history goes on
needs no look back: what is committed between a call's beginning and its return may always
come last (`Linearizes.commit`). -/
namespace Linearization
open List (Sublist)

inductive Event (Op R : Type) where
  | invoke (call : Nat) (op : Op)
  | respond (call : Nat) (result : R)
  deriving DecidableEq

/-- An operation on the object, and the call that it is for. -/
structure Operation (Op R : Type) where
  call : Nat
  op : Op
  result : R

/-- What one operation does, all at once. -/
abbrev Spec (S Op R : Type) := S → Op → R → S → Prop

variable {S Op R : Type}

/-- Operations one after the other, and the object after them. -/
inductive Serial (spec : Spec S Op R) (start : S) : List (Operation Op R) → S → Prop where
  | nil : Serial spec start [] start
  | snoc {l s s' e} : Serial spec start l s → spec s e.op e.result s' → Serial spec start (l ++ [e]) s'

structure Linearizes (spec : Spec S Op R) (start : S) (h : List (Event Op R)) (l : List (Operation Op R)) (s : S) :
    Prop where
  serial : Serial spec start l s
  once : (l.map Operation.call).Nodup
  /-- An operation is one that a call asked for. -/
  invoked : ∀ e ∈ l, .invoke e.call e.op ∈ h
  /-- A call that returned was answered what its operation gave. -/
  responded : ∀ i r, .respond i r ∈ h → ∃ op, ⟨i, op, r⟩ ∈ l
  /-- What returned before another began comes first. -/
  order : ∀ e ∈ l, ∀ e' ∈ l, ∀ r op, Sublist [.respond e.call r, .invoke e'.call op] h → Sublist [e, e'] l

/-! ### Two in a list, one before the other -/

/-- Of two in a longer list, both were there or the second is new. -/
theorem pair_snoc {α : Type} {a b c : α} {l : List α} : Sublist [a, b] (l ++ [c]) ↔ Sublist [a, b] l ∨ a ∈ l ∧ b = c := by
  constructor
  · intro h
    obtain ⟨l₁, l₂, hsplit, h₁, h₂⟩ := List.sublist_append_iff.mp h
    match l₁, hsplit with
    | [], hsplit =>
      have hlen := h₂.length_le
      rw [List.nil_append] at hsplit
      rw [← hsplit] at hlen
      exact absurd hlen (by simp)
    | [_], hsplit =>
      cases hsplit
      exact .inr ⟨List.singleton_sublist.mp h₁, List.mem_singleton.mp (List.singleton_sublist.mp h₂)⟩
    | x :: y :: rest, hsplit =>
      have hnone : l₂ = [] := by
        have hlen := congrArg List.length hsplit
        simp only [List.length_cons, List.length_nil, List.length_append] at hlen
        exact List.eq_nil_of_length_eq_zero (by omega)
      rw [hsplit, hnone, List.append_nil]
      exact .inl h₁
  · intro h
    obtain h | ⟨ha, rfl⟩ := h
    · exact h.trans (List.sublist_append_left l [c])
    · exact (List.singleton_sublist.mpr ha).append (List.Sublist.refl [b])

/-! ### A history that goes on -/

namespace Linearizes
variable {spec : Spec S Op R} {start s s' : S} {h : List (Event Op R)} {l : List (Operation Op R)} {i : Nat}
  {op : Op} {r : R}

theorem nil : Linearizes spec start [] [] start :=
  ⟨.nil, List.nodup_nil, by simp, by simp, by simp⟩

/-- A call of which nothing is committed begins. -/
theorem invoke (hl : Linearizes spec start h l s) (hnew : ∀ e ∈ l, e.call ≠ i) :
    Linearizes spec start (h ++ [.invoke i op]) l s := by
  refine ⟨hl.serial, hl.once, ?_, ?_, ?_⟩
  · intro e he
    exact List.mem_append_left _ (hl.invoked e he)
  · intro j r' hmem
    obtain hmem | hmem := List.mem_append.mp hmem
    · exact hl.responded j r' hmem
    · cases List.mem_singleton.mp hmem
  · intro e he e' he' r' op' hpair
    obtain hpair | ⟨-, hlast⟩ := pair_snoc.mp hpair
    · exact hl.order e he e' he' r' op' hpair
    · cases hlast
      exact absurd rfl (hnew e' he')

/-- The operation of a call that has begun is done, once. -/
theorem commit (hl : Linearizes spec start h l s) (hspec : spec s op r s') (hinvoked : .invoke i op ∈ h)
    (hnew : ∀ e ∈ l, e.call ≠ i) : Linearizes spec start h (l ++ [⟨i, op, r⟩]) s' := by
  refine ⟨.snoc hl.serial hspec, ?_, ?_, ?_, ?_⟩
  · rw [List.map_append, List.map_singleton, List.nodup_append]
    refine ⟨hl.once, List.nodup_singleton _, ?_⟩
    intro j hj k hk
    obtain ⟨e, he, rfl⟩ := List.mem_map.mp hj
    rw [List.mem_singleton.mp hk]
    exact hnew e he
  · intro e he
    obtain he | he := List.mem_append.mp he
    · exact hl.invoked e he
    · rw [List.mem_singleton.mp he]
      exact hinvoked
  · intro j r' hmem
    obtain ⟨op', he⟩ := hl.responded j r' hmem
    exact ⟨op', List.mem_append_left _ he⟩
  · intro e he e' he' r' op' hpair
    obtain he | he := List.mem_append.mp he
    · obtain he' | he' := List.mem_append.mp he'
      · exact (hl.order e he e' he' r' op' hpair).trans (List.sublist_append_left _ _)
      · exact pair_snoc.mpr (.inr ⟨he, List.mem_singleton.mp he'⟩)
    · -- the new operation's call has not returned
      rw [List.mem_singleton.mp he] at hpair
      obtain ⟨op'', hold⟩ := hl.responded i r' (hpair.subset List.mem_cons_self)
      exact absurd rfl (hnew _ hold)

/-- A call returns what its operation gave. -/
theorem respond (hl : Linearizes spec start h l s) (he : ⟨i, op, r⟩ ∈ l) :
    Linearizes spec start (h ++ [.respond i r]) l s := by
  refine ⟨hl.serial, hl.once, ?_, ?_, ?_⟩
  · intro e he
    exact List.mem_append_left _ (hl.invoked e he)
  · intro j r' hmem
    obtain hmem | hmem := List.mem_append.mp hmem
    · exact hl.responded j r' hmem
    · cases List.mem_singleton.mp hmem
      exact ⟨op, he⟩
  · intro e he e' he' r' op' hpair
    obtain hpair | ⟨-, hlast⟩ := pair_snoc.mp hpair
    · exact hl.order e he e' he' r' op' hpair
    · cases hlast

end Linearizes

end Linearization
