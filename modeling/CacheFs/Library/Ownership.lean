import Mathlib.Data.Set.Card
import CacheFs.Library.Descriptors
import CacheFs.Library.Members

/-! Who has which descriptor.

Of the descriptors of a process some were there at first, and each of the others belongs to
one of those that opened them (`Owned`). That is kept when one opens a descriptor it has
none beside, or closes its own, and no descriptor is shared (`Owned.unique`); so how many
are open is how many have one (`Owned.count_eq`). -/
namespace Descriptors
open Members

/-- The descriptors that are used. -/
def Table.used (t : Table) : Set Nat := {fd | t.file fd ≠ none}

theorem Table.mem_used {t : Table} {fd : Nat} : fd ∈ t.used ↔ 0 < (t.file fd).isSome.toNat := by
  show t.file fd ≠ none ↔ _
  cases t.file fd <;> simp

noncomputable def Table.count (t : Table) : Nat := t.used.ncard

theorem Table.used_finite (t : Table) : t.used.Finite := by
  obtain ⟨n, hn⟩ := t.finite
  refine (Set.finite_lt_nat n).subset fun fd hfd => ?_
  by_contra hle
  exact hfd (hn fd (Nat.le_of_not_lt hle))

/-- Besides the descriptors of `t₀`, which are what they were, just those in the list are used,
each by one. -/
structure Owned (t₀ t : Table) (held : List (Option Nat)) : Prop where
  kept : ∀ fd, t₀.file fd ≠ none → t.file fd = t₀.file fd
  counts : ∀ fd, held.count (some fd) + (t₀.file fd).isSome.toNat = (t.file fd).isSome.toNat

variable {t₀ t : Table} {held : List (Option Nat)} {i j fd : Nat}

theorem Owned.nil (t : Table) : Owned t t [] := ⟨fun _ _ => rfl, fun _ => Nat.zero_add _⟩

theorem Owned.append (h : Owned t₀ t held) : Owned t₀ t (held ++ [none]) where
  kept := h.kept
  counts := by
    intro fd
    rw [List.count_append, ← h.counts fd]
    simp

/-- What is held is used, and was not at first. -/
theorem Owned.used (h : Owned t₀ t held) (hi : held[i]? = some (some fd)) :
    t.file fd ≠ none ∧ t₀.file fd = none := by
  have hpos : 0 < held.count (some fd) := List.count_pos_iff.mpr (List.mem_of_getElem? hi)
  have hcounts := h.counts fd
  cases hfirst : t₀.file fd with
  | some f =>
    have hle := Bool.toNat_le (t.file fd).isSome
    rw [hfirst, Option.isSome_some, Bool.toNat_true] at hcounts
    omega
  | none =>
    refine ⟨fun hnone => ?_, rfl⟩
    rw [hfirst, hnone] at hcounts
    simp only [Option.isSome_none, Bool.toNat_false] at hcounts
    omega

/-- No descriptor is held by two. -/
theorem Owned.unique (h : Owned t₀ t held) (hi : held[i]? = some (some fd)) (hj : held[j]? = some (some fd)) : i = j := by
  by_contra hij
  have htwo : 2 ≤ held.count (some fd) := two_le_countP _ hij hi hj (beq_self_eq_true _) (beq_self_eq_true _)
  have hcounts := h.counts fd
  have hle := Bool.toNat_le (t.file fd).isSome
  omega

/-- Who holds a descriptor when one member changes. -/
theorem count_set_add {x : Option Nat} (hi : held[i]? = some x) (y a : Option Nat) :
    (held.set i y).count a + (if x = a then 1 else 0) = held.count a + (if y = a then 1 else 0) := by
  have hset := countP_set_add (p := (· == a)) hi y
  have htoNat (z : Option Nat) : (z == a).toNat = if z = a then 1 else 0 := by
    by_cases hz : z = a <;> simp [hz]
  rwa [htoNat, htoNat] at hset

/-- One who has no descriptor opens the lowest that is not used. -/
theorem Owned.open (h : Owned t₀ t held) (hi : held[i]? = some none) (f : File) :
    Owned t₀ (t.set t.lowest (some f)) (held.set i (some t.lowest)) where
  kept := by
    intro fd hfd
    have hused : t.file fd ≠ none := by rwa [h.kept fd hfd]
    rw [Table.file_set, if_neg (Table.ne_lowest hused), h.kept fd hfd]
  counts := by
    intro fd
    have hset := count_set_add hi (some t.lowest) (some fd)
    have hcounts := h.counts fd
    rw [Table.file_set]
    by_cases hfd : fd = t.lowest
    · have hunused : t.file fd = none := hfd ▸ Table.file_lowest
      rw [hunused, Option.isSome_none, Bool.toNat_false] at hcounts
      rw [if_neg (by simp), if_pos (by rw [hfd])] at hset
      rw [if_pos hfd, Option.isSome_some, Bool.toNat_true]
      omega
    · rw [if_neg (by simp), if_neg (by simpa using Ne.symm hfd)] at hset
      rw [if_neg hfd]
      omega

/-- One who has a descriptor closes it. -/
theorem Owned.close (h : Owned t₀ t held) (hi : held[i]? = some (some fd)) :
    Owned t₀ (t.close (some fd)) (held.set i none) where
  kept := by
    intro a ha
    have hne : a ≠ fd := fun heq => ha (heq ▸ (h.used hi).2)
    rw [Table.file_close, if_neg hne, h.kept a ha]
  counts := by
    intro a
    have hset := count_set_add hi none (some a)
    have hcounts := h.counts a
    rw [Table.file_close]
    by_cases ha : a = fd
    · obtain ⟨hused, -⟩ := h.used hi
      subst ha
      rw [Option.isSome_iff_ne_none.mpr hused, Bool.toNat_true] at hcounts
      rw [if_pos rfl, if_neg (by simp)] at hset
      rw [if_pos rfl, Option.isSome_none, Bool.toNat_false]
      omega
    · rw [if_neg (by simpa using Ne.symm ha), if_neg (by simp)] at hset
      rw [if_neg ha]
      omega

theorem count_filterMap (held : List (Option Nat)) (fd : Nat) : (held.filterMap id).count fd = held.count (some fd) := by
  induction held with
  | nil => rfl
  | cons a held ih =>
    cases a with
    | none =>
      rw [List.count_cons_of_ne (by simp), ← ih]
      rfl
    | some b =>
      show (b :: held.filterMap id).count fd = _
      rw [List.count_cons, List.count_cons, ih]
      simp

/-- There are as many descriptors more as are held. -/
theorem Owned.count_eq (h : Owned t₀ t held) : t.count = t₀.count + held.countP Option.isSome := by
  have hcount := count_filterMap held
  have hnodup : (held.filterMap id).Nodup := by
    rw [List.nodup_iff_count_le_one]
    intro fd
    have hcounts := h.counts fd
    have hle := Bool.toNat_le (t.file fd).isSome
    rw [hcount]
    omega
  have hunion : t.used = t₀.used ∪ ↑(held.filterMap id).toFinset := by
    ext fd
    have hcounts := h.counts fd
    rw [← hcount] at hcounts
    simp only [Set.mem_union, Table.mem_used, Finset.mem_coe, List.mem_toFinset, ← List.count_pos_iff]
    omega
  have hdisjoint : Disjoint t₀.used ↑(held.filterMap id).toFinset := by
    rw [Set.disjoint_left]
    intro fd hfd hheld
    obtain ⟨a, ha, hsome⟩ := List.mem_filterMap.mp (List.mem_toFinset.mp hheld)
    cases hsome
    obtain ⟨i, hi⟩ := List.mem_iff_getElem?.mp ha
    exact hfd (h.used hi).2
  have hlength : (held.filterMap id).length = held.countP Option.isSome := by
    rw [List.length_filterMap_eq_countP]
    rfl
  rw [Table.count, hunion, Set.ncard_union_eq hdisjoint t₀.used_finite (Finset.finite_toSet _), Set.ncard_coe_finset,
    List.toFinset_card_of_nodup hnodup, hlength]
  rfl

end Descriptors
