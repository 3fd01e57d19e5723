import CacheFs.Library.Lookup

/-! Relative paths, by how far they climb.

A place is the names that lead to it from the root. A path of names and upper steps
comes to the same as so many upper steps and then names (`reduce`), whatever place it is
followed from (`walk_eq`). So whether it leads into a directory from there is seen from
these: the names are those that were climbed out of, and more (`below_from`). -/
namespace Climb
open Lookup

variable {K : Type}

/-- Where a path leads from a place. -/
def walk : List K → List (Component K) → List K
  | place, [] => place
  | place, .upper :: rest => walk place.dropLast rest
  | place, .name k :: rest => walk (place ++ [k]) rest

/-- So many upper steps, and then names. -/
structure Reduced (K : Type) where
  climbs : Nat
  names : List K

/-- An upper step takes back the last name, or climbs where there is none. -/
def Reduced.step (r : Reduced K) : Component K → Reduced K
  | .upper => if r.names.isEmpty then {r with climbs := r.climbs + 1} else {r with names := r.names.dropLast}
  | .name k => {r with names := r.names ++ [k]}

def reduce (path : List (Component K)) : Reduced K := path.foldl Reduced.step ⟨0, []⟩

/-- The place that a reduced path leads to. -/
def Reduced.from (r : Reduced K) (place : List K) : List K := place.take (place.length - r.climbs) ++ r.names

variable {place dir : List K} {r : Reduced K} {path : List (Component K)}

theorem walk_step (c : Component K) (path : List (Component K)) :
    walk (r.from place) (c :: path) = walk ((r.step c).from place) path := by
  cases c with
  | name k => rw [walk, Reduced.step, Reduced.from, Reduced.from, List.append_assoc]
  | upper =>
    rw [walk, Reduced.step]
    congr 1
    cases hnames : r.names with
    | nil =>
      have hclimb : place.length - (r.climbs + 1) = place.length - r.climbs - 1 := by omega
      simp only [Reduced.from, hnames, List.isEmpty_nil, if_true, List.append_nil, List.dropLast_eq_take,
        List.length_take, List.take_take, hclimb]
      congr 1
      omega
    | cons k names =>
      simp only [Reduced.from, hnames, List.isEmpty_cons, Bool.false_eq_true, if_false]
      rw [List.dropLast_append_of_ne_nil (List.cons_ne_nil k names)]

/-- A path leads where its reduced form does. -/
theorem walk_eq (place : List K) (path : List (Component K)) : walk place path = (reduce path).from place := by
  have hstart : (⟨0, []⟩ : Reduced K).from place = place := by simp [Reduced.from]
  rw [← hstart, reduce]
  suffices h : ∀ r : Reduced K, walk (r.from place) path = (path.foldl Reduced.step r).from place by
    rw [h, hstart]
  induction path with
  | nil => exact fun r => rfl
  | cons c path ih => exact fun r => (walk_step c path).trans (ih _)

/-- The place is strictly below the directory. -/
def Below (dir place : List K) : Prop := ∃ k rest, place = dir ++ k :: rest

theorem below_iff : Below dir place ↔ dir <+: place ∧ dir.length < place.length := by
  constructor
  · rintro ⟨k, rest, rfl⟩
    exact ⟨List.prefix_append _ _, by simp⟩
  · rintro ⟨⟨more, rfl⟩, hlen⟩
    cases more with
    | nil => simp at hlen
    | cons k rest => exact ⟨k, rest, rfl⟩

instance [DecidableEq K] (dir place : List K) : Decidable (Below dir place) := decidable_of_iff _ below_iff.symm

theorem below_append {base path : List K} : Below (base ++ dir) (base ++ path) ↔ Below dir path := by
  simp [Below]

/-- From a directory or another one beside it, a path leads into the directory if it climbs out
of what is not the directory, and goes back down by the names it has climbed. -/
theorem below_from {parent : List K} {k k' : K} (r : Reduced K) : Below (parent ++ [k]) (r.from (parent ++ [k'])) ↔
    (k' = k ∨ 0 < r.climbs) ∧ Below ((parent ++ [k]).drop (parent.length + 1 - r.climbs)) r.names := by
  rw [Reduced.from, List.length_append, List.length_singleton]
  obtain hclimbs | ⟨c, hclimbs⟩ : r.climbs = 0 ∨ ∃ c, r.climbs = c + 1 := by
    cases r.climbs with
    | zero => exact .inl rfl
    | succ c => exact .inr ⟨c, rfl⟩
  · -- nothing is climbed: the path goes on from where it starts
    have htake : (parent ++ [k']).take (parent.length + 1) = parent ++ [k'] := List.take_of_length_le (by simp)
    have hdrop : (parent ++ [k]).drop (parent.length + 1) = [] := List.drop_of_length_le (by simp)
    rw [hclimbs, Nat.sub_zero, htake, hdrop, List.append_assoc, below_append]
    simp [Below, eq_comm]
  · -- the parent or what is left of it is above both
    have hle : parent.length + 1 - (c + 1) ≤ parent.length := by omega
    have htake : (parent ++ [k']).take (parent.length + 1 - (c + 1)) =
        (parent ++ [k]).take (parent.length + 1 - (c + 1)) := by
      rw [List.take_append_of_le_length hle, List.take_append_of_le_length hle]
    rw [hclimbs, htake]
    nth_rewrite 1 [← List.take_append_drop (parent.length + 1 - (c + 1)) (parent ++ [k])]
    rw [below_append]
    simp

end Climb
