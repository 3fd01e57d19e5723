import Mathlib.Algebra.Ring.Nat
import CacheFs.Library.Transition

/-! Machines whose moves use something up.

When every move lowers a measure, by one at least and but for what the move itself
brings in, a run is no longer than the measure it started from and what came in on
the way (`run_length_le`). With nothing coming in, some run goes on until no move is left
(`exists_settled`). -/
namespace Transition

variable {S A : Type} {M : Machine S A} {R : Rule S A}

/-- A machine that may start in fewer states has fewer runs. -/
theorem Reach.of_start {start start' : S → Prop} {step : S → A → Option S}
    (hstart : ∀ s, start s → start' s) {s : S} (h : Reach ⟨start, step⟩ R s) : Reach ⟨start', step⟩ R s := by
  induction h with
  | start hs => exact .start (hstart _ hs)
  | step _ hr hstep ih => exact .step ih hr hstep

/-- The machine from where a run has come to. -/
def Machine.from (M : Machine S A) (s : S) : Machine S A := {M with start := (· = s)}

/-- A run goes on from where another has come to. -/
theorem Reach.trans {s s' : S} (h : Reach M R s) (h' : Reach (M.from s) R s') : Reach M R s' := by
  induction h' with
  | start hs =>
    obtain rfl := hs
    exact h
  | step _ hr hstep ih => exact .step ih hr hstep

theorem Reach.from_step {s s' s'' : S} {a : A} (hr : R s a) (hstep : M.step s a = some s')
    (h : Reach (M.from s') R s'') : Reach (M.from s) R s'' := by
  have hfirst : Reach (M.from s) R s' := .step (.start rfl) hr hstep
  exact hfirst.trans h

variable [∀ s a, Decidable (R s a)]

theorem Machine.run_cons {s s' : S} {a : A} {rest : List A} (h : M.run R s (a :: rest) = some s') :
    R s a ∧ ∃ s₁, M.step s a = some s₁ ∧ M.run R s₁ rest = some s' := by
  simp only [Machine.run] at h
  split at h
  · rename_i hr
    obtain ⟨s₁, hstep, hrest⟩ := Option.bind_eq_some_iff.mp h
    exact ⟨hr, s₁, hstep, hrest⟩
  · cases h

/-- A run is no longer than what it uses up: `brought` is what a move adds. -/
theorem Machine.run_length_le (measure : S → Nat) (brought : A → Nat)
    (lowers : ∀ s a s', R s a → M.step s a = some s' → measure s' + 1 ≤ measure s + brought a)
    (moves : List A) {s s' : S} (h : M.run R s moves = some s') :
    measure s' + moves.length ≤ measure s + (moves.map brought).sum := by
  induction moves generalizing s with
  | nil =>
    simp only [Machine.run, Option.some.injEq] at h
    subst h
    simp
  | cons a rest ih =>
    obtain ⟨hr, s₁, hstep, hrest⟩ := Machine.run_cons h
    have hone := lowers s a s₁ hr hstep
    have hmore := ih hrest
    simp only [List.length_cons, List.map_cons, List.sum_cons]
    omega

/-- Where every move lowers a measure, a run is no longer than the measure. -/
theorem Machine.run_length_le_measure (measure : S → Nat)
    (lowers : ∀ s a s', R s a → M.step s a = some s' → measure s' < measure s)
    (moves : List A) {s s' : S} (h : M.run R s moves = some s') : moves.length ≤ measure s := by
  have hle := Machine.run_length_le measure (fun _ => 0) lowers moves h
  rw [List.map_const', List.sum_replicate_nat] at hle
  omega

/-- A run from a state that all moves can reach. -/
theorem Reach.extend {s s' : S} {moves : List A} (h : Reachable M s) (hrun : M.run R s moves = some s') :
    Reachable M s' := by
  induction moves generalizing s with
  | nil =>
    simp only [Machine.run, Option.some.injEq] at hrun
    exact hrun ▸ h
  | cons a rest ih =>
    obtain ⟨_, s₁, hstep, hrest⟩ := Machine.run_cons hrun
    exact ih (.step h trivial hstep) hrest

/-- No move that the rule allows is enabled. -/
def Settled (M : Machine S A) (R : Rule S A) (s : S) : Prop := ∀ a, R s a → M.step s a = none

/-- Where every move lowers a measure, some run from a state settles. -/
theorem Machine.exists_settled {measure : S → Nat}
    (lowers : ∀ s a s', R s a → M.step s a = some s' → measure s' < measure s) (s : S) :
    ∃ moves s', M.run R s moves = some s' ∧ Settled M R s' := by
  induction hn : measure s using Nat.strongRecOn generalizing s with
  | ind n ih =>
    by_cases hs : Settled M R s
    · exact ⟨[], s, rfl, hs⟩
    · simp only [Settled, Classical.not_forall] at hs
      obtain ⟨a, hr, hstep⟩ := hs
      obtain ⟨s₁, hs₁⟩ := Option.ne_none_iff_exists'.mp hstep
      obtain ⟨moves, s', hrun, hsettled⟩ := ih (measure s₁) (hn ▸ lowers s a s₁ hr hs₁) s₁ rfl
      refine ⟨a :: moves, s', ?_, hsettled⟩
      rw [Machine.run, if_pos hr, hs₁]
      exact hrun

end Transition
