/-! Machines that move one step at a time, and what holds along their runs.

A machine says where it may start and what each move does when it is enabled.
`Reach` is every state a run can be in when the moves it makes satisfy a rule in
the state they are made from; the rule that asks nothing gives all runs. An
invariant is proved once for a step and then holds of every run
(`Reach.invariant`), and a relation that every move keeps carries the reachable
states of one machine to those of another (`Reach.simulates`). -/
namespace Transition

/-- Where a machine may start, and the state after a move, if the move is enabled. -/
structure Machine (S A : Type) where
  start : S → Prop
  step : S → A → Option S

/-- What a run may do: a move is allowed in a state, or it is not. -/
abbrev Rule (S A : Type) := S → A → Prop

/-- The rule that asks nothing. -/
def always {S A : Type} : Rule S A := fun _ _ => True

variable {S T A B : Type}

/-- The states of the runs of `M` whose every move satisfies `R`. -/
inductive Reach (M : Machine S A) (R : Rule S A) : S → Prop where
  | start {s} : M.start s → Reach M R s
  | step {s s' a} : Reach M R s → R s a → M.step s a = some s' → Reach M R s'

/-- The states of all runs of `M`. -/
abbrev Reachable (M : Machine S A) : S → Prop := Reach M always

/-- An invariant of the start and of every move holds along every run. -/
theorem Reach.invariant {M : Machine S A} {R : Rule S A} {I : S → Prop}
    (initial : ∀ s, M.start s → I s)
    (preserved : ∀ s a s', I s → R s a → M.step s a = some s' → I s') {s : S}
    (h : Reach M R s) : I s := by
  induction h with
  | start hs => exact initial _ hs
  | step _ hr hstep ih => exact preserved _ _ _ ih hr hstep

/-- Runs under one rule are runs under another, when the rule of each move follows
in the states where the move is made. -/
theorem Reach.mono {M : Machine S A} {R R' : Rule S A}
    (weaker : ∀ s a, Reach M R' s → Reach M R s → R s a → R' s a) {s : S} (h : Reach M R s) :
    Reach M R' s := by
  induction h with
  | start hs => exact .start hs
  | step hreach hr hstep ih => exact .step ih (weaker _ _ ih hreach hr) hstep

/-- A relation that holds at the start and that every move keeps, in any number of
moves of the other machine, carries runs to runs. -/
theorem Reach.simulates {M : Machine S A} {N : Machine T B} {R : Rule S A} {R' : Rule T B}
    {Rel : S → T → Prop} (initial : ∀ s, M.start s → ∃ t, N.start t ∧ Rel s t)
    (matched : ∀ s t a s', Reach M R s → Reach N R' t → Rel s t → R s a → M.step s a = some s' →
      ∃ t', Reach N R' t' ∧ Rel s' t') {s : S} (h : Reach M R s) :
    ∃ t, Reach N R' t ∧ Rel s t := by
  induction h with
  | start hs =>
    obtain ⟨t, ht, hrel⟩ := initial _ hs
    exact ⟨t, .start ht, hrel⟩
  | step hreach hr hstep ih =>
    obtain ⟨t, ht, hrel⟩ := ih
    exact matched _ t _ _ hreach ht hrel hr hstep

instance (s : S) (a : A) : Decidable (always s a) := isTrue trivial

/-- The state after a list of moves, if each is allowed and enabled in its turn. -/
def Machine.run (M : Machine S A) (R : Rule S A) [∀ s a, Decidable (R s a)] : S → List A → Option S
  | s, [] => some s
  | s, a :: rest => if R s a then (M.step s a).bind fun s' => M.run R s' rest else none

section Run
variable {M : Machine S A} {R : Rule S A} [∀ s a, Decidable (R s a)]

/-- Executing moves from a reachable state gives reachable states. -/
theorem Reach.run (moves : List A) {s s' : S} (h : Reach M R s) (hrun : M.run R s moves = some s') :
    Reach M R s' := by
  induction moves generalizing s with
  | nil =>
    simp only [Machine.run, Option.some.injEq] at hrun
    exact hrun ▸ h
  | cons a rest ih =>
    simp only [Machine.run] at hrun
    split at hrun
    · rename_i hr
      obtain ⟨s₁, hstep, hrest⟩ := Option.bind_eq_some_iff.mp hrun
      exact ih (.step h hr hstep) hrest
    · cases hrun

/-- A list of moves that ends in a state with a property shows a reachable one. -/
theorem Reach.exists_run (moves : List A) (p : S → Bool) {s : S} (h : Reach M R s)
    (hrun : (M.run R s moves).any p = true) : ∃ s', Reach M R s' ∧ p s' = true := by
  cases hs : M.run R s moves with
  | none => simp [hs] at hrun
  | some s' =>
    rw [hs] at hrun
    exact ⟨s', h.run moves hs, hrun⟩

end Run

end Transition
