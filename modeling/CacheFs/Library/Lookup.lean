import Mathlib.Data.List.Basic

/-! Paths in a tree of directories.

A path is followed one component at a time, each either a name or the step to the
upper directory. `resolve` says how it ends, and `Leads` that it ends at a node with
every component there: the two agree (`resolve_node`), on the paths that end with a
name also on how (`resolve_eq_found`). A path that does not end at a dead end does not
go through it, so taking that out changes nothing for the path (`resolve_avoids`). -/
namespace Lookup

/-- Which nodes are directories, and where the upper step and a name lead from one. -/
structure Directories (N K : Type) where
  isDir : N → Bool
  upper : N → N
  child : N → K → Option N

inductive Component (K : Type) where
  | upper
  | name (k : K)
  deriving DecidableEq

/-- How following a path ends: at a node, at a node by an upper step, at a node that is
no directory with components left, or at a directory without the name, which was the
last component or one before it. -/
inductive Outcome (N K : Type) where
  | found (n : N)
  | upper (n : N)
  | notDir (n : N)
  | missing (n : N) (k : K)
  | missingDir (n : N) (k : K)
  deriving DecidableEq

variable {N K : Type} (D : Directories N K)

def resolve : N → List (Component K) → Outcome N K
  | n, [] => .found n
  | n, c :: rest =>
    if D.isDir n then
      match c with
      | .upper => if rest.isEmpty then .upper (D.upper n) else resolve (D.upper n) rest
      | .name k =>
        match D.child n k with
        | some m => resolve m rest
        | none => if rest.isEmpty then .missing n k else .missingDir n k
    else .notDir n

/-- Every component is there, and they lead from one node to the other. -/
inductive Leads : N → List (Component K) → N → Prop where
  | nil (n) : Leads n [] n
  | upper {n rest m} : D.isDir n → Leads (D.upper n) rest m → Leads n (.upper :: rest) m
  | name {n k n' rest m} : D.isDir n → D.child n k = some n' → Leads n' rest m → Leads n (.name k :: rest) m

variable {D} {n m : N} {k : K} {rest : List (Component K)}

theorem leads_upper : Leads D n (.upper :: rest) m ↔ D.isDir n ∧ Leads D (D.upper n) rest m := by
  constructor
  · intro h
    obtain _ | ⟨hdir, hrest⟩ := h
    exact ⟨hdir, hrest⟩
  · intro h
    obtain ⟨hdir, hrest⟩ := h
    exact .upper hdir hrest

theorem leads_name :
    Leads D n (.name k :: rest) m ↔ D.isDir n ∧ ∃ n', D.child n k = some n' ∧ Leads D n' rest m := by
  constructor
  · intro h
    obtain _ | _ | ⟨hdir, hchild, hrest⟩ := h
    exact ⟨hdir, _, hchild, hrest⟩
  · intro h
    obtain ⟨hdir, n', hchild, hrest⟩ := h
    exact .name hdir hchild hrest

theorem resolve_notDir (h : D.isDir n = false) (c : Component K) (rest : List (Component K)) :
    resolve D n (c :: rest) = .notDir n := by
  simp [resolve, h]

theorem resolve_upper (h : D.isDir n = true) : resolve D n [.upper] = .upper (D.upper n) := by
  simp [resolve, h]

/-- A path is found at a node just when its components lead there and the last of them
is not an upper step. -/
theorem resolve_eq_found {l : List (Component K)} :
    resolve D n l = .found m ↔ Leads D n l m ∧ l.getLast? ≠ some .upper := by
  induction l generalizing n with
  | nil =>
    simp only [resolve, Outcome.found.injEq, List.getLast?_nil]
    constructor
    · intro heq
      subst heq
      exact ⟨.nil n, by simp⟩
    · intro h
      obtain ⟨⟨⟩, -⟩ := h
      rfl
  | cons c rest ih =>
    by_cases hdir : D.isDir n
    · cases c with
      | upper =>
        rw [leads_upper, resolve, if_pos hdir]
        cases rest with
        | nil => simp
        | cons c' rest => simp [hdir, ih]
      | name k =>
        rw [leads_name, resolve, if_pos hdir]
        cases hchild : D.child n k with
        | none => cases rest <;> simp
        | some n' => cases rest <;> simp [hdir, ih]
    · cases c <;> simp [resolve, leads_upper, leads_name, hdir]

/-- The node that a path ends at, if it ends at one. -/
def Outcome.node : Outcome N K → Option N
  | .found n | .upper n => some n
  | .notDir _ | .missing _ _ | .missingDir _ _ => none

theorem resolve_node {l : List (Component K)} : (resolve D n l).node = some m ↔ Leads D n l m := by
  induction l generalizing n with
  | nil =>
    constructor
    · intro h
      cases h
      exact .nil _
    · intro h
      cases h
      rfl
  | cons c rest ih =>
    by_cases hdir : D.isDir n
    · cases c with
      | upper =>
        rw [leads_upper, resolve, if_pos hdir, ← ih]
        cases rest <;> simp [hdir, Outcome.node, resolve]
      | name k =>
        rw [leads_name, resolve, if_pos hdir]
        cases hchild : D.child n k with
        | none => cases rest <;> simp [Outcome.node]
        | some n' => simp [hdir, ih]
    · cases c <;> simp [resolve, leads_upper, leads_name, hdir, Outcome.node]

/-- From a directory without children that is its own upper directory no path leads away. -/
theorem Leads.stays {d : N} (hupper : D.upper d = d) (hchild : ∀ k, D.child d k = none)
    {l : List (Component K)} (h : Leads D d l m) : m = d := by
  induction l with
  | nil =>
    cases h
    rfl
  | cons c rest ih =>
    cases c with
    | upper =>
      obtain ⟨-, hrest⟩ := leads_upper.mp h
      rw [hupper] at hrest
      exact ih hrest
    | name k =>
      obtain ⟨-, n', hn', -⟩ := leads_name.mp h
      rw [hchild] at hn'
      cases hn'

/-- A path that does not end at a node no path leads away from is the same in directories
that differ at that node only. -/
theorem resolve_avoids {D' : Directories N K} {d : N} (hstays : ∀ {l m}, Leads D d l m → m = d)
    (hdir : ∀ n ≠ d, D'.isDir n = D.isDir n) (hupper : ∀ n ≠ d, D.isDir n → D'.upper n = D.upper n)
    (hchild : ∀ n ≠ d, ∀ k, D.child n k ≠ some d → D'.child n k = D.child n k)
    {l : List (Component K)} (h : Leads D n l m) (hm : m ≠ d) : resolve D' n l = resolve D n l := by
  have away {n : N} {l : List (Component K)} (h : Leads D n l m) : n ≠ d := fun hn => hm (hstays (hn ▸ h))
  induction h with
  | nil n => rfl
  | upper hn hrest ih =>
    have hne := away (.upper hn hrest)
    simp only [resolve, hdir _ hne, hn, hupper _ hne hn, ih hm away, if_true]
  | @name n k n' rest m hn hk hrest ih =>
    have hne := away (.name hn hk hrest)
    have hsame := hchild _ hne k fun hkd => away hrest (Option.some.inj (hk.symm.trans hkd))
    simp only [resolve, hdir _ hne, hn, hsame, hk, ih hm away, if_true]

end Lookup
