/-! Programs that call a store.

A program is either done or makes a call and goes on by the answer. The store that
answers is not part of it: a `Handler` says what each call does to a state, with a
choice left to the environment, such as whether the call fails. `run` is the
program alone with the store and `Ends` the ways that may go; `Returns` is a run in
which no call waits for ever; `Follows` is about the calls alone, whatever they are
answered, for programs that take turns. -/
namespace Interaction

/-- The calls of a store and what each is answered with. -/
structure Interface where
  Call : Type
  Answer : Call → Type

inductive Prog (I : Interface) (R : Type) where
  | ret (r : R)
  | call (c : I.Call) (next : I.Answer c → Prog I R)

variable {I : Interface} {R R' S E : Type}

namespace Prog

def bind : Prog I R → (R → Prog I R') → Prog I R'
  | .ret r, f => f r
  | .call c next, f => .call c fun a => (next a).bind f

instance : Monad (Prog I) where
  pure := .ret
  bind := bind

/-- A single call. -/
def ask (c : I.Call) : Prog I (I.Answer c) := .call c .ret

@[simp] theorem pure_eq (r : R) : (pure r : Prog I R) = .ret r := rfl

@[simp] theorem ret_bind (r : R) (f : R → Prog I R') : (.ret r >>= f : Prog I R') = f r := rfl

@[simp] theorem call_bind (c : I.Call) (next : I.Answer c → Prog I R) (f : R → Prog I R') :
    (.call c next >>= f : Prog I R') = .call c fun a => next a >>= f := rfl

@[simp] theorem ask_bind (c : I.Call) (f : I.Answer c → Prog I R) : (ask c >>= f) = .call c f := rfl

theorem bind_assoc {R'' : Type} (p : Prog I R) (f : R → Prog I R') (g : R' → Prog I R'') :
    (p >>= f >>= g) = p >>= fun r => f r >>= g := by
  induction p with
  | ret r => rfl
  | call c next ih => exact congrArg (call c) (funext fun a => ih a)

end Prog

/-- What a call is answered and does to the state, by what the environment chooses. -/
abbrev Handler (I : Interface) (S E : Type) := (c : I.Call) → E → S → I.Answer c × S

namespace Prog

/-- The program alone with the store: its result and the state after it. -/
def run (h : Handler I S E) : Prog I R → (Nat → E) → S → R × S
  | .ret r, _, s => (r, s)
  | .call c next, env, s =>
    let x := h c (env 0) s
    (next x.1).run h (fun n => env (n + 1)) x.2

@[simp] theorem run_ret (h : Handler I S E) (r : R) (env : Nat → E) (s : S) :
    (ret r : Prog I R).run h env s = (r, s) := rfl

@[simp] theorem run_call (h : Handler I S E) (c : I.Call) (next : I.Answer c → Prog I R)
    (env : Nat → E) (s : S) : (call c next).run h env s =
      (next (h c (env 0) s).1).run h (fun n => env (n + 1)) (h c (env 0) s).2 := rfl

/-- With an environment that always chooses alike, one program runs after the other. -/
theorem run_bind (h : Handler I S E) (p : Prog I R) (f : R → Prog I R') (e : E) (s : S) :
    (p >>= f).run h (fun _ => e) s =
      (f (p.run h (fun _ => e) s).1).run h (fun _ => e) (p.run h (fun _ => e) s).2 := by
  induction p generalizing s with
  | ret r => rfl
  | call c next ih => exact ih _ _

/-- How the program may end when it is alone with the store. -/
inductive Ends (h : Handler I S E) : Prog I R → S → R → S → Prop where
  | ret {r s} : Ends h (.ret r) s r s
  | call {c next s r s'} (e : E) : Ends h (next (h c e s).1) (h c e s).2 r s' →
      Ends h (.call c next) s r s'

section Ends
variable {h : Handler I S E}

theorem ends_ret {r r' : R} {s s' : S} : Ends h (.ret r : Prog I R) s r' s' ↔ r' = r ∧ s' = s := by
  constructor
  · intro h
    cases h
    exact ⟨rfl, rfl⟩
  · intro h
    obtain ⟨rfl, rfl⟩ := h
    exact .ret

theorem ends_call {c : I.Call} {next : I.Answer c → Prog I R} {s s' : S} {r : R} :
    Ends h (.call c next) s r s' ↔ ∃ e, Ends h (next (h c e s).1) (h c e s).2 r s' := by
  constructor
  · intro h
    cases h
    exact ⟨_, ‹_›⟩
  · intro h
    obtain ⟨e, hnext⟩ := h
    exact .call e hnext

theorem ends_bind {p : Prog I R} {f : R → Prog I R'} {s s' : S} {r : R'} :
    Ends h (p >>= f) s r s' ↔ ∃ r₁ s₁, Ends h p s r₁ s₁ ∧ Ends h (f r₁) s₁ r s' := by
  induction p generalizing s with
  | ret r₁ =>
    simp only [ret_bind, ends_ret]
    exact ⟨fun hf => ⟨r₁, s, ⟨rfl, rfl⟩, hf⟩, fun ⟨_, _, ⟨hr, hs⟩, hf⟩ => hr ▸ hs ▸ hf⟩
  | call c next ih =>
    simp only [call_bind, ends_call, ih]
    exact ⟨fun ⟨e, r₁, s₁, hp, hf⟩ => ⟨r₁, s₁, ⟨e, hp⟩, hf⟩, fun ⟨r₁, s₁, ⟨e, hp⟩, hf⟩ => ⟨e, r₁, s₁, hp, hf⟩⟩

/-- A run is one of the ways to end. -/
theorem run_ends (p : Prog I R) (env : Nat → E) (s : S) : Ends h p s (p.run h env s).1 (p.run h env s).2 := by
  induction p generalizing env s with
  | ret r => exact .ret
  | call c next ih => exact .call (env 0) (ih _ _ _)

/-- Every way to end is a run. -/
theorem ends_iff_run [Nonempty E] {p : Prog I R} {s s' : S} {r : R} :
    Ends h p s r s' ↔ ∃ env, p.run h env s = (r, s') := by
  constructor
  · intro hends
    induction hends with
    | ret =>
      obtain ⟨e⟩ := ‹Nonempty E›
      exact ⟨fun _ => e, rfl⟩
    | call e _ ih =>
      obtain ⟨env, henv⟩ := ih
      exact ⟨fun | 0 => e | n + 1 => env n, henv⟩
  · intro hrun
    obtain ⟨env, henv⟩ := hrun
    have := run_ends (h := h) p env s
    rwa [henv] at this

end Ends

/-- The calls of a run, in their order. -/
def calls (h : Handler I S E) : Prog I R → (Nat → E) → S → List I.Call
  | .ret _, _, _ => []
  | .call c next, env, s =>
    c :: (next (h c (env 0) s).1).calls h (fun n => env (n + 1)) (h c (env 0) s).2

@[simp] theorem calls_ret (h : Handler I S E) (r : R) (env : Nat → E) (s : S) :
    (ret r : Prog I R).calls h env s = [] := rfl

@[simp] theorem calls_call (h : Handler I S E) (c : I.Call) (next : I.Answer c → Prog I R) (env : Nat → E) (s : S) :
    (call c next).calls h env s =
      c :: (next (h c (env 0) s).1).calls h (fun n => env (n + 1)) (h c (env 0) s).2 := rfl

/-- One program runs after the other, on what the first left of the environment. -/
theorem run_bind_calls (h : Handler I S E) (p : Prog I R) (f : R → Prog I R') (env : Nat → E) (s : S) :
    (p >>= f).run h env s =
      (f (p.run h env s).1).run h (fun n => env (n + (p.calls h env s).length)) (p.run h env s).2 := by
  induction p generalizing env s with
  | ret r => rfl
  | call c next ih => exact ih _ _ _

theorem calls_bind (h : Handler I S E) (p : Prog I R) (f : R → Prog I R') (env : Nat → E) (s : S) :
    (p >>= f).calls h env s = p.calls h env s ++
      (f (p.run h env s).1).calls h (fun n => env (n + (p.calls h env s).length)) (p.run h env s).2 := by
  induction p generalizing env s with
  | ret r => rfl
  | call c next ih =>
    simp only [call_bind, calls_call, run_call, List.cons_append]
    rw [ih]
    rfl

/-- In the run no call waits for ever. -/
def Answered (waits : I.Call → E → S → Prop) (h : Handler I S E) : Prog I R → (Nat → E) → S → Prop
  | .ret _, _, _ => True
  | .call c next, env, s =>
    ¬ waits c (env 0) s ∧ (next (h c (env 0) s).1).Answered waits h (fun n => env (n + 1)) (h c (env 0) s).2

/-- The program alone with a store that may leave it waiting returns this, in this state. -/
def Returns (waits : I.Call → E → S → Prop) (h : Handler I S E) (p : Prog I R) (env : Nat → E) (s : S) (r : R) (s' : S) :
    Prop := p.Answered waits h env s ∧ p.run h env s = (r, s')

section Waiting
variable {waits : I.Call → E → S → Prop} {h : Handler I S E}

@[simp] theorem answered_ret (r : R) (env : Nat → E) (s : S) : (ret r : Prog I R).Answered waits h env s := trivial

@[simp] theorem answered_call (c : I.Call) (next : I.Answer c → Prog I R) (env : Nat → E) (s : S) :
    (call c next).Answered waits h env s ↔ ¬ waits c (env 0) s ∧
      (next (h c (env 0) s).1).Answered waits h (fun n => env (n + 1)) (h c (env 0) s).2 := Iff.rfl

/-- A run in which no call waits returns what it comes to, and no other run returns. -/
theorem exists_returns {p : Prog I R} {env : Nat → E} {s : S} {P : R → S → Prop} :
    (∃ r s', p.Returns waits h env s r s' ∧ P r s') ↔
      p.Answered waits h env s ∧ P (p.run h env s).1 (p.run h env s).2 := by
  constructor
  · intro hreturns
    obtain ⟨r, s', ⟨hanswered, hrun⟩, hp⟩ := hreturns
    rw [hrun]
    exact ⟨hanswered, hp⟩
  · intro hanswered
    exact ⟨_, _, ⟨hanswered.1, rfl⟩, hanswered.2⟩

end Waiting

end Prog

/-- What a program may call, by what it has been answered so far. -/
structure Protocol (I : Interface) (H : Type) where
  allowed : H → I.Call → Prop
  after : H → (c : I.Call) → I.Answer c → H

namespace Prog
variable {H : Type}

/-- Whatever it is answered, the program calls what the protocol allows and returns
what is asked of it. -/
def Follows (P : Protocol I H) (final : H → R → Prop) : Prog I R → H → Prop
  | .ret r, g => final g r
  | .call c next, g => P.allowed g c ∧ ∀ a, (next a).Follows P final (P.after g c a)

section Follows
variable {P : Protocol I H} {final : H → R → Prop} {final' : H → R' → Prop}

@[simp] theorem follows_ret (r : R) (g : H) : (ret r : Prog I R).Follows P final g ↔ final g r := Iff.rfl

@[simp] theorem follows_call (c : I.Call) (next : I.Answer c → Prog I R) (g : H) :
    (call c next).Follows P final g ↔ P.allowed g c ∧ ∀ a, (next a).Follows P final (P.after g c a) := Iff.rfl

theorem Follows.bind {p : Prog I R} {f : R → Prog I R'} {g : H} (hp : p.Follows P final g)
    (hf : ∀ g r, final g r → (f r).Follows P final' g) : (p >>= f).Follows P final' g := by
  induction p generalizing g with
  | ret r => exact hf g r hp
  | call c next ih => exact ⟨hp.1, fun a => ih a (hp.2 a)⟩

theorem Follows.mono {p : Prog I R} {g : H} (hp : p.Follows P final g) {final' : H → R → Prop}
    (hfinal : ∀ g r, final g r → final' g r) : p.Follows P final' g := by
  induction p generalizing g with
  | ret r => exact hfinal g r hp
  | call c next ih => exact ⟨hp.1, fun a => ih a (hp.2 a)⟩

end Follows

end Prog

end Interaction
