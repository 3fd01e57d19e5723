import CacheFs.Library.Interaction

/-! Programs over one interface run by functions over another.

`through` puts the function of each call in its place, so that a call becomes several and
programs that take turns may come between these. A function that does what a handler does
to another store in one of its calls, and nothing in the others, keeps up with the handler
all the same (`Matches.goesOn`): the state of the program is always that before the call
or that after it. The functions may owe that for some calls only; `Makes` says that a
program makes no others as long as it is answered well. -/
namespace Interaction

variable {I J : Interface} {R S T E E' : Type}

namespace Prog

def through (impl : (c : I.Call) → Prog J (I.Answer c)) : Prog I R → Prog J R
  | .ret r => .ret r
  | .call c next => impl c >>= fun a => (next a).through impl

@[simp] theorem through_ret (impl : (c : I.Call) → Prog J (I.Answer c)) (r : R) :
    (ret r : Prog I R).through impl = .ret r := rfl

@[simp] theorem through_call (impl : (c : I.Call) → Prog J (I.Answer c)) (c : I.Call) (next : I.Answer c → Prog I R) :
    (call c next).through impl = (impl c >>= fun a => (next a).through impl) := rfl

/-- As long as it is answered well, the program makes only such calls. -/
def Makes (ok : I.Call → Prop) (good : (c : I.Call) → I.Answer c → Prop) : Prog I R → Prop
  | .ret _ => True
  | .call c next => ok c ∧ ∀ a, good c a → (next a).Makes ok good

section Makes
variable {ok : I.Call → Prop} {good : (c : I.Call) → I.Answer c → Prop}

theorem Makes.bind {R' : Type} {p : Prog I R} {f : R → Prog I R'} (hp : p.Makes ok good)
    (hf : ∀ r, (f r).Makes ok good) : (p >>= f).Makes ok good := by
  induction p with
  | ret r => exact hf r
  | call c next ih => exact ⟨hp.1, fun a ha => ih a (hp.2 a ha)⟩

end Makes

/-- A program whose calls are to functions that follow a protocol and leave it where it was
follows it. -/
theorem Follows.through {H H' : Type} {Q : Protocol I H'} {final : H' → R → Prop} {P : Protocol J H} {g₀ : H}
    {impl : (c : I.Call) → Prog J (I.Answer c)}
    (himpl : ∀ g c, Q.allowed g c → (impl c).Follows P (fun g _ => g = g₀) g₀) {p : Prog I R} {g : H'}
    (hp : p.Follows Q final g) : (p.through impl).Follows P (fun g _ => g = g₀) g₀ := by
  induction p generalizing g with
  | ret r => rfl
  | call c next ih =>
    refine (himpl g c hp.1).bind fun g' a hg' => ?_
    subst hg'
    exact ih a (hp.2 a)

/-! ### Functions that do a call at once -/

/-- The function does nothing more, and returns this. -/
def Done (g : Handler J T E') (Rep : S → T → Prop) {A : Type} (a : A) : Prog J A → Prop
  | .ret r => r = a
  | .call d next => ∀ s t e, Rep s t → Rep s (g d e t).2 ∧ (next (g d e t).1).Done g Rep a

/-- The function has yet to do what the handler does for the call, and does it in one call. -/
def Undone (h : Handler I S E) (g : Handler J T E') (Rep : S → T → Prop) (c : I.Call) : Prog J (I.Answer c) → Prop
  | .ret _ => False
  | .call d next => ∀ s t e, Rep s t →
    (Rep s (g d e t).2 ∧ (next (g d e t).1).Undone h g Rep c) ∨
      ∃ e', Rep (h c e' s).2 (g d e t).2 ∧ (next (g d e t).1).Done g Rep (h c e' s).1

end Prog

/-- A program through the functions is in the middle of one, before or after what it does. -/
inductive Matches (impl : (c : I.Call) → Prog J (I.Answer c)) (h : Handler I S E) (g : Handler J T E')
    (Rep : S → T → Prop) : Prog J R → Prog I R → Prop where
  | before {c : I.Call} {q : Prog J (I.Answer c)} {next : I.Answer c → Prog I R} :
      q.Undone h g Rep c → Matches impl h g Rep (q >>= fun a => (next a).through impl) (.call c next)
  | after {A : Type} {a : A} {q : Prog J A} {next : A → Prog I R} :
      q.Done g Rep a → Matches impl h g Rep (q >>= fun b => (next b).through impl) (next a)

section Matches
variable {impl : (c : I.Call) → Prog J (I.Answer c)} {h : Handler I S E} {g : Handler J T E'} {Rep : S → T → Prop}
  {ok : I.Call → Prop} {good : (c : I.Call) → I.Answer c → Prop} {p : Prog I R} {s : S} {t : T}

theorem matches_through (p : Prog I R) : Matches impl h g Rep (p.through impl) p := by
  let next : Unit → Prog I R := fun _ => p
  show Matches impl h g Rep ((Prog.ret () : Prog J Unit) >>= fun b => (next b).through impl) (next ())
  exact .after rfl

/-- What the next call of these does for the program: it goes on as a call of its own, or not. -/
def GoesOn (impl : (c : I.Call) → Prog J (I.Answer c)) (h : Handler I S E) (g : Handler J T E') (Rep : S → T → Prop)
    (q : Prog J R) (p : Prog I R) : Prop :=
  ∃ d k, q = .call d k ∧ ∀ s t e, Rep s t →
    (Rep s (g d e t).2 ∧ Matches impl h g Rep (k (g d e t).1) p) ∨
      ∃ c next e', p = .call c next ∧ Rep (h c e' s).2 (g d e t).2 ∧
        Matches impl h g Rep (k (g d e t).1) (next (h c e' s).1)

theorem undone_goesOn {c : I.Call} {q : Prog J (I.Answer c)} {next : I.Answer c → Prog I R}
    (hundone : q.Undone h g Rep c) : GoesOn impl h g Rep (q >>= fun a => (next a).through impl) (.call c next) := by
  cases q with
  | ret => exact hundone.elim
  | call d k =>
    refine ⟨d, _, rfl, fun s t e hrep => ?_⟩
    obtain ⟨hrep', hlater⟩ | ⟨e', hrep', hdone⟩ := hundone s t e hrep
    · exact .inl ⟨hrep', .before hlater⟩
    · exact .inr ⟨c, next, e', rfl, hrep', .after hdone⟩

/-- A program through the functions has returned what the program has, or goes on. -/
theorem Matches.goesOn {q : Prog J R} (himpl : ∀ c, ok c → (impl c).Undone h g Rep c) (hp : p.Makes ok good)
    (hm : Matches impl h g Rep q p) : (∃ r, q = .ret r ∧ p = .ret r) ∨ GoesOn impl h g Rep q p := by
  cases hm with
  | before hundone => exact .inr (undone_goesOn hundone)
  | @after A a q next hdone =>
    cases q with
    | call d k =>
      refine .inr ⟨d, _, rfl, fun s t e hrep => .inl ?_⟩
      obtain ⟨hrep', hrest⟩ := hdone s t e hrep
      exact ⟨hrep', .after hrest⟩
    | ret b =>
      obtain rfl : b = a := hdone
      rw [Prog.ret_bind]
      cases hnext : next b with
      | ret r => exact .inl ⟨r, rfl, rfl⟩
      | call c next' =>
        rw [hnext] at hp
        exact .inr (undone_goesOn (himpl c hp.1))

end Matches

/-- What the functions owe: to do at once to `T` what the handler does to the `S` it stands for,
and to be able to do whatever that may do. -/
structure Implements (impl : (c : I.Call) → Prog J (I.Answer c)) (h : Handler I S E) (g : Handler J T E')
    (Rep : S → T → Prop) (ok : I.Call → Prop) : Prop where
  undone : ∀ c, ok c → (impl c).Undone h g Rep c
  complete : ∀ {c s t}, ok c → Rep s t → ∀ e, ∃ t', Prog.Ends g (impl c) t (h c e s).1 t' ∧ Rep (h c e s).2 t'

end Interaction
