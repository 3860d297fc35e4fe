/- Names of binders: a reduction ends the same way for terms that differ in nothing else, as far as
its operators are the ones that nothing binds. -/
import NormalOrder.Proofs.Reduction.NormalOrder

namespace NormalOrder

namespace Outcome

/-- Reductions end the same way: with values that differ only in the names of their binders, or
with the same halt. -/
def Same : Outcome → Outcome → Prop
  | .ok v _, .ok w _ => v.AlphaEq w
  | .error halt _, .error halt' _ => halt = halt'
  | _, _ => False

/-- How a reduction ends, without the names of binders and the tally. -/
def nameless : Outcome → Except Halt Nameless
  | .ok v _ => .ok (v.nameless [])
  | .error halt _ => .error halt

theorem same_iff {o o' : Outcome} : o.Same o' ↔ o.nameless = o'.nameless := by
  cases o with
  | ok v tally =>
      cases o' with
      | ok w tally' => exact ⟨congrArg Except.ok, Except.ok.inj⟩
      | error halt tally' => exact ⟨False.elim, fun h => nomatch h⟩
  | error halt tally =>
      cases o' with
      | ok w tally' => exact ⟨False.elim, fun h => nomatch h⟩
      | error halt' tally' => exact ⟨congrArg Except.error, Except.error.inj⟩

end Outcome

/-- How the reduction without names ends, where an operator is a name that nothing binds. -/
def Nameless.outcome (fuel : Nat) (limits : Limits) (n : Nameless) : Except Halt Nameless :=
  match Machine.normal limits fuel 0 0 n .nil 0 with
  | .ok v _ => .ok v
  | .error halt _ => .error halt

namespace Term

variable {e e' : Term} {fuel : Nat} {limits : Limits}

/-- A reduction by scope ends as the one without names, unless it comes to the largest number. -/
theorem nameless_reduceBy_scope (he : e.Binders (· ≠ ""))
    (ho : ∀ tally, e.reduceBy .byScope fuel limits .empty ≠ .error .suffixOverflow tally) :
    (e.reduceBy .byScope fuel limits .empty).nameless = (e.nameless []).outcome fuel limits := by
  have hfollows := Reducing.wholeBy_follows limits fuel e .empty {}
  unfold Nameless.outcome
  cases hr : e.reduceBy .byScope fuel limits .empty with
  | ok v tally =>
      rw [show Reducing.wholeBy .byScope limits fuel e .empty {} = .ok v tally from hr] at hfollows
      obtain ⟨n, hn, rfl⟩ := hfollows
      rw [show Machine.normal limits fuel 0 0 (e.nameless []) .nil 0 =
        .ok (v.nameless []) tally.steps from hn]
      rfl
  | error halt tally =>
      rw [show Reducing.wholeBy .byScope limits fuel e .empty {} = .error halt tally from hr]
        at hfollows
      rcases hfollows with hnaming | hn
      · have hempty : Env.empty.All (fun _ => True) (· ≠ "") := trivial
        rcases hnaming.eq with rfl | rfl
        · exact absurd hr (reduceBy_ne_emptyName he hempty .byScope fuel limits tally)
        · exact absurd hr (ho tally)
      · rw [show Machine.normal limits fuel 0 0 (e.nameless []) .nil 0 = .error halt tally.steps
          from hn]
        rfl

/-- Names of binders and the reducer's rule for operators. The rule is by scope where no operator's
name is bound. Where it is for two terms that differ only in the names of their binders, both end
the same way; and where it is for one, the other ends the same way if and only if it ends as the
reduction without names. -/
theorem same_outcome_of_alphaEq (fuel : Nat) (limits : Limits) (h : e.AlphaEq e')
    (he : e.Binders (· ≠ "")) (he' : e'.Binders (· ≠ ""))
    (ho : ∀ tally, e.reduceWithin fuel limits .empty ≠ .error .suffixOverflow tally)
    (ho' : ∀ tally, e'.reduceWithin fuel limits .empty ≠ .error .suffixOverflow tally) :
    (e.Binders Name.Plain →
      e.reduceWithin fuel limits .empty = e.reduceBy .byScope fuel limits .empty) ∧
    (e.reduceWithin fuel limits .empty = e.reduceBy .byScope fuel limits .empty →
      e'.reduceWithin fuel limits .empty = e'.reduceBy .byScope fuel limits .empty →
      (e.reduceWithin fuel limits .empty).Same (e'.reduceWithin fuel limits .empty)) ∧
    (e.reduceWithin fuel limits .empty = e.reduceBy .byScope fuel limits .empty →
      ((e.reduceWithin fuel limits .empty).Same (e'.reduceWithin fuel limits .empty) ↔
        (e'.reduceWithin fuel limits .empty).nameless = (e'.nameless []).outcome fuel limits)) := by
  -- By scope, the end of a reduction depends on the term without names only.
  have hscope : ∀ {t : Term}, t.Binders (· ≠ "") →
      (∀ tally, t.reduceWithin fuel limits .empty ≠ .error .suffixOverflow tally) →
      t.reduceWithin fuel limits .empty = t.reduceBy .byScope fuel limits .empty →
      (t.reduceWithin fuel limits .empty).nameless = (t.nameless []).outcome fuel limits := by
    intro t ht hto hrule
    rw [hrule] at hto ⊢
    exact nameless_reduceBy_scope ht hto
  have hempty : Env.empty.All Name.Plain Name.Plain := trivial
  refine ⟨fun hplain => reduceWithin_of_plain hplain hempty fuel limits, fun hr hr' => ?_,
    fun hr => ?_⟩
  · rw [Outcome.same_iff, hscope he ho hr, hscope he' ho' hr', h]
  · rw [Outcome.same_iff, hscope he ho hr, h]
    exact eq_comm

/-- A function that applies what it is given to two numbers, and an abstraction that gives it its
own variable. -/
def applyBound (x : Name) : Term :=
  .app (.lam "g" (.lam x (.app (.var "g") (.var x))))
    (.lam "f" (.app (.app (.var "f") (.num 1)) (.num 2)))

/-- Both reductions go by scope, and end the same way. -/
theorem same_outcome_of_plain_binders :
    ((applyBound "p").reduceWithin 9 {} .empty).Same
      ((applyBound "q").reduceWithin 9 {} .empty) := by
  have hplain : ∀ {x : Name}, x.Plain → (applyBound x).Binders Name.Plain := fun hx =>
    ⟨⟨rfl, hx, trivial, trivial⟩, rfl, ⟨trivial, trivial⟩, trivial⟩
  have hnames : ∀ {x : Name}, x ≠ "" → (applyBound x).Binders (· ≠ "") := fun hx =>
    ⟨⟨by decide, hx, trivial, trivial⟩, by decide, ⟨trivial, trivial⟩, trivial⟩
  have hempty : Env.empty.All Name.Plain Name.Plain := trivial
  have hp : Name.Plain "p" := rfl
  have hq : Name.Plain "q" := rfl
  have halpha : (applyBound "p").AlphaEq (applyBound "q") := rfl
  have hends : ∀ {o : Outcome} {v : Term} {tally : Tally}, o = .ok v tally →
      ∀ tally', o ≠ .error .suffixOverflow tally' := fun h _ h' => nomatch h.symm.trans h'
  obtain ⟨-, hsame, -⟩ := same_outcome_of_alphaEq 9 {} halpha (hnames (by decide))
    (hnames (by decide)) (hends rfl) (hends rfl)
  exact hsame (reduceWithin_of_plain (hplain hp) hempty 9 {})
    (reduceWithin_of_plain (hplain hq) hempty 9 {})

/-- Bound names do not always go without a meaning: an operator's name, bound by an abstraction of
the result, is applied to the numbers in a function from outside that abstraction. -/
theorem bound_name_matters : (applyBound "+").AlphaEq (applyBound "p") ∧
    (∃ tally, (applyBound "+").reduce {} .empty = .ok (.lam "+" (.num (1 + 2))) tally) ∧
    (∃ tally, (applyBound "p").reduce {} .empty =
      .ok (.lam "p" (.app (.app (.var "p") (.num 1)) (.num 2))) tally) ∧
    ¬ ((applyBound "+").reduce {} .empty).Same ((applyBound "p").reduce {} .empty) :=
  ⟨rfl, ⟨_, rfl⟩, ⟨_, rfl⟩, fun h => nomatch h⟩

end Term

end NormalOrder
