/- Reduction is normal order: where no operator's name is bound, a reduction ends as the contraction
of leftmost outermost redexes does, on what the term stands for in its environment. -/
import NormalOrder.Proofs.Machine.Adequacy
import NormalOrder.Proofs.Machine.Soundness
import NormalOrder.Proofs.Reduction.Overflow
import NormalOrder.Proofs.Reduction.Plain
import NormalOrder.Proofs.Reduction.Simulation

namespace NormalOrder

open Nameless (Reaches)

variable {t : Term} {env : Env}

theorem Reducing.wholeBy_follows (limits : Limits) (fuel : Nat) (t : Term) (env : Env) :
    Follows (fun v n => n = v.nameless []) (wholeBy .byScope limits fuel t env)
      (Machine.normal limits fuel 0 0 (t.nameless env.frames.names) env.frames.cells) := by
  have hrun := (reductionBy_follows limits fuel).2 0 [] t env env.frames.cells (.whole t env)
  rw [← bind_pure (Machine.normal limits fuel 0 0 _ _)]
  exact hrun.bind fun v n hv => fun _ => ⟨n, rfl, hv⟩

theorem Env.denote_explained (limits : Limits) (fuel : Nat) (t : Term) (env : Env) :
    Machine.Explains (fun k v => v.Normal ∧ Reaches k (env.denote t) v)
      (Machine.Divides (env.denote t))
      (Machine.normal limits fuel 0 0 (t.nameless env.frames.names) env.frames.cells) := by
  rw [env.denote_eq]
  exact (Machine.reduction_explained limits fuel).2 0 0 _ _ (env.frames.fits_cells 0)

theorem Term.reaches_of_reduceBy {fuel : Nat} {limits : Limits} {v : Term} {tally : Tally}
    (h : t.reduceBy .byScope fuel limits env = .ok v tally) :
    (v.nameless []).Normal ∧ Reaches tally.steps (env.denote t) (v.nameless []) := by
  have hfollows := Reducing.wholeBy_follows limits fuel t env {}
  have hexplained := Env.denote_explained limits fuel t env 0
  rw [reduceBy] at h
  rw [h] at hfollows
  obtain ⟨n, hn, rfl⟩ := hfollows
  rw [hn] at hexplained
  obtain ⟨k, hk, hnormal, hreaches⟩ := hexplained
  rw [Nat.zero_add] at hk
  exact ⟨hnormal, hk ▸ hreaches⟩

theorem Term.divides_of_reduceBy {fuel : Nat} {limits : Limits} {tally : Tally}
    (h : t.reduceBy .byScope fuel limits env = .error (.error .divisionByZero) tally) :
    Machine.Divides (env.denote t) tally.steps := by
  have hfollows := Reducing.wholeBy_follows limits fuel t env {}
  have hexplained := Env.denote_explained limits fuel t env 0
  rw [reduceBy] at h
  rw [h] at hfollows
  rcases hfollows with hnaming | hn
  · cases hnaming
  · rw [hn] at hexplained
    obtain ⟨k, hk, hdivides⟩ := hexplained
    rw [Nat.zero_add] at hk
    exact hk ▸ hdivides

/-- Where normal order comes to a normal form, a reduction by scope with enough room returns it, or
stops at a binder that has no other name. -/
theorem Term.reduceBy_of_reaches {k : Nat} {n : Nameless} (h : Reaches k (env.denote t) n)
    (hn : n.Normal) : ∃ room, ∀ limits fuel, room ≤ fuel → room ≤ limits.maxDepth →
      (∀ limit, limits.maxSteps = some limit → k ≤ limit) →
      (∃ v tally, t.reduceBy .byScope fuel limits env = .ok v tally ∧ v.nameless [] = n ∧
        tally.steps = k) ∨
      ∃ halt tally, t.reduceBy .byScope fuel limits env = .error halt tally ∧ halt.IsNaming := by
  obtain ⟨room, hrun⟩ := (Machine.matched k _).normal n h hn 0 env.frames.cells
    (t.nameless env.frames.names) (env.frames.fits_cells 0) (env.denote_eq t).symm
  refine ⟨room, ?_⟩
  intro limits fuel hfuel hdepth hsteps
  -- The reduction without names returns, and what follows it does the same or comes to a naming.
  have hmachine := hrun limits fuel 0 0
    ⟨hfuel, by omega, fun limit hl => by have := hsteps limit hl; omega⟩
  have hfollows := Reducing.wholeBy_follows limits fuel t env {}
  rw [hmachine] at hfollows
  rw [reduceBy]
  cases hr : Reducing.wholeBy .byScope limits fuel t env {} with
  | ok v tally =>
      rw [hr] at hfollows
      obtain ⟨m, hm, rfl⟩ := hfollows
      injection hm with hv hk
      exact .inl ⟨v, tally, rfl, hv.symm, by omega⟩
  | error halt tally =>
      rw [hr] at hfollows
      exact .inr ⟨halt, tally, rfl, hfollows.resolve_right fun he => by cases he⟩

/-- Without a bound operator, what a reduction counts is the contractions of normal order: as many
lead to its value, which has no redex, or to a number that is to be divided by zero next. -/
theorem Term.normal_order_of_reduceWithin (ht : t.Binders Name.Plain)
    (henv : env.All Name.Plain Name.Plain) (fuel : Nat) (limits : Limits) :
    (∀ v tally, t.reduceWithin fuel limits env = .ok v tally →
      ∃ n, Reaches tally.steps (env.denote t) n ∧ n.Normal ∧ v.nameless [] = n) ∧
    ∀ tally, t.reduceWithin fuel limits env = .error (.error .divisionByZero) tally →
      ∃ n, ∃ left right : Float, Reaches tally.steps (env.denote t) n ∧
        n.leftmostRedex? = some (.app (.app (.free "/") (.num left)) (.num right)) ∧
        (right == 0.0) = true := by
  rw [reduceWithin_of_plain ht henv]
  constructor
  · intro v tally h
    obtain ⟨hn, hreaches⟩ := reaches_of_reduceBy h
    exact ⟨_, hreaches, hn, rfl⟩
  · intro tally h
    obtain ⟨n, hn, hreaches⟩ := divides_of_reduceBy h
    obtain ⟨-, left, right, hredex, hz⟩ := Nameless.leftmostRedex?_of_next_error hn
    exact ⟨n, left, right, hreaches, hredex, hz⟩

/-- The binder `y` gives way to the argument `y`, and `z` is looked up in the environment. -/
theorem Term.normal_order_of_renaming_run : ∃ n,
    Reaches 1 ((Env.empty.resolved "z" (Env.empty.suspend (.num 2))).denote
      (.app (.lam "x" (.lam "y" (.app (.var "x") (.var "z")))) (.var "y"))) n ∧
    n.Normal ∧ (Term.lam "y1" (.app (.var "y") (.num 2))).nameless [] = n :=
  have ht : (Term.app (.lam "x" (.lam "y" (.app (.var "x") (.var "z")))) (.var "y")).Binders
      Name.Plain := ⟨⟨rfl, rfl, trivial, trivial⟩, trivial⟩
  have henv : (Env.empty.resolved "z" (Env.empty.suspend (.num 2))).All Name.Plain Name.Plain :=
    ⟨rfl, trivial, trivial, trivial⟩
  (normal_order_of_reduceWithin ht henv 9 {}).1 _ _ rfl

/-- Without a bound operator and without an empty binder name, the normal form of normal order is
found whenever there is one: a reduction with enough room returns it, unless it comes to a binder
that must have another name, and the search for one to a name with the largest number there is. -/
theorem Term.reduceWithin_of_normal_order {k : Nat} {n : Nameless} (ht : t.Binders Name.Plain)
    (henv : env.All Name.Plain Name.Plain) (hte : t.Binders (· ≠ ""))
    (henve : env.All (fun _ => True) (· ≠ "")) (h : Reaches k (env.denote t) n) (hn : n.Normal) :
    ∃ room, ∀ limits fuel, room ≤ fuel → room ≤ limits.maxDepth →
      (∀ limit, limits.maxSteps = some limit → k ≤ limit) →
      (∃ v tally, t.reduceWithin fuel limits env = .ok v tally ∧ v.nameless [] = n ∧
        tally.steps = k) ∨
      (∃ tally, t.reduceWithin fuel limits env = .error .suffixOverflow tally) ∧
        ∃ c, (Reducing.Call.start fuel t env).Reaches limits c ∧ c.Overflows limits := by
  obtain ⟨room, hroom⟩ := reduceBy_of_reaches h hn
  refine ⟨room, ?_⟩
  intro limits fuel hfuel hdepth hsteps
  have hrun : t.reduceWithin fuel limits env = t.reduceBy .byScope fuel limits env :=
    reduceWithin_of_plain ht henv fuel limits
  rcases hroom limits fuel hfuel hdepth hsteps with hok | ⟨halt, tally, hr, hnaming⟩
  · rw [hrun]
    exact .inl hok
  · rcases hnaming.eq with rfl | rfl
    · exact absurd hr (reduceBy_ne_emptyName hte henve .byScope fuel limits tally)
    · have hoverflow : ∃ tally, t.reduceWithin fuel limits env = .error .suffixOverflow tally :=
        ⟨tally, hrun.trans hr⟩
      exact .inr ⟨hoverflow, reduceWithin_eq_overflow_iff.mp hoverflow⟩

def Term.divergent : Term :=
  .app (.lam "x" (.app (.var "x") (.var "x"))) (.lam "x" (.app (.var "x") (.var "x")))

/-- An argument that is not needed need not have a normal form. -/
def Term.discarding : Term :=
  .app (.lam "x" (.lam "y" (.var "y"))) divergent

/-- The value is returned, as no binder has to be renamed. -/
theorem Term.reduceWithin_of_discarded_argument : ∃ room, ∀ limits fuel, room ≤ fuel →
    room ≤ limits.maxDepth → (∀ limit, limits.maxSteps = some limit → 1 ≤ limit) →
    ∃ v tally, discarding.reduceWithin fuel limits .empty = .ok v tally ∧
      v.nameless [] = .lam (.bound 0) ∧ tally.steps = 1 := by
  have hplain : discarding.Binders Name.Plain :=
    ⟨⟨rfl, rfl, trivial⟩, ⟨rfl, trivial, trivial⟩, rfl, trivial, trivial⟩
  have hnames : discarding.Binders (· ≠ "") :=
    ⟨⟨by decide, by decide, trivial⟩, ⟨by decide, trivial, trivial⟩, by decide, trivial, trivial⟩
  have hempty : ∀ entry binder, Env.empty.All entry binder := fun _ _ => trivial
  have hclear : discarding.Named (Name.Clear 5) := by
    intro x hx
    revert x
    decide
  have hrun : discarding.reduceWithin 5 ⟨none, 5⟩ .empty = .ok (.lam "y" (.var "y")) _ := rfl
  obtain ⟨room, hroom⟩ := reduceWithin_of_normal_order hplain (hempty _ _) hnames (hempty _ _)
    (.step trivial rfl (.refl _)) trivial
  refine ⟨room, ?_⟩
  intro limits fuel hfuel hdepth hsteps
  refine (hroom limits fuel hfuel hdepth hsteps).resolve_right fun ⟨_, c, hc, hoverflows⟩ => ?_
  have hends := ne_outOfFuel_of_within (.of_eq_ok hrun) limits
  exact not_overflows_of_nesting (by decide) hclear Env.named_empty hends hc hoverflows

end NormalOrder
