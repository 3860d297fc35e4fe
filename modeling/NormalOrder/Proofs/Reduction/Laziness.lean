/- Arguments are reduced where they are met, and nowhere else.

The body of an abstraction that does not have the parameter never meets the argument. A truth value
goes on with the one of its two arguments that it selects, and never meets the other. -/
import NormalOrder.Proofs.Reduction.Calls
import NormalOrder.Proofs.Reduction.Relevance

namespace NormalOrder

namespace Term

open Reducing

/-- An argument that the body does not use makes no difference, whatever it is. Applied to it, the
abstraction ends as its body does, with one contraction more, where one contraction and one head
reduction more are allowed. -/
theorem reduceWithin_of_unused_argument {x : Name} {body : Term} (hx : x ∉ body.freeNames)
    (hplain : x.Plain) (argument : Term) (env : Env) {fuel fuel' n depth : Nat}
    (huncut : Uncut (ending (body.reduceWithin fuel ⟨some n, depth⟩ env))) (hfuel : fuel < fuel') :
    ending ((app (lam x body) argument).reduceWithin fuel' ⟨some (n + 1), depth + 1⟩ env) =
        ending (body.reduceWithin fuel ⟨some n, depth⟩ env) ∧
      (lastTally ((app (lam x body) argument).reduceWithin fuel' ⟨some (n + 1), depth + 1⟩
        env)).steps = (lastTally (body.reduceWithin fuel ⟨some n, depth⟩ env)).steps + 1 := by
  have hbody : body.reduceWithin fuel ⟨some n, depth⟩ (env.resolved x (env.suspend argument)) =
      body.reduceWithin fuel ⟨some n, depth⟩ env :=
    reduceWithin_of_alike (env.alikeOn_resolved _ fun h => h.elim hx fun h => h hplain) _ _
  obtain ⟨htwo, hdepth⟩ := room_of_uncut huncut
  have hsteps := steps_le_of_uncut huncut
  have hleads := Leads.enter (HeadReturns.lam x body env) argument
  rw [← hbody] at huncut hsteps ⊢
  refine And.imp_right (fun h => h.trans (Nat.add_comm _ _)) (hleads.reduceWithin huncut hfuel ?_
    (Nat.le_refl _) (Nat.succ_le_succ hdepth) ?_)
  · omega
  · rintro limit ⟨⟩
    omega

/-- The argument would divide by zero, and no contraction is left for it. -/
theorem reduceWithin_of_unused_quotient :
    ending ((lam "y" (var "y")).reduceWithin 3 ⟨some 0, 1⟩ .empty) = .ok (lam "y" (var "y")) ∧
    ending ((app (lam "x" (lam "y" (var "y"))) (app (app (var "/") (num 1)) (num 0))).reduceWithin
      4 ⟨some 1, 2⟩ .empty) = .ok (lam "y" (var "y")) := by
  have hbody : ending ((lam "y" (var "y")).reduceWithin 3 ⟨some 0, 1⟩ .empty) =
    .ok (lam "y" (var "y")) := rfl
  have huncut : Uncut (ending ((lam "y" (var "y")).reduceWithin 3 ⟨some 0, 1⟩ .empty)) :=
    fun _ he => nomatch he
  have hrun := reduceWithin_of_unused_argument (x := "x") (by decide) rfl
    (app (app (var "/") (num 1)) (num 0)) .empty huncut (Nat.lt_succ_self 3)
  exact ⟨hbody, hrun.1.trans hbody⟩

variable {env : Env} {c c' : Term} {a b : Float} {fuel₁ fuel₂ fuel : Nat}
  {limits₁ limits₂ limits : Limits} {tally₁ tally₂ : Tally}

/-- The comparison of `c` and `c'` by `=`, applied to the terms that it chooses between. -/
def choice (c c' x y : Term) : Term :=
  app (app (app (app (var "=") c) c') x) y

/-- A comparison of two terms whose values are numbers leads to the one of two terms that it
chooses, in the environment where it stands. The names of the truth value's binders are met in an
environment of their own. -/
theorem choice_leads (henv : env.lookup "=" = none)
    (hc : c.reduceWithin fuel₁ limits₁ env = .ok (num a) tally₁)
    (hc' : c'.reduceWithin fuel₂ limits₂ env = .ok (num b) tally₂) (x y : Term) :
    ∃ room, Leads 2 room (tally₁.steps + tally₂.steps + 3) (choice c c' x y) env
      (if a == b then x else y) env := by
  have hsign : HeadReturns 1 0 (var "=") env (.stuck (var "=")) :=
    .free fun s hs => nomatch henv.symm.trans hs
  have hleft := hsign.stuck (.of_reduceWithin hc) rfl
  have hresult : Operator.contract? (app (var "=") (num a)) (num b) env =
      .ok (some (truth (a == b))) := by
    rw [Operator.contract?, henv]
    rfl
  have htruth := (Leads.operate hleft (.of_reduceWithin hc') hresult).returns
    (.lam "1" (lam "2" (var (if a == b then "1" else "2"))) .empty)
  have hfirst := (Leads.enter htruth x).returns
    (.lam "2" (var (if a == b then "1" else "2")) (Env.empty.resolved "1" (env.suspend x)))
  have hsecond := Leads.enter hfirst y
  have hchosen : ((Env.empty.resolved "1" (env.suspend x)).resolved "2" (env.suspend y)).lookup
      (if a == b then "1" else "2") =
        some (.resolved (env.suspend (if a == b then x else y))) := by
    cases a == b <;> rfl
  have hleads := hsecond.trans (.follow hchosen)
  rw [Nat.zero_add] at hleads
  exact ⟨_, hleads⟩

/-- A comparison of numbers chooses lazily between two terms. With enough room it ends as the term
does that it chooses, whatever the other one is, and whatever the environment has for the names that
the binders of truth values have. -/
theorem reduceWithin_of_comparison (henv : env.lookup "=" = none)
    (hc : c.reduceWithin fuel₁ limits₁ env = .ok (num a) tally₁)
    (hc' : c'.reduceWithin fuel₂ limits₂ env = .ok (num b) tally₂) {x y : Term}
    (huncut : Uncut (ending ((if a == b then x else y).reduceWithin fuel limits env))) :
    ∃ room, ∀ fuel' limits', room ≤ fuel' → room ≤ limits'.maxDepth →
      (∀ limit, limits'.maxSteps = some limit → tally₁.steps + tally₂.steps + 3 +
        (lastTally ((if a == b then x else y).reduceWithin fuel limits env)).steps ≤ limit) →
      ending ((choice c c' x y).reduceWithin fuel' limits' env) =
        ending ((if a == b then x else y).reduceWithin fuel limits env) := by
  obtain ⟨room, hleads⟩ := choice_leads henv hc hc' x y
  refine ⟨room + fuel + limits.maxDepth + 3, fun fuel' limits' hfuel hdepth hsteps => ?_⟩
  exact (hleads.reduceWithin huncut (by omega) (by omega) (by omega) (by omega) hsteps).1

/-- An environment where the names of the binders of truth values stand for other terms. -/
def numerals : Env :=
  (Env.empty.resolved "1" (Env.empty.suspend (num 2))).resolved "2" (Env.empty.suspend (var "z"))

/-- The term that is not chosen would divide by zero. -/
theorem reduceWithin_of_comparison_numerals : ∃ room, ∀ fuel limits, room ≤ fuel →
    room ≤ limits.maxDepth → (∀ limit, limits.maxSteps = some limit → 3 ≤ limit) →
    ending ((choice (var "1") (num 2) (var "2") (app (app (var "/") (num 1)) (num 0))).reduceWithin
      fuel limits numerals) = .ok (var "z") := by
  have hleft : (var "1").reduceWithin 3 {} numerals = .ok (num 2) _ := rfl
  have hright : (num 2).reduceWithin 3 {} numerals = .ok (num 2) _ := rfl
  have hchosen : (if (2 : Float) == 2 then var "2" else app (app (var "/") (num 1)) (num 0)) =
      var "2" := if_pos (by decide)
  have hrun : (var "2").reduceWithin 3 {} numerals = .ok (var "z") _ := rfl
  have huncut : Uncut (ending ((if (2 : Float) == 2 then var "2" else
      app (app (var "/") (num 1)) (num 0)).reduceWithin 3 {} numerals)) := by
    rw [hchosen, hrun]
    exact fun _ he => nomatch he
  have hchoice := reduceWithin_of_comparison rfl hleft hright huncut
  rw [hchosen, hrun] at hchoice
  exact hchoice

end Term

end NormalOrder
