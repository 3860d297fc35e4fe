/- What holds of all results of reduction by a rule: properties that pass to an application unless
the rule applies an operator there. -/
import NormalOrder.Proofs.Reduction.Ensures
import NormalOrder.Proofs.Reduction.Settled

namespace NormalOrder

/-- A property of terms below the binders of a scope that the results of reduction by a rule have:
it passes to an application unless the rule applies an operator there. -/
structure Rule.Closed (rule : Rule) (kept : List Name → Term → Prop) : Prop where
  var : ∀ scope x, kept scope (.var x)
  num : ∀ scope v, kept scope (.num v)
  lam : ∀ scope x b, kept (x :: scope) b → kept scope (.lam x b)
  app : ∀ scope env f a, f.isLam = false → kept scope f → kept scope a →
    Reducing.contractBy? (rule scope env) f a = none → kept scope (.app f a)

theorem Rule.closed_betaNormal (rule : Rule) : rule.Closed fun _ => Term.BetaNormal where
  var _ _ := trivial
  num _ _ := trivial
  lam _ _ _ hb := hb
  app _ _ _ _ hl hf ha _ := ⟨hl, hf, ha⟩

theorem Rule.closed_settled {rule : Rule}
    (h : ∀ scope env x, Rule.byScope scope env x = true → rule scope env x = true) :
    rule.Closed Term.Settled where
  var _ _ := trivial
  num _ _ := trivial
  lam _ _ _ hb := hb
  app scope env _ _ _ hf ha hc :=
    ⟨Reducing.contractBy?_eq_none_of_imp hc fun x hx => h scope env x hx, hf, ha⟩

namespace Reducing

/-- What holds of a result of head reduction that is no abstraction. -/
def Stuck (kept : Term → Prop) : Head → Prop
  | .closure _ _ _ => True
  | .stuck t => kept t

/-- Results of head reductions with this fuel have a property, if they are no abstractions. -/
def HeadResults (rule : Rule) (kept : List Name → Term → Prop) (limits : Limits) (fuel : Nat) :
    Prop :=
  ∀ depth scope t env, Ensures (Stuck fun t => t.isLam = false ∧ kept scope t) (fun _ => True)
    (headBy rule limits fuel depth scope t env)

def NormalResults (rule : Rule) (kept : List Name → Term → Prop) (limits : Limits) (fuel : Nat) :
    Prop :=
  ∀ depth scope t env,
    Ensures (kept scope) (fun _ => True) (normalBy rule limits fuel depth scope t env)

section Results

variable {rule : Rule} {kept : List Name → Term → Prop} {limits : Limits} {fuel : Nat}

theorem HeadResults.succ (hclosed : rule.Closed kept) (ihHead : HeadResults rule kept limits fuel)
    (ihNormal : NormalResults rule kept limits fuel) :
    HeadResults rule kept limits (fuel + 1) := by
  intro depth scope t env
  by_cases hd : limits.maxDepth ≤ depth
  · rw [headBy_of_deep hd]
    exact .throw trivial
  cases t with
  | var x =>
      rcases headBy_var hd x env with ⟨s, -, hrun⟩ | hrun
      · rw [hrun]
        exact ihHead (depth + 1) scope s.term s.home
      · rw [hrun]
        exact .pure ⟨rfl, hclosed.var scope x⟩
  | num v =>
      rw [headBy, if_neg hd]
      exact .pure ⟨rfl, hclosed.num scope v⟩
  | lam x body =>
      rw [headBy, if_neg hd]
      exact .pure trivial
  | app f a =>
      rw [headBy, if_neg hd]
      apply (ihHead (depth + 1) scope f env).bind
      intro r hr
      cases r with
      | closure x body home =>
          refine (countStep_ensures limits fun _ => trivial).bind ?_
          intro _ _
          apply (Ensures.of_modify _).bind
          intro _ _
          exact ihHead (depth + 1) scope body _
      | stuck g =>
          apply (ihNormal (depth + 1) scope a env).bind
          intro v hv
          apply (operateBy_ensures_none limits _ g v).bind
          intro r hnone
          cases r with
          | none => exact .pure ⟨rfl, hclosed.app scope env g v hr.1 hr.2 hv (hnone rfl)⟩
          | some t => exact ihHead (depth + 1) scope t .empty

theorem NormalResults.succ (hclosed : rule.Closed kept)
    (ihHead : HeadResults rule kept limits fuel) (ihNormal : NormalResults rule kept limits fuel) :
    NormalResults rule kept limits (fuel + 1) := by
  intro depth scope t env
  rw [normalBy]
  apply (ihHead depth scope t env).bind
  intro r hr
  cases r with
  | stuck v => exact .pure hr.2
  | closure x body home =>
      refine (Ensures.of_forall (fun _ => trivial) _).bind fun opened (_ : True) => ?_
      apply (ihNormal depth (opened.1 :: scope) opened.2 _).bind
      intro v hv
      exact .pure (hclosed.lam scope opened.1 v hv)

/-- Results have each property that the rule is closed under. -/
theorem reductionBy_results (hclosed : rule.Closed kept) (limits : Limits) (fuel : Nat) :
    HeadResults rule kept limits fuel ∧ NormalResults rule kept limits fuel := by
  induction fuel with
  | zero =>
      constructor
      · intro depth scope t env
        exact .throw trivial
      · intro depth scope t env
        exact .throw trivial
  | succ fuel ih =>
      obtain ⟨ihHead, ihNormal⟩ := ih
      exact ⟨ihHead.succ hclosed ihNormal, .succ hclosed ihHead ihNormal⟩

end Results

end Reducing

namespace Term

variable {e v : Term} {env : Env} {fuel : Nat} {limits : Limits} {tally : Tally}

theorem betaNormal_of_reduceBy {rule : Rule} (h : e.reduceBy rule fuel limits env = .ok v tally) :
    v.BetaNormal := by
  obtain ⟨mid, hr, -⟩ := Reducing.wholeBy_eq_ok h
  exact ((Reducing.reductionBy_results rule.closed_betaNormal limits fuel).2 0 [] e env).of_ok hr

theorem settled_of_reduceBy {rule : Rule}
    (hrule : ∀ scope env x, Rule.byScope scope env x = true → rule scope env x = true)
    (h : e.reduceBy rule fuel limits env = .ok v tally) : v.Settled [] := by
  obtain ⟨mid, hr, -⟩ := Reducing.wholeBy_eq_ok h
  have hresults := Reducing.reductionBy_results (Rule.closed_settled hrule) limits fuel
  exact (hresults.2 0 [] e env).of_ok hr

end Term

end NormalOrder
