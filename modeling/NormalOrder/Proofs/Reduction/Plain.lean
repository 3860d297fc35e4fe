/- Where no operator's name is bound, the rules for operators agree on all runs. -/
import NormalOrder.Proofs.Reduction.Binders

namespace NormalOrder

/-- A name that is no operator's. -/
def Name.Plain (x : Name) : Prop :=
  Operator.ofName? x = none

theorem Name.plain_of_number_pos {x : Name} (h : 0 < x.number) : x.Plain := by
  unfold Name.Plain Operator.ofName?
  split
  · exact absurd h (by decide)
  · exact absurd h (by decide)
  · exact absurd h (by decide)
  · exact absurd h (by decide)
  · exact absurd h (by decide)
  · rfl

namespace Reducing

/-- Where all entries and binders have plain names, every operator is free. -/
theorem contractBy?_of_plain {scope : List Name} {env : Env} (hs : ∀ x ∈ scope, x.Plain)
    (henv : env.All Name.Plain Name.Plain) (f a : Term) :
    contractBy? (Rule.byEnvironment scope env) f a = contractBy? (Rule.byScope scope env) f a := by
  unfold contractBy?
  split
  · rename_i x left right
    cases hop : Operator.ofName? x with
    | none => simp
    | some op =>
        have hx : ¬ x.Plain := fun h => nomatch h.symm.trans hop
        have hnone : env.lookup x = none := henv.lookup_eq_none hx
        have hscope : x ∉ scope := fun hmem => hx (hs x hmem)
        simp [Rule.byEnvironment, Rule.byScope, hnone, hscope]
  · rfl

/-- Head reductions with this fuel go the same way by both rules, where all entries and binders have
plain names. -/
def HeadAgrees (limits : Limits) (fuel : Nat) : Prop :=
  ∀ depth scope t env, (∀ x ∈ scope, x.Plain) → t.Binders Name.Plain →
    env.All Name.Plain Name.Plain →
    headBy .byEnvironment limits fuel depth scope t env =
      headBy .byScope limits fuel depth scope t env

def NormalAgrees (limits : Limits) (fuel : Nat) : Prop :=
  ∀ depth scope t env, (∀ x ∈ scope, x.Plain) → t.Binders Name.Plain →
    env.All Name.Plain Name.Plain →
    normalBy .byEnvironment limits fuel depth scope t env =
      normalBy .byScope limits fuel depth scope t env

section Run

variable {limits : Limits} {fuel : Nat}

theorem plain_of_fresh (x : Name) (h : 0 < x.number) : x.Plain :=
  Name.plain_of_number_pos h

theorem plain_ensures (limits : Limits) (fuel : Nat) :
    HeadEnsures Name.Plain Name.Plain .byScope limits fuel :=
  (reductionBy_ensures (fun _ h => h) plain_of_fresh .byScope limits fuel).1

theorem headBy_app_agrees (ihHead : HeadAgrees limits fuel) (ihNormal : NormalAgrees limits fuel)
    {depth : Nat} (hd : ¬ limits.maxDepth ≤ depth) {scope : List Name} {f a : Term} {env : Env}
    (hs : ∀ x ∈ scope, x.Plain) (ht : (Term.app f a).Binders Name.Plain)
    (henv : env.All Name.Plain Name.Plain) :
    headBy .byEnvironment limits (fuel + 1) depth scope (.app f a) env =
      headBy .byScope limits (fuel + 1) depth scope (.app f a) env := by
  rw [headBy, headBy, if_neg hd, if_neg hd, ihHead (depth + 1) scope f env hs ht.1 henv]
  apply (plain_ensures limits fuel (depth + 1) scope f env ht.1 henv).bind_congr
  intro r hr
  cases r with
  | closure x body home =>
      obtain ⟨hx, hbody, hhome⟩ := hr
      refine bind_congr fun _ => bind_congr ?_
      intro _
      exact ihHead (depth + 1) scope body _ hs hbody (hhome.resolved hx ht.2 henv)
  | stuck g =>
      apply bind_eq (ihNormal (depth + 1) scope a env hs ht.2 henv)
      intro v
      have hop : operateBy limits (Rule.byEnvironment scope env) g v =
          operateBy limits (Rule.byScope scope env) g v := by
        rw [operateBy, operateBy, contractBy?_of_plain hs henv]
      rw [hop]
      apply (operateBy_ensures plain_of_fresh limits _ g v).bind_congr
      intro r hr
      cases r with
      | none => rfl
      | some t => exact ihHead (depth + 1) scope t .empty hs (hr t rfl) trivial

theorem HeadAgrees.succ (ihHead : HeadAgrees limits fuel) (ihNormal : NormalAgrees limits fuel) :
    HeadAgrees limits (fuel + 1) := by
  intro depth scope t env hs ht henv
  by_cases hd : limits.maxDepth ≤ depth
  · rw [headBy_of_deep hd, headBy_of_deep hd]
  cases t with
  | var x =>
      rcases headBy_var hd x env with ⟨s, hx, hrun⟩ | hrun
      · obtain ⟨hterm, hhome⟩ := henv.of_lookup hx
        rw [hrun, hrun]
        exact ihHead (depth + 1) scope s.term s.home hs hterm hhome
      · rw [hrun, hrun]
  | num v => rw [headBy, headBy]
  | lam x body => rw [headBy, headBy]
  | app f a => exact headBy_app_agrees ihHead ihNormal hd hs ht henv

theorem NormalAgrees.succ (ihHead : HeadAgrees limits fuel) (ihNormal : NormalAgrees limits fuel) :
    NormalAgrees limits (fuel + 1) := by
  intro depth scope t env hs ht henv
  rw [normalBy, normalBy, ihHead depth scope t env hs ht henv]
  apply (plain_ensures limits fuel depth scope t env ht henv).bind_congr
  intro r hr
  cases r with
  | stuck v => rfl
  | closure x body home =>
      obtain ⟨hx, hbody, hhome⟩ := hr
      apply (openBinder_ensures plain_of_fresh hx hbody home).bind_congr
      intro opened ho
      have hscope : ∀ y ∈ opened.1 :: scope, y.Plain := by
        intro y hy
        rcases List.mem_cons.mp hy with rfl | hy
        · exact ho.1
        · exact hs y hy
      exact bind_eq (ihNormal depth (opened.1 :: scope) opened.2 _ hscope ho.2
        (hhome.unresolved ho.1)) fun _ => rfl

/-- Where all entries and binders have plain names, both rules lead to the same run. -/
theorem reductionBy_of_plain (limits : Limits) (fuel : Nat) :
    HeadAgrees limits fuel ∧ NormalAgrees limits fuel := by
  induction fuel with
  | zero => exact ⟨fun _ _ _ _ _ _ _ => rfl, fun _ _ _ _ _ _ _ => rfl⟩
  | succ fuel ih =>
      obtain ⟨ihHead, ihNormal⟩ := ih
      exact ⟨ihHead.succ ihNormal, .succ ihHead ihNormal⟩

end Run

end Reducing

/-- A reduction in which no operator's name is bound goes by either rule. -/
theorem Term.reduceWithin_of_plain {t : Term} {env : Env} (ht : t.Binders Name.Plain)
    (henv : env.All Name.Plain Name.Plain) (fuel : Nat) (limits : Limits) :
    t.reduceWithin fuel limits env = t.reduceBy .byScope fuel limits env := by
  have hscope : ∀ x ∈ ([] : List Name), x.Plain := by
    intro x hx
    cases hx
  rw [reduceWithin_eq_reduceBy, reduceBy, reduceBy, Reducing.wholeBy, Reducing.wholeBy,
    (Reducing.reductionBy_of_plain limits fuel).2 0 [] t env hscope ht henv]

end NormalOrder
