/- What reductions return, by the rules that take a term to its result.

A relation between what is reduced and what is returned holds of all runs, if each rule keeps it. The
reducer is gone through once, however many contractions and calls a run has. -/
import NormalOrder.Proofs.Reduction.Ensures

namespace NormalOrder

/-- The binder and body under which an abstraction is reduced, where renaming succeeds if it must. -/
inductive Env.Opens (home : Env) (param : Name) (body : Term) : Name × Term → Prop
  | kept (h : param ∉ home.broughtUnder param body) : Opens home param body (param, body)
  | renamed {opened : Name × Term} (h : param ∈ home.broughtUnder param body)
      (hr : body.rebind param (home.broughtUnder param body) = .ok opened) :
      Opens home param body opened

/-- What is no operator on two numbers has no result; what is one has that of the operator. -/
theorem Operator.contract?_cases (f a : Term) (env : Env) :
    contract? f a env = .ok none ∨
      ∃ op left right, contract? f a env = (apply op left right).map some := by
  unfold contract?
  split
  · rename_i x left right
    split
    · rename_i op _ _
      exact .inr ⟨op, left, right, rfl⟩
    · exact .inl rfl
  · exact .inl rfl

/-- What is contracted is an operator that the environment has no entry for, on two numbers. -/
theorem Operator.contract?_eq_some {f a t : Term} {env : Env}
    (h : contract? f a env = .ok (some t)) :
    ∃ x left right op, f = .app (.var x) (.num left) ∧ a = .num right ∧ env.lookup x = none ∧
      ofName? x = some op ∧ apply op left right = .ok t := by
  unfold contract? at h
  split at h
  next x left right =>
    split at h
    next op hx hop =>
      cases hr : op.apply left right with
      | error e =>
          rw [hr] at h
          cases h
      | ok r =>
          rw [hr] at h
          cases h
          exact ⟨x, left, right, op, rfl, rfl, hx, hop, hr⟩
    next => cases h
  next => cases h

/-- What an operator gives is its result on two numbers. -/
theorem Operator.apply_of_contract? {f a t : Term} {env : Env}
    (h : contract? f a env = .ok (some t)) :
    ∃ op left right, apply op left right = .ok t := by
  obtain ⟨-, left, right, op, -, -, -, -, happly⟩ := contract?_eq_some h
  exact ⟨op, left, right, happly⟩

theorem Operator.contract?_eq_error {f a : Term} {env : Env} {e : ReductionError}
    (h : contract? f a env = .error e) : e = .divisionByZero := by
  rcases contract?_cases f a env with hnone | ⟨op, left, right, hop⟩
  · cases hnone.symm.trans h
  · rw [hop] at h
    cases hr : op.apply left right with
    | error e' =>
        rw [hr] at h
        cases h
        exact apply_eq_error hr
    | ok r =>
        rw [hr] at h
        cases h

/-- Operators bring no name into a term. -/
theorem Operator.freeNames_apply {op : Operator} {left right : Float} {r : Term}
    (h : op.apply left right = .ok r) : r.freeNames = [] := by
  cases op with
  | add => cases h; rfl
  | sub => cases h; rfl
  | mul => cases h; rfl
  | div =>
      rw [apply] at h
      split at h <;> cases h
      rfl
  | eq =>
      cases h
      cases left == right <;> decide

namespace Reducing

/-- What a computation returns, however it may halt. -/
abbrev Returns {α : Type} (returned : α → Prop) (x : Reducing α) : Prop :=
  Ensures returned (fun _ => True) x

/-- A relation of a term in an environment to the result of its head reduction, and one to its
value, that each rule of the reducer keeps. -/
structure Invariant (toHead : Term → Env → Head → Prop) (toValue : Term → Env → Term → Prop) :
    Prop where
  free : ∀ {x env}, (∀ s, env.lookup x ≠ some (.resolved s)) →
    toHead (.var x) env (.stuck (.var x))
  follow : ∀ {x env s r}, env.lookup x = some (.resolved s) → toHead s.term s.home r →
    toHead (.var x) env r
  num : ∀ v env, toHead (.num v) env (.stuck (.num v))
  lam : ∀ x body env, toHead (.lam x body) env (.closure x body env)
  enter : ∀ {f a env x body home r}, toHead f env (.closure x body home) →
    toHead body (home.resolved x (env.suspend a)) r → toHead (.app f a) env r
  stuck : ∀ {f a env g v}, toHead f env (.stuck g) → toValue a env v →
    toHead (.app f a) env (.stuck (.app g v))
  operate : ∀ {f a env g v t r}, toHead f env (.stuck g) → toValue a env v →
    Operator.contract? g v env = .ok (some t) → toHead t .empty r → toHead (.app f a) env r
  under : ∀ {t env x body home opened v}, toHead t env (.closure x body home) →
    home.Opens x body opened → toValue opened.2 (home.unresolved opened.1) v →
    toValue t env (.lam opened.1 v)
  value : ∀ {t env v}, toHead t env (.stuck v) → toValue t env v

theorem openBinder_opens (x : Name) (body : Term) (home : Env) :
    Returns (home.Opens x body) (openBinder x body home) := by
  rw [openBinder]
  split
  next hx =>
    cases hr : body.rebind x (home.broughtUnder x body) with
    | error e => exact .throw trivial
    | ok opened => exact (Ensures.of_modify _).bind fun _ _ => .pure (.renamed hx hr)
  next hx => exact .pure (.kept hx)

theorem operate_contracts (limits : Limits) (g v : Term) (env : Env) :
    Returns (fun r => ∀ t, r = some t → Operator.contract? g v env = .ok (some t))
      (operate limits g v env) := by
  rw [operate]
  cases Operator.contract? g v env with
  | error e => exact .throw trivial
  | ok result =>
      cases result with
      | none =>
          refine .pure ?_
          rintro t ⟨⟩
      | some t =>
          refine (Ensures.of_forall (fun _ => trivial) (countStep limits)).bind fun _ _ => .pure ?_
          rintro u ⟨⟩
          rfl

namespace Invariant

variable {toHead : Term → Env → Head → Prop} {toValue : Term → Env → Term → Prop}
  {limits : Limits} {fuel : Nat}

/-- Head reductions with this fuel return what is related to the term. -/
def Heads (toHead : Term → Env → Head → Prop) (limits : Limits) (fuel : Nat) : Prop :=
  ∀ depth t env, Returns (toHead t env) (head limits fuel depth t env)

def Values (toValue : Term → Env → Term → Prop) (limits : Limits) (fuel : Nat) : Prop :=
  ∀ depth t env, Returns (toValue t env) (normal limits fuel depth t env)

theorem head_app (h : Invariant toHead toValue) (ihHead : Heads toHead limits fuel)
    (ihValue : Values toValue limits fuel) {depth : Nat} (hd : ¬ limits.maxDepth ≤ depth)
    (f a : Term) (env : Env) :
    Returns (toHead (.app f a) env) (head limits (fuel + 1) depth (.app f a) env) := by
  rw [head, if_neg hd]
  apply (ihHead (depth + 1) f env).bind
  intro r hr
  cases r with
  | closure x body home =>
      refine (Ensures.of_forall (fun _ => trivial) (countStep limits)).bind fun _ _ => ?_
      refine (Ensures.of_modify _).bind fun _ _ => ?_
      exact (ihHead (depth + 1) body _).imp fun _ => h.enter hr
  | stuck g =>
      apply (ihValue (depth + 1) a env).bind
      intro v hv
      apply (operate_contracts limits g v env).bind
      intro result hresult
      cases result with
      | none => exact .pure (h.stuck hr hv)
      | some t => exact (ihHead (depth + 1) t .empty).imp fun _ => h.operate hr hv (hresult t rfl)

theorem heads_succ (h : Invariant toHead toValue) (ihHead : Heads toHead limits fuel)
    (ihValue : Values toValue limits fuel) : Heads toHead limits (fuel + 1) := by
  intro depth t env
  by_cases hd : limits.maxDepth ≤ depth
  · rw [head_of_deep hd]
    exact .throw trivial
  cases t with
  | var x =>
      rw [head, if_neg hd]
      split
      next s hs => exact (ihHead (depth + 1) s.term s.home).imp fun _ => h.follow hs
      next hfree => exact .pure (h.free hfree)
  | num v =>
      rw [head, if_neg hd]
      exact .pure (h.num v env)
  | lam x body =>
      rw [head, if_neg hd]
      exact .pure (h.lam x body env)
  | app f a => exact h.head_app ihHead ihValue hd f a env

theorem values_succ (h : Invariant toHead toValue) (ihHead : Heads toHead limits fuel)
    (ihValue : Values toValue limits fuel) : Values toValue limits (fuel + 1) := by
  intro depth t env
  rw [normal]
  apply (ihHead depth t env).bind
  intro r hr
  cases r with
  | closure x body home =>
      apply (openBinder_opens x body home).bind
      intro opened ho
      exact (ihValue depth opened.2 _).bind fun _ hv => .pure (h.under hr ho hv)
  | stuck v => exact .pure (h.value hr)

theorem reduction (h : Invariant toHead toValue) (limits : Limits) (fuel : Nat) :
    Heads toHead limits fuel ∧ Values toValue limits fuel := by
  induction fuel with
  | zero => exact ⟨fun _ _ _ => .throw trivial, fun _ _ _ => .throw trivial⟩
  | succ fuel ih =>
      obtain ⟨ihHead, ihValue⟩ := ih
      exact ⟨h.heads_succ ihHead ihValue, h.values_succ ihHead ihValue⟩

/-- A value is related to the term and the environment that it is the value of. -/
theorem of_reduceWithin (h : Invariant toHead toValue) {t v : Term} {env : Env} {tally : Tally}
    (hv : t.reduceWithin fuel limits env = .ok v tally) : toValue t env v := by
  have hwhole : Returns (toValue t env) (whole limits fuel t env) :=
    ((h.reduction limits fuel).2 0 t env).bind fun _ hvalue =>
      (Ensures.of_modify _).bind fun _ _ => .pure hvalue
  rw [Term.reduceWithin] at hv
  exact hwhole.of_ok hv

end Invariant

end Reducing

end NormalOrder
