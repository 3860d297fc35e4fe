/- Reduction by a rule that tells operators from variables.

The reducer looks an operator's name up in the environment of the application. The rule by scope
asks instead whether an abstraction of the result binds it; what a term stands for goes by this
rule. Where no operator's name is bound both rules agree, and so do the runs. -/
import NormalOrder.Proofs.Name.Fresh
import NormalOrder.Proofs.Nameless.Basic
import NormalOrder.Reduction.Normal

namespace NormalOrder

/-- Tells whether a name counts as an operator, from the binders of the result around the
application, the innermost first, and the environment of the application. -/
abbrev Rule := List Name → Env → Name → Bool

/-- The rule of the reducer: an operator has no entry in the environment of the application. -/
def Rule.byEnvironment : Rule := fun _ env x => (env.lookup x).isNone

def Rule.byScope : Rule := fun scope _ x => decide (x ∉ scope)

namespace Reducing

/-- The result of applying a term to another, if that is an operator applied to two numbers and its
name counts as one. -/
def contractBy? (operates : Name → Bool) (function argument : Term) :
    Option (Except ReductionError Term) :=
  match function, argument with
  | .app (.var x) (.num left), .num right =>
    if operates x then (Operator.ofName? x).map fun op => op.apply left right else none
  | _, _ => none

def operateBy (limits : Limits) (operates : Name → Bool) (function argument : Term) :
    Reducing (Option Term) :=
  match contractBy? operates function argument with
  | some (.error e) => throw (.error e)
  | some (.ok result) => do
    countStep limits
    return some result
  | none => return none

mutual

/-- Head reduction by a rule, below the binders of a scope. -/
def headBy (rule : Rule) (limits : Limits) :
    (fuel depth : Nat) → List Name → Term → Env → Reducing Head
  | 0, _, _, _, _ => throw .outOfFuel
  | fuel + 1, depth, scope, t, env =>
    if limits.maxDepth ≤ depth then throw (.error (.depthLimit limits.maxDepth))
    else
      match t with
      | .var x =>
        match env.lookup x with
        | some (.resolved s) => headBy rule limits fuel (depth + 1) scope s.term s.home
        | _ => return .stuck (.var x)
      | .num v => return .stuck (.num v)
      | .lam x body => return .closure x body env
      | .app f a => do
        match ← headBy rule limits fuel (depth + 1) scope f env with
        | .closure x body home =>
          countStep limits
          tellApplied a x body
          headBy rule limits fuel (depth + 1) scope body (home.resolved x (env.suspend a))
        | .stuck g =>
          let v ← normalBy rule limits fuel (depth + 1) scope a env
          match ← operateBy limits (rule scope env) g v with
          | some result => headBy rule limits fuel (depth + 1) scope result .empty
          | none => return .stuck (.app g v)

def normalBy (rule : Rule) (limits : Limits) :
    (fuel depth : Nat) → List Name → Term → Env → Reducing Term
  | 0, _, _, _, _ => throw .outOfFuel
  | fuel + 1, depth, scope, t, env => do
    match ← headBy rule limits fuel depth scope t env with
    | .closure x body home =>
      let (y, renamed) ← openBinder x body home
      let value ← normalBy rule limits fuel depth (y :: scope) renamed (home.unresolved y)
      return .lam y value
    | .stuck value => return value

end

def wholeBy (rule : Rule) (limits : Limits) (fuel : Nat) (t : Term) (env : Env) :
    Reducing Term := do
  let value ← normalBy rule limits fuel 0 [] t env
  modify fun tally => { tally with events := .reduced t value tally.steps :: tally.events }
  return value

end Reducing

/-- Reduces a term to normal form in an environment, by a rule. -/
def Term.reduceBy (rule : Rule) (fuel : Nat) (limits : Limits) (env : Env) (t : Term) : Outcome :=
  Reducing.wholeBy rule limits fuel t env {}

/-- The one way in which an operator fails. -/
theorem Operator.apply_eq_error {op : Operator} {left right : Float} {e : ReductionError}
    (h : op.apply left right = .error e) : e = .divisionByZero := by
  cases op with
  | div =>
      rw [apply] at h
      split at h <;> cases h
      rfl
  | add => cases h
  | sub => cases h
  | mul => cases h
  | eq => cases h

namespace Reducing

theorem contractBy?_eq_some {operates : Name → Bool} {f a : Term}
    {r : Except ReductionError Term} (h : contractBy? operates f a = some r) :
    ∃ x op left right, f = .app (.var x) (.num left) ∧ a = .num right ∧ operates x = true ∧
      Operator.ofName? x = some op ∧ r = op.apply left right := by
  unfold contractBy? at h
  split at h
  · rename_i x left right
    split at h
    · rename_i hx
      obtain ⟨op, hop, rfl⟩ := Option.map_eq_some_iff.mp h
      exact ⟨x, op, left, right, rfl, rfl, hx, hop, rfl⟩
    · cases h
  · cases h

theorem contractBy?_eq_none_of_imp {operates operates' : Name → Bool} {f a : Term}
    (h : contractBy? operates f a = none)
    (himp : ∀ x, operates' x = true → operates x = true) :
    contractBy? operates' f a = none := by
  apply Option.eq_none_iff_forall_ne_some.mpr
  intro r hr
  obtain ⟨x, op, left, right, rfl, rfl, hx, hop, rfl⟩ := contractBy?_eq_some hr
  simp [contractBy?, himp x hx, hop] at h

theorem contractBy?_eq_some_of_imp {operates operates' : Name → Bool} {f a : Term}
    {r : Except ReductionError Term} (h : contractBy? operates f a = some r)
    (himp : ∀ x, operates x = true → operates' x = true) :
    contractBy? operates' f a = some r := by
  obtain ⟨x, op, left, right, rfl, rfl, hx, hop, rfl⟩ := contractBy?_eq_some h
  simp [contractBy?, himp x hx, hop]

theorem contract?_eq_contractBy? (scope : List Name) (env : Env) (f a : Term) :
    Operator.contract? f a env = match contractBy? (Rule.byEnvironment scope env) f a with
      | some r => r.map some
      | none => .ok none := by
  cases hc : contractBy? (Rule.byEnvironment scope env) f a with
  | some r =>
      obtain ⟨x, op, left, right, rfl, rfl, hx, hop, rfl⟩ := contractBy?_eq_some hc
      rw [Rule.byEnvironment, Option.isNone_iff_eq_none] at hx
      rw [Operator.contract?, hx, hop]
  | none =>
      unfold Operator.contract?
      split
      · rename_i x left right
        cases hx : env.lookup x with
        | some binding => rfl
        | none =>
            cases hop : Operator.ofName? x with
            | none => rfl
            | some op => simp [contractBy?, Rule.byEnvironment, hx, hop] at hc
      · rfl

theorem operate_eq_operateBy (limits : Limits) (scope : List Name) (env : Env) (f a : Term) :
    operate limits f a env = operateBy limits (Rule.byEnvironment scope env) f a := by
  rw [operate, operateBy, contract?_eq_contractBy? scope]
  cases contractBy? (Rule.byEnvironment scope env) f a with
  | none => rfl
  | some r => cases r <;> rfl

theorem headBy_of_deep {limits : Limits} {depth : Nat} (h : limits.maxDepth ≤ depth) (rule : Rule)
    (fuel : Nat) (scope : List Name) (t : Term) (env : Env) :
    headBy rule limits (fuel + 1) depth scope t env =
      throw (.error (.depthLimit limits.maxDepth)) := by
  unfold headBy
  exact if_pos h

/-- A variable is followed to its home if it is resolved, by any rule, and is its own result
otherwise. -/
theorem headBy_var {limits : Limits} {depth : Nat} (hd : ¬ limits.maxDepth ≤ depth) (x : Name)
    (env : Env) :
    (∃ s, env.lookup x = some (.resolved s) ∧ ∀ rule fuel scope,
      headBy rule limits (fuel + 1) depth scope (.var x) env =
        headBy rule limits fuel (depth + 1) scope s.term s.home) ∨
    ∀ rule fuel scope,
      headBy rule limits (fuel + 1) depth scope (.var x) env = pure (.stuck (.var x)) := by
  cases hx : env.lookup x with
  | none =>
      right
      intro rule fuel scope
      rw [headBy, if_neg hd, hx]
  | some binding =>
      cases binding with
      | unresolved =>
          right
          intro rule fuel scope
          rw [headBy, if_neg hd, hx]
      | resolved s =>
          left
          refine ⟨s, rfl, ?_⟩
          intro rule fuel scope
          rw [headBy, if_neg hd, hx]

theorem head_of_deep {limits : Limits} {depth : Nat} (h : limits.maxDepth ≤ depth) (fuel : Nat)
    (t : Term) (env : Env) :
    head limits (fuel + 1) depth t env = throw (.error (.depthLimit limits.maxDepth)) := by
  unfold head
  exact if_pos h

theorem bind_eq {α β : Type} {x y : Reducing α} {f g : α → Reducing β} (h : x = y)
    (hf : ∀ a, f a = g a) : x >>= f = y >>= g := by
  have hfg : f = g := by
    funext a
    exact hf a
  rw [h, hfg]

/-- The reducer goes by the rule of the environment. -/
theorem reduction_eq_reductionBy (limits : Limits) (fuel : Nat) :
    (∀ depth scope t env,
      head limits fuel depth t env = headBy .byEnvironment limits fuel depth scope t env) ∧
    ∀ depth scope t env,
      normal limits fuel depth t env = normalBy .byEnvironment limits fuel depth scope t env := by
  induction fuel with
  | zero => exact ⟨fun _ _ _ _ => rfl, fun _ _ _ _ => rfl⟩
  | succ fuel ih =>
      obtain ⟨ihHead, ihNormal⟩ := ih
      constructor
      · intro depth scope t env
        by_cases hd : limits.maxDepth ≤ depth
        · rw [head_of_deep hd, headBy_of_deep hd]
        cases t with
        | var x =>
            rw [head, headBy, if_neg hd, if_neg hd]
            cases env.lookup x with
            | none => rfl
            | some b =>
                cases b with
                | unresolved => rfl
                | resolved s => exact ihHead (depth + 1) scope s.term s.home
        | num v => rw [head, headBy]
        | lam x body => rw [head, headBy]
        | app f a =>
            rw [head, headBy, if_neg hd, if_neg hd, ihHead (depth + 1) scope f env]
            apply bind_congr
            intro r
            cases r with
            | closure x body home =>
                refine bind_congr fun _ => bind_congr ?_
                intro _
                exact ihHead (depth + 1) scope body _
            | stuck g =>
                apply bind_eq (ihNormal (depth + 1) scope a env)
                intro v
                apply bind_eq (operate_eq_operateBy limits scope env g v)
                intro r
                cases r with
                | none => rfl
                | some t => exact ihHead (depth + 1) scope t .empty
      · intro depth scope t env
        rw [normal, normalBy, ihHead depth scope t env]
        apply bind_congr
        intro r
        cases r with
        | closure x body home =>
            apply bind_congr
            intro opened
            exact bind_eq (ihNormal depth (opened.1 :: scope) opened.2 _) fun _ => rfl
        | stuck v => rfl

theorem wholeBy_eq_ok {rule : Rule} {limits : Limits} {fuel : Nat} {t v : Term} {env : Env}
    {before after : Tally} (h : wholeBy rule limits fuel t env before = .ok v after) :
    ∃ tally, normalBy rule limits fuel 0 [] t env before = .ok v tally ∧
      after = { tally with events := .reduced t v tally.steps :: tally.events } := by
  have h : EStateM.bind (normalBy rule limits fuel 0 [] t env) _ before = .ok v after := h
  rw [EStateM.bind] at h
  cases hr : normalBy rule limits fuel 0 [] t env before with
  | error halt tally =>
      rw [hr] at h
      cases h
  | ok w tally =>
      rw [hr] at h
      cases h
      exact ⟨tally, rfl, rfl⟩

theorem wholeBy_of_normalBy {rule : Rule} {limits : Limits} {fuel : Nat} {t v : Term} {env : Env}
    {before tally : Tally} (h : normalBy rule limits fuel 0 [] t env before = .ok v tally) :
    wholeBy rule limits fuel t env before =
      .ok v { tally with events := .reduced t v tally.steps :: tally.events } := by
  change EStateM.bind (normalBy rule limits fuel 0 [] t env) _ before = _
  rw [EStateM.bind, h]
  rfl

end Reducing

theorem Term.reduceWithin_eq_reduceBy (fuel : Nat) (limits : Limits) (env : Env) (t : Term) :
    t.reduceWithin fuel limits env = t.reduceBy .byEnvironment fuel limits env := by
  rw [reduceWithin, reduceBy, Reducing.whole, Reducing.wholeBy,
    (Reducing.reduction_eq_reductionBy limits fuel).2 0 [] t env]

end NormalOrder
