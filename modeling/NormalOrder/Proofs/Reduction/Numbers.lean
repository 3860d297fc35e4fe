/- Where the numbers of a value come from.

A reduction makes numbers by its operations only, and finds all others in the term and its
environment. So the numbers of a value are of a kind that those of the term and its environment are
of, unless the run reaches an operation that leads from numbers of the kind to one that is not. -/
import NormalOrder.Proofs.Number.Arithmetic
import NormalOrder.Proofs.Reduction.Reached

namespace NormalOrder

/-- The numbers in a term, from left to right. -/
def Term.constants : Term → List Float
  | var _ => []
  | lam _ b => b.constants
  | app f a => f.constants ++ a.constants
  | num v => [v]

/-- All numbers in a term are of a kind. -/
def Term.Numbered (kind : Float → Prop) (t : Term) : Prop :=
  ∀ v ∈ t.constants, kind v

/-- All numbers in the terms that wait in an environment are of a kind. -/
def Frames.Numbered (kind : Float → Prop) : Frames → Prop
  | empty => True
  | unresolved _ outer => outer.Numbered kind
  | resolved _ t home _ outer => t.Numbered kind ∧ home.Numbered kind ∧ outer.Numbered kind

def Env.Numbered (kind : Float → Prop) (env : Env) : Prop :=
  env.frames.Numbered kind

def Head.Numbered (kind : Float → Prop) : Head → Prop
  | .closure _ body home => body.Numbered kind ∧ home.Numbered kind
  | .stuck t => t.Numbered kind

/-- No number in a term is infinite, and none is no number. -/
abbrev Term.Finite : Term → Prop :=
  Term.Numbered fun v => v.isFinite = true

abbrev Env.Finite : Env → Prop :=
  Env.Numbered fun v => v.isFinite = true

variable {kind : Float → Prop}

namespace Term

variable {x y : Name} {t f a b : Term}

instance (kind : Float → Prop) [DecidablePred kind] (t : Term) : Decidable (t.Numbered kind) :=
  inferInstanceAs (Decidable (∀ v ∈ t.constants, kind v))

@[simp] theorem numbered_var : (var x).Numbered kind := by
  simp [Numbered, constants]

@[simp] theorem numbered_num {v : Float} : (num v).Numbered kind ↔ kind v := by
  simp [Numbered, constants]

@[simp] theorem numbered_lam : (lam x b).Numbered kind ↔ b.Numbered kind :=
  Iff.rfl

@[simp] theorem numbered_app : (app f a).Numbered kind ↔ f.Numbered kind ∧ a.Numbered kind :=
  List.forall_mem_append

theorem numbered_truth (b : Bool) : (truth b).Numbered kind := by
  simp [truth]

/-- Another name leaves the numbers. -/
theorem constants_rename (t : Term) : (t.rename x y).constants = t.constants := by
  induction t with
  | var z =>
      rw [Term.rename]
      split <;> rfl
  | lam z b ih =>
      rw [Term.rename]
      split
      · rfl
      · exact ih
  | app f a ihf iha => rw [Term.rename, constants, ihf, iha, constants]
  | num v => rfl

end Term

namespace Env

variable {env : Env} {x : Name}

theorem numbered_empty : Env.empty.Numbered kind :=
  trivial

theorem Numbered.unresolved (h : env.Numbered kind) (x : Name) : (env.unresolved x).Numbered kind :=
  h

theorem Numbered.resolved {s : Suspension} (h : env.Numbered kind) (ht : s.term.Numbered kind)
    (hs : s.home.Numbered kind) (x : Name) : (env.resolved x s).Numbered kind :=
  ⟨ht, hs, h⟩

theorem Numbered.of_lookup {s : Suspension} (h : env.Numbered kind)
    (hs : env.lookup x = some (.resolved s)) : s.term.Numbered kind ∧ s.home.Numbered kind := by
  induction env using Env.induction with
  | empty => cases hs
  | unresolved env y ih =>
      rw [lookup_unresolved] at hs
      split at hs
      · cases hs
      · exact ih h hs
  | resolved env y r ih =>
      rw [lookup_resolved] at hs
      split at hs
      · cases hs
        exact ⟨h.1, h.2.1⟩
      · exact ih h.2.2 hs

/-- Another binder leaves the numbers of a body. -/
theorem Opens.numbered {body : Term} {home : Env} {opened : Name × Term}
    (h : home.Opens x body opened) (hbody : body.Numbered kind) : opened.2.Numbered kind := by
  cases h with
  | kept _ => exact hbody
  | renamed _ hr =>
      obtain ⟨new, -, rfl⟩ := Term.rebind_eq_ok hr
      rw [Term.Numbered, Term.constants_rename]
      exact hbody

end Env

namespace Operator

variable {op : Operator} {left right : Float} {t : Term}

/-- The number that an operator gives if nothing is rounded; `=` gives none. -/
def unrounded? : Operator → Float → Float → Option ℚ
  | add, left, right => some (Number.exact left + Number.exact right)
  | sub, left, right => some (Number.exact left - Number.exact right)
  | mul, left, right => some (Number.exact left * Number.exact right)
  | div, left, right => some (Number.exact left / Number.exact right)
  | eq, _, _ => none

/-- From finite numbers an operator gives a finite number or a truth value, exactly if the exact
number is below the bound. -/
theorem finite_apply_iff (hl : left.isFinite = true) (hr : right.isFinite = true)
    (h : op.apply left right = .ok t) :
    t.Finite ↔ ∀ q, op.unrounded? left right = some q → |q| < Number.bound := by
  have hround : ∀ {v : Float} {q : ℚ}, (v.isFinite = true ↔ |q| < Number.bound) →
      ((Term.num v).Finite ↔ ∀ q', some q = some q' → |q'| < Number.bound) :=
    fun h => Term.numbered_num.trans (h.trans (by simp))
  cases op with
  | add =>
      cases h
      exact hround (Number.isFinite_add hl hr)
  | sub =>
      cases h
      exact hround (Number.isFinite_sub hl hr)
  | mul =>
      cases h
      exact hround (Number.isFinite_mul hl hr)
  | div =>
      rw [apply] at h
      split at h
      next => cases h
      next hne =>
        cases h
        exact hround (Number.isFinite_div hl hr (Bool.eq_false_of_not_eq_true hne))
  | eq =>
      cases h
      exact iff_of_true (Term.numbered_truth _) fun q hq => by cases hq

end Operator

namespace Reducing

variable {limits : Limits} {fuel : Nat}

namespace Call

/-- A call applies an operator to two numbers. -/
inductive Operates (limits : Limits) (op : Operator) (left right : Float) : Call → Prop
  | intro {fuel depth f a env tally x mid late} (hd : depth < limits.maxDepth)
      (hf : head limits fuel (depth + 1) f env tally =
        .ok (.stuck (.app (.var x) (.num left))) mid)
      (ha : normal limits fuel (depth + 1) a env mid = .ok (.num right) late)
      (hx : env.lookup x = none) (hop : Operator.ofName? x = some op) :
      Operates limits op left right ⟨.head, fuel + 1, depth, .app f a, env, tally⟩

/-- The operations on numbers of a kind that are reached from a call give numbers of the kind. -/
def Keeps (limits : Limits) (kind : Float → Prop) (c : Call) : Prop :=
  ∀ c', c.Reaches limits c' → ∀ op left right, c'.Operates limits op left right →
    kind left → kind right → ∀ t, op.apply left right = .ok t → t.Numbered kind

theorem Keeps.of_makes {c c' : Call} (h : c.Keeps limits kind) (hmakes : Makes limits c c') :
    c'.Keeps limits kind :=
  fun c'' hreaches => h c'' (.head hmakes hreaches)

end Call

/-- What head reductions with this fuel return has numbers of the kind. -/
def HeadsNumbered (limits : Limits) (kind : Float → Prop) (fuel : Nat) : Prop :=
  ∀ {depth t env tally r last}, head limits fuel depth t env tally = .ok r last →
    Call.Keeps limits kind ⟨.head, fuel, depth, t, env, tally⟩ → t.Numbered kind →
    env.Numbered kind → r.Numbered kind

def ValuesNumbered (limits : Limits) (kind : Float → Prop) (fuel : Nat) : Prop :=
  ∀ {depth t env tally v last}, normal limits fuel depth t env tally = .ok v last →
    Call.Keeps limits kind ⟨.value, fuel, depth, t, env, tally⟩ → t.Numbered kind →
    env.Numbered kind → v.Numbered kind

section Steps

variable (ihHead : HeadsNumbered limits kind fuel) (ihValue : ValuesNumbered limits kind fuel)
include ihHead ihValue

theorem head_app_numbered {depth : Nat} {f a : Term} {env : Env} {tally last : Tally} {r : Head}
    (hd : depth < limits.maxDepth)
    (h : head limits (fuel + 1) depth (.app f a) env tally = .ok r last)
    (hkeeps : Call.Keeps limits kind ⟨.head, fuel + 1, depth, .app f a, env, tally⟩)
    (hf : f.Numbered kind) (ha : a.Numbered kind) (henv : env.Numbered kind) :
    r.Numbered kind := by
  rw [head, if_neg (Nat.not_le.mpr hd)] at h
  obtain ⟨g, mid, hg, h⟩ := bind_eq_ok_iff.mp h
  have hfunction := ihHead hg (hkeeps.of_makes (.function hd)) hf henv
  cases g with
  | closure x body home =>
      obtain ⟨_, counted, hs, h⟩ := bind_eq_ok_iff.mp h
      obtain ⟨_, after, ht, h⟩ := bind_eq_ok_iff.mp h
      have henter := hkeeps.of_makes (.enter hd hg hs ht)
      exact ihHead h henter hfunction.1 (hfunction.2.resolved ha henv x)
  | stuck g =>
      obtain ⟨v, late, hv, h⟩ := bind_eq_ok_iff.mp h
      obtain ⟨result, after, ho, h⟩ := bind_eq_ok_iff.mp h
      have hargument := ihValue hv (hkeeps.of_makes (.argument hd hg)) ha henv
      cases result with
      | none =>
          cases h
          exact Term.numbered_app.mpr ⟨hfunction, hargument⟩
      | some t =>
          have hresult : t.Numbered kind := by
            obtain ⟨x, left, right, op, rfl, rfl, hx, hop, happly⟩ :=
              Operator.contract?_eq_some (Call.contracts_of_operate ho)
            have hleft := Term.numbered_num.mp (Term.numbered_app.mp hfunction).2
            have hright := Term.numbered_num.mp hargument
            exact hkeeps _ .refl op left right (.intro hd hg hv hx hop) hleft hright t happly
          exact ihHead h (hkeeps.of_makes (.operate hd hg hv ho)) hresult Env.numbered_empty

theorem headsNumbered_succ : HeadsNumbered limits kind (fuel + 1) := by
  intro depth t env tally r last h hkeeps ht henv
  rcases Nat.lt_or_ge depth limits.maxDepth with hd | hd
  · have hdeep := Nat.not_le.mpr hd
    cases t with
    | var x =>
        rw [head, if_neg hdeep] at h
        cases hx : env.lookup x with
        | none =>
            rw [hx] at h
            cases h
            exact ht
        | some binding =>
            rw [hx] at h
            cases binding with
            | unresolved =>
                cases h
                exact ht
            | resolved s =>
                obtain ⟨hterm, hhome⟩ := henv.of_lookup hx
                exact ihHead h (hkeeps.of_makes (.follow hd hx)) hterm hhome
    | num v =>
        rw [head, if_neg hdeep] at h
        cases h
        exact ht
    | lam x body =>
        rw [head, if_neg hdeep] at h
        cases h
        exact ⟨ht, henv⟩
    | app f a =>
        obtain ⟨hf, ha⟩ := Term.numbered_app.mp ht
        exact head_app_numbered ihHead ihValue hd h hkeeps hf ha henv
  · rw [head_of_deep hd] at h
    cases h

theorem valuesNumbered_succ : ValuesNumbered limits kind (fuel + 1) := by
  intro depth t env tally v last h hkeeps ht henv
  rw [normal] at h
  obtain ⟨r, mid, hr, h⟩ := bind_eq_ok_iff.mp h
  have hhead := ihHead hr (hkeeps.of_makes .toHead) ht henv
  cases r with
  | closure x body home =>
      obtain ⟨opened, after, ho, h⟩ := bind_eq_ok_iff.mp h
      obtain ⟨value, late, hv, hlast⟩ := bind_eq_ok_iff.mp h
      cases hlast
      have hbody := (Call.opens_of_openBinder ho).numbered hhead.1
      have hvalue : value.Numbered kind :=
        ihValue hv (hkeeps.of_makes (.under hr ho)) hbody (hhead.2.unresolved opened.1)
      exact Term.numbered_lam.mpr hvalue
  | stuck v =>
      cases h
      exact hhead

end Steps

/-- By induction on the fuel: what a call returns is put together from numbers that it finds, from
what the calls that it makes return, and from its own operation. -/
theorem reduction_numbered (limits : Limits) (kind : Float → Prop) (fuel : Nat) :
    HeadsNumbered limits kind fuel ∧ ValuesNumbered limits kind fuel := by
  induction fuel with
  | zero =>
      refine ⟨?_, ?_⟩ <;> intro _ _ _ _ _ _ h <;> cases h
  | succ fuel ih =>
      obtain ⟨ihHead, ihValue⟩ := ih
      exact ⟨headsNumbered_succ ihHead ihValue, valuesNumbered_succ ihHead ihValue⟩

end Reducing

namespace Term

open Reducing

variable {limits : Limits} {fuel : Nat} {t v : Term} {env : Env} {tally : Tally}

/-- The numbers of a value are of the kind that those of the term and its environment are of, if the
operations that the run reaches keep to the kind. -/
theorem numbered_of_reduceWithin (hkeeps : (Call.start fuel t env).Keeps limits kind)
    (ht : t.Numbered kind) (henv : env.Numbered kind)
    (hv : t.reduceWithin fuel limits env = .ok v tally) : v.Numbered kind := by
  rw [reduceWithin, whole] at hv
  obtain ⟨value, mid, hvalue, hlast⟩ := bind_eq_ok_iff.mp hv
  obtain ⟨_, _, -, hlast⟩ := bind_eq_ok_iff.mp hlast
  cases hlast
  exact (reduction_numbered limits kind fuel).2 hvalue hkeeps ht henv

/-- A reduction goes beyond the doubles: it reaches an operation on finite numbers whose exact
result is not below the bound. -/
def Exceeds (fuel : Nat) (limits : Limits) (env : Env) (t : Term) : Prop :=
  ∃ c op left right q, (Call.start fuel t env).Reaches limits c ∧ c.Operates limits op left right ∧
    left.isFinite = true ∧ right.isFinite = true ∧ op.unrounded? left right = some q ∧
    Number.bound ≤ |q|

/-- Finite numbers lead to finite numbers, unless the reduction goes beyond the doubles. -/
theorem finite_of_reduceWithin (hwithin : ¬ t.Exceeds fuel limits env) (ht : t.Finite)
    (henv : env.Finite) (hv : t.reduceWithin fuel limits env = .ok v tally) : v.Finite := by
  refine numbered_of_reduceWithin ?_ ht henv hv
  intro c hreaches op left right hoperates hleft hright result happly
  refine (Operator.finite_apply_iff hleft hright happly).mpr fun q hq => ?_
  by_contra hbound
  exact hwithin ⟨c, op, left, right, q, hreaches, hoperates, hleft, hright, hq, not_lt.mp hbound⟩

end Term

end NormalOrder
