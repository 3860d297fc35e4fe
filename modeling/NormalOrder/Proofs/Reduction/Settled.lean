/- Terms in which nothing is left to contract, and their reductions, which return them as they are if
the applications in them, one inside the other, do not go too deep. -/
import NormalOrder.Proofs.Reduction.Rule

namespace NormalOrder

namespace Term

def isLam : Term → Bool
  | lam _ _ => true
  | _ => false

/-- No abstraction is applied in a term. -/
def BetaNormal : Term → Prop
  | app f a => f.isLam = false ∧ f.BetaNormal ∧ a.BetaNormal
  | lam _ b => b.BetaNormal
  | _ => True

/-- Below the binders of a scope, no operator that nothing binds is applied to two numbers in
a term. -/
def Settled (scope : List Name) : Term → Prop
  | app f a => Reducing.contractBy? (fun x => decide (x ∉ scope)) f a = none ∧ f.Settled scope ∧
      a.Settled scope
  | lam x b => b.Settled (x :: scope)
  | _ => True

/-- The applications on a path from the root to a leaf that has most of them. -/
def applicationDepth : Term → Nat
  | app f a => max f.applicationDepth a.applicationDepth + 1
  | lam _ b => b.applicationDepth
  | _ => 0

theorem height_pos (t : Term) : 0 < t.height := by
  cases t <;> simp [height]

theorem applicationDepth_lt_height (t : Term) : t.applicationDepth < t.height := by
  induction t with
  | var x => exact Nat.zero_lt_one
  | lam x b ih => exact Nat.lt_succ_of_lt ih
  | app f a hf ha =>
      rw [applicationDepth, height]
      omega
  | num v => exact Nat.zero_lt_one

end Term

namespace Env

def ofScope : List Name → Env
  | [] => .empty
  | x :: scope => (ofScope scope).unresolved x

theorem lookup_ofScope (scope : List Name) (x : Name) :
    (ofScope scope).lookup x = if x ∈ scope then some .unresolved else none := by
  induction scope with
  | nil => rfl
  | cons y scope ih =>
      rw [ofScope, lookup_unresolved, ih]
      by_cases hy : y = x
      · rw [if_pos hy, if_pos (List.mem_cons.mpr (.inl hy.symm))]
      · rw [if_neg hy]
        exact if_congr (by simp [Ne.symm hy]) rfl rfl

theorem broughtUnder_ofScope (scope : List Name) (x : Name) (body : Term) :
    (ofScope scope).broughtUnder x body = [] := by
  apply List.eq_nil_iff_forall_not_mem.mpr
  intro y hy
  obtain ⟨brought, hb, hy⟩ := Names.mem_unions.mp hy
  obtain ⟨z, -, rfl⟩ := List.mem_map.mp hb
  rw [broughtBy, lookup_ofScope] at hy
  split at hy
  · rename_i s hs
    split at hs <;> cases hs
  · cases hy

end Env

namespace Reducing

variable {scope : List Name} {limits : Limits} {fuel depth : Nat} {t f a b : Term} {x : Name}

theorem openBinder_ofScope (scope : List Name) (x : Name) (body : Term) :
    openBinder x body (Env.ofScope scope) = pure (x, body) := by
  rw [openBinder, Env.broughtUnder_ofScope]
  rfl

theorem operate_ofScope (h : contractBy? (fun x => decide (x ∉ scope)) f a = none) :
    operate limits f a (Env.ofScope scope) = pure none := by
  have hrule : Rule.byEnvironment scope (Env.ofScope scope) = fun x => decide (x ∉ scope) := by
    funext x
    rw [Rule.byEnvironment, Env.lookup_ofScope]
    by_cases hx : x ∈ scope <;> simp [hx]
  rw [operate_eq_operateBy limits scope, operateBy, hrule, h]

/-- Gives a result for which head reductions go as deep as `deepest`, or halts at the limit of
depth. -/
def atDepth {α : Type} (limits : Limits) (deepest : Nat) (result : α) : Reducing α :=
  if limits.maxDepth ≤ deepest then throw (.error (.depthLimit limits.maxDepth)) else pure result

theorem atDepth_bind {α β : Type} (limits : Limits) (deepest : Nat) (a : α) (g : α → Reducing β) :
    atDepth limits deepest a >>= g = if limits.maxDepth ≤ deepest then
      throw (.error (.depthLimit limits.maxDepth)) else g a := by
  rw [atDepth]
  split
  · rfl
  · rw [pure_bind]

/-- A run goes as deep as the deeper of its parts. -/
theorem ite_atDepth {α : Type} (limits : Limits) (first second : Nat) (a : α) :
    (if limits.maxDepth ≤ first then throw (.error (.depthLimit limits.maxDepth))
      else atDepth limits second a) = atDepth limits (max first second) a := by
  rw [atDepth, atDepth]
  by_cases hfirst : limits.maxDepth ≤ first
  · rw [if_pos hfirst, if_pos (Nat.le_trans hfirst (Nat.le_max_left ..))]
  · by_cases hsecond : limits.maxDepth ≤ second
    · rw [if_neg hfirst, if_pos hsecond, if_pos (Nat.le_trans hsecond (Nat.le_max_right ..))]
    · rw [if_neg hfirst, if_neg hsecond, if_neg (by omega)]

/-- Reductions leave a term as it is, or halt at the limit of depth. Only its applications take them
deeper. The recursion is twice the height, as a full reduction begins with a head reduction. -/
structure Stays (limits : Limits) (scope : List Name) (t : Term) : Prop where
  head : ∀ fuel depth, t.isLam = false → 2 * t.height ≤ fuel + 1 →
    head limits fuel depth t (Env.ofScope scope) =
      atDepth limits (depth + t.applicationDepth) (.stuck t)
  normal : ∀ fuel depth, 2 * t.height ≤ fuel →
    normal limits fuel depth t (Env.ofScope scope) = atDepth limits (depth + t.applicationDepth) t

theorem Stays.of_head (h : ∀ fuel depth, 2 * t.height ≤ fuel + 2 →
      Reducing.head limits (fuel + 1) depth t (Env.ofScope scope) =
        atDepth limits (depth + t.applicationDepth) (.stuck t)) :
    Stays limits scope t := by
  have hpos := t.height_pos
  constructor
  · intro fuel depth _ hfuel
    obtain ⟨fuel, rfl⟩ : ∃ n, fuel = n + 1 := ⟨fuel - 1, by omega⟩
    exact h fuel depth hfuel
  · intro fuel depth hfuel
    obtain ⟨fuel, rfl⟩ : ∃ n, fuel = n + 2 := ⟨fuel - 2, by omega⟩
    rw [Reducing.normal, h fuel depth hfuel, atDepth_bind]
    rfl

theorem Stays.var (limits : Limits) (scope : List Name) (x : Name) :
    Stays limits scope (.var x) := by
  refine .of_head ?_
  intro fuel depth _
  rw [Reducing.head, Env.lookup_ofScope]
  by_cases hx : x ∈ scope
  · rw [if_pos hx]
    rfl
  · rw [if_neg hx]
    rfl

theorem Stays.num (limits : Limits) (scope : List Name) (v : Float) :
    Stays limits scope (.num v) := by
  refine .of_head ?_
  intro fuel depth _
  rw [Reducing.head]
  rfl

/-- An application stays if its parts do, and it is not contracted itself. It halts where one of its
parts does. -/
theorem Stays.app (hf : Stays limits scope f) (ha : Stays limits scope a) (hl : f.isLam = false)
    (hc : contractBy? (fun x => decide (x ∉ scope)) f a = none) :
    Stays limits scope (.app f a) := by
  refine .of_head ?_
  intro fuel depth hfuel
  rw [Term.height] at hfuel
  have hhead := hf.head fuel (depth + 1) hl (by omega)
  have hnormal := ha.normal fuel (depth + 1) (by omega)
  rw [Reducing.head, hhead, atDepth_bind]
  simp only [hnormal, atDepth_bind, operate_ofScope hc, pure_bind]
  rw [← atDepth, ite_atDepth, ite_atDepth, Term.applicationDepth]
  congr 1
  omega

theorem Stays.lam (hb : Stays limits (x :: scope) b) : Stays limits scope (.lam x b) := by
  have hpos := b.height_pos
  refine ⟨fun _ _ h => (nomatch h), ?_⟩
  intro fuel depth hfuel
  rw [Term.height] at hfuel
  obtain ⟨fuel, rfl⟩ : ∃ n, fuel = n + 2 := ⟨fuel - 2, by omega⟩
  have hhead : Reducing.head limits (fuel + 1) depth (.lam x b) (Env.ofScope scope) =
      atDepth limits depth (.closure x b (Env.ofScope scope)) := by
    rw [Reducing.head, atDepth]
  have hnormal : Reducing.normal limits (fuel + 1) depth b ((Env.ofScope scope).unresolved x) =
      atDepth limits (depth + b.applicationDepth) b := hb.normal (fuel + 1) depth (by omega)
  rw [Reducing.normal, hhead, atDepth_bind]
  simp only [openBinder_ofScope, pure_bind, hnormal, atDepth_bind]
  rw [← atDepth, ite_atDepth, Nat.max_eq_right (Nat.le_add_right ..), Term.applicationDepth]

/-- Terms in which nothing is left to contract stay. -/
theorem stays_of_settled (limits : Limits) (hn : t.BetaNormal) (hs : t.Settled scope) :
    Stays limits scope t := by
  induction t generalizing scope with
  | var x => exact .var limits scope x
  | num v => exact .num limits scope v
  | lam x b ih => exact .lam (ih hn hs)
  | app f a ihf iha => exact .app (ihf hn.2.1 hs.2.1) (iha hn.2.2 hs.2.2) hn.1 hs.1

end Reducing

namespace Term

variable {t : Term} {fuel : Nat}

/-- What the reduction of a term comes to in which nothing is left to contract. -/
theorem reduceWithin_eq_of_settled (hn : t.BetaNormal) (hs : t.Settled []) (limits : Limits)
    (hfuel : 2 * t.height ≤ fuel) :
    t.reduceWithin fuel limits .empty =
      if limits.maxDepth ≤ t.applicationDepth then .error (.error (.depthLimit limits.maxDepth)) {}
      else .ok t { events := [.reduced t t 0] } := by
  have hnormal : Reducing.normal limits fuel 0 t .empty =
      Reducing.atDepth limits (0 + t.applicationDepth) t :=
    (Reducing.stays_of_settled limits hn hs).normal fuel 0 hfuel
  rw [reduceWithin, Reducing.whole, hnormal, Reducing.atDepth_bind, Nat.zero_add]
  split <;> rfl

/-- A term in which nothing is left to contract is its own normal form, found without a
contraction. -/
theorem reduceWithin_of_settled (hn : t.BetaNormal) (hs : t.Settled []) {limits : Limits}
    (hfuel : 2 * t.height ≤ fuel) (hdepth : t.height ≤ limits.maxDepth) :
    t.reduceWithin fuel limits .empty = .ok t { events := [.reduced t t 0] } := by
  have hlt := t.applicationDepth_lt_height
  rw [reduceWithin_eq_of_settled hn hs limits hfuel, if_neg (by omega)]

/-- Normal forms cost nothing but depth. Where nothing is left to contract, a term is returned as it
is, its names included, after no contraction, under any limit of them and any depth from one more
than its applications nest; under any lesser depth it halts at that limit. -/
theorem reduceWithin_costs_applicationDepth (hn : t.BetaNormal) (hs : t.Settled [])
    (maxSteps : Option Nat) (maxDepth : Nat) (hfuel : 2 * t.height ≤ fuel) :
    (t.applicationDepth + 1 ≤ maxDepth → ∃ tally, tally.steps = 0 ∧
      t.reduceWithin fuel ⟨maxSteps, maxDepth⟩ .empty = .ok t tally) ∧
    (maxDepth < t.applicationDepth + 1 → ∃ tally,
      t.reduceWithin fuel ⟨maxSteps, maxDepth⟩ .empty =
        .error (.error (.depthLimit maxDepth)) tally) := by
  rw [reduceWithin_eq_of_settled hn hs ⟨maxSteps, maxDepth⟩ hfuel]
  refine ⟨fun henough => ⟨_, rfl, if_neg ?_⟩, fun hless => ⟨_, if_pos ?_⟩⟩
  · exact Nat.not_le_of_lt henough
  · exact Nat.le_of_lt_succ hless

/-- Three applications, one inside the other; the innermost is of an operator to two numbers, below
two abstractions of which the outer one binds the operator. -/
def boundSum : Term :=
  .lam "+" (.app (.var "f") (.lam "x" (.app (.app (.var "+") (.num 1)) (.num 2))))

theorem reduceWithin_costs_applicationDepth_boundSum :
    boundSum.BetaNormal ∧ boundSum.Settled [] ∧ boundSum.applicationDepth = 3 ∧
      (∃ tally, tally.steps = 0 ∧
        boundSum.reduceWithin 12 ⟨some 0, 4⟩ .empty = .ok boundSum tally) ∧
      ∃ tally, boundSum.reduceWithin 12 ⟨some 0, 3⟩ .empty =
        .error (.error (.depthLimit 3)) tally := by
  have hn : boundSum.BetaNormal := ⟨rfl, trivial, rfl, ⟨rfl, trivial, trivial⟩, trivial⟩
  have hs : boundSum.Settled [] := by
    refine ⟨rfl, trivial, ?_, ⟨rfl, trivial, trivial⟩, trivial⟩
    decide
  have hfuel : 2 * boundSum.height ≤ 12 := by decide
  exact ⟨hn, hs, rfl, (reduceWithin_costs_applicationDepth hn hs (some 0) 4 hfuel).1 (by decide),
    (reduceWithin_costs_applicationDepth hn hs (some 0) 3 hfuel).2 (by decide)⟩

end Term

end NormalOrder
