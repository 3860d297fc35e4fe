/- What is left to contract in a result: no abstraction, and an operator only where the environment
of its application had an entry of its name. -/
import NormalOrder.Proofs.Reduction.Plain
import NormalOrder.Proofs.Reduction.Results

namespace NormalOrder

/-- An operator has no entry in the environment of the application, or is bound by no abstraction
around it. -/
def Rule.byEither : Rule := fun scope env x =>
  Rule.byEnvironment scope env x || Rule.byScope scope env x

namespace Reducing

/-- What a computation returns another returns with the same tally, if it is kept. -/
def Keeps {α : Type} (kept : α → Prop) (x y : Reducing α) : Prop :=
  ∀ tally a tally', x tally = .ok a tally' → kept a → y tally = .ok a tally'

section Keeps

variable {α β : Type} {kept : α → Prop} {after : β → Prop}

theorem Keeps.refl (kept : α → Prop) (x : Reducing α) : Keeps kept x x :=
  fun _ _ _ h _ => h

theorem Keeps.throw {halt : Halt} {y : Reducing α} :
    Keeps kept (MonadExcept.throw halt : Reducing α) y :=
  fun _ _ _ h _ => by cases h

theorem Keeps.bind {x y : Reducing α} {f g : α → Reducing β} (h : Keeps kept x y)
    (hf : ∀ a, Keeps after (f a) (g a))
    (hback : ∀ a, Ensures (fun b => after b → kept a) (fun _ => True) (f a)) :
    Keeps after (x >>= f) (y >>= g) := by
  intro tally b tally'' hb hafter
  have hb : EStateM.bind x f tally = .ok b tally'' := hb
  change EStateM.bind y g tally = .ok b tally''
  rw [EStateM.bind] at hb ⊢
  cases hx : x tally with
  | error halt tally' =>
      rw [hx] at hb
      cases hb
  | ok a tally' =>
      rw [hx] at hb
      have hkept := hback a tally'
      rw [show f a tally' = .ok b tally'' from hb] at hkept
      rw [h tally a tally' hx (hkept hafter)]
      exact hf a tally' b tally'' hb hafter

theorem Keeps.bind_same (x : Reducing α) {f g : α → Reducing β}
    (hf : ∀ a, Keeps after (f a) (g a)) : Keeps after (x >>= f) (x >>= g) :=
  (Keeps.refl (fun _ => True) x).bind hf fun a => .of_forall (fun _ _ => trivial) (f a)

end Keeps

theorem contractBy?_byEither {scope : List Name} {env : Env} {f a : Term}
    (henv : contractBy? (Rule.byEnvironment scope env) f a = none)
    (hscope : contractBy? (Rule.byScope scope env) f a = none) :
    contractBy? (Rule.byEither scope env) f a = none := by
  apply Option.eq_none_iff_forall_ne_some.mpr
  intro r hr
  obtain ⟨x, op, left, right, rfl, rfl, hx, hop, rfl⟩ := contractBy?_eq_some hr
  rcases Bool.or_eq_true_iff.mp hx with hx | hx
  · simp [contractBy?, hx, hop] at henv
  · simp [contractBy?, hx, hop] at hscope

theorem operateBy_keeps (limits : Limits) (scope : List Name) (env : Env) (f a : Term) :
    Keeps (fun r => r = none → contractBy? (Rule.byScope scope env) f a = none)
      (operateBy limits (Rule.byEnvironment scope env) f a)
      (operateBy limits (Rule.byEither scope env) f a) := by
  intro tally r tally' hr hkept
  cases hc : contractBy? (Rule.byEnvironment scope env) f a with
  | some result =>
      have heither : contractBy? (Rule.byEither scope env) f a = some result :=
        contractBy?_eq_some_of_imp hc fun x hx => Bool.or_eq_true_iff.mpr (.inl hx)
      rw [operateBy, hc] at hr
      rw [operateBy, heither]
      exact hr
  | none =>
      rw [operateBy, hc] at hr
      cases hr
      rw [operateBy, contractBy?_byEither hc (hkept rfl)]
      rfl

/-- What an operator applies to is settled anyway, and else it is if the application is. -/
theorem settled_of_applied (limits : Limits) (operates : Name → Bool) (scope : List Name)
    (f a : Term) (next : Term → Reducing Head) :
    Ensures (fun r => Stuck (Term.Settled scope) r → f.Settled scope ∧ a.Settled scope)
      (fun _ => True)
      (do
        match ← operateBy limits operates f a with
        | some result => next result
        | none => return .stuck (.app f a)) := by
  rw [operateBy]
  cases hc : contractBy? operates f a with
  | none =>
      rw [pure_bind]
      exact .pure fun h => h.2
  | some r =>
      obtain ⟨x, op, left, right, rfl, rfl, -, -, rfl⟩ := contractBy?_eq_some hc
      exact .of_forall (fun _ _ => ⟨⟨rfl, trivial, trivial⟩, trivial⟩) _

/-- Head reductions with this fuel that come to a settled result come to it by either rule. -/
def HeadKeeps (limits : Limits) (fuel : Nat) : Prop :=
  ∀ depth scope t env,
    Keeps (Stuck (Term.Settled scope)) (headBy .byEnvironment limits fuel depth scope t env)
      (headBy .byEither limits fuel depth scope t env)

def NormalKeeps (limits : Limits) (fuel : Nat) : Prop :=
  ∀ depth scope t env,
    Keeps (Term.Settled scope) (normalBy .byEnvironment limits fuel depth scope t env)
      (normalBy .byEither limits fuel depth scope t env)

section Run

variable {limits : Limits} {fuel : Nat}

theorem stuck_keeps (ihHead : HeadKeeps limits fuel) (ihNormal : NormalKeeps limits fuel)
    (depth : Nat) (scope : List Name) (g a : Term) (env : Env) :
    Keeps (Stuck (Term.Settled scope))
      (do
        let v ← normalBy .byEnvironment limits fuel depth scope a env
        match ← operateBy limits (Rule.byEnvironment scope env) g v with
        | some result => headBy .byEnvironment limits fuel depth scope result .empty
        | none => return .stuck (.app g v))
      (do
        let v ← normalBy .byEither limits fuel depth scope a env
        match ← operateBy limits (Rule.byEither scope env) g v with
        | some result => headBy .byEither limits fuel depth scope result .empty
        | none => return .stuck (.app g v)) := by
  refine (ihNormal depth scope a env).bind (fun v => ?_) fun v => ?_
  · refine (operateBy_keeps limits scope env g v).bind (fun r => ?_) fun r => ?_
    · cases r with
      | none => exact .refl _ _
      | some t => exact ihHead depth scope t .empty
    · -- A settled result shows that no operator was left that nothing binds.
      cases r with
      | none => exact .pure fun h _ => h.1
      | some t =>
          refine .of_forall (fun _ _ h => ?_) _
          cases h
  · exact (settled_of_applied limits _ scope g v _).imp fun r h hr => (h hr).2

theorem headBy_app_keeps (ihHead : HeadKeeps limits fuel) (ihNormal : NormalKeeps limits fuel)
    {depth : Nat} (hd : ¬ limits.maxDepth ≤ depth) (scope : List Name) (f a : Term) (env : Env) :
    Keeps (Stuck (Term.Settled scope))
      (headBy .byEnvironment limits (fuel + 1) depth scope (.app f a) env)
      (headBy .byEither limits (fuel + 1) depth scope (.app f a) env) := by
  rw [headBy, headBy, if_neg hd, if_neg hd]
  refine (ihHead (depth + 1) scope f env).bind (fun r => ?_) fun r => ?_
  · cases r with
    | closure x body home =>
        refine .bind_same _ fun _ => .bind_same _ ?_
        intro _
        exact ihHead (depth + 1) scope body _
    | stuck g => exact stuck_keeps ihHead ihNormal (depth + 1) scope g a env
  · cases r with
    | closure x body home => exact .of_forall (fun _ _ => trivial) _
    | stuck g =>
        refine (Ensures.of_forall (fun _ => trivial) _).bind fun v (_ : True) => ?_
        exact (settled_of_applied limits _ scope g v _).imp fun r h hr => (h hr).1

theorem HeadKeeps.succ (ihHead : HeadKeeps limits fuel) (ihNormal : NormalKeeps limits fuel) :
    HeadKeeps limits (fuel + 1) := by
  intro depth scope t env
  by_cases hd : limits.maxDepth ≤ depth
  · rw [headBy_of_deep hd]
    exact .throw
  cases t with
  | var x =>
      rcases headBy_var hd x env with ⟨s, -, hrun⟩ | hrun
      · rw [hrun, hrun]
        exact ihHead (depth + 1) scope s.term s.home
      · rw [hrun, hrun]
        exact .refl _ _
  | num v =>
      rw [headBy, headBy]
      exact .refl _ _
  | lam x body =>
      rw [headBy, headBy]
      exact .refl _ _
  | app f a => exact headBy_app_keeps ihHead ihNormal hd scope f a env

theorem NormalKeeps.succ (ihHead : HeadKeeps limits fuel) (ihNormal : NormalKeeps limits fuel) :
    NormalKeeps limits (fuel + 1) := by
  intro depth scope t env
  rw [normalBy, normalBy]
  refine (ihHead depth scope t env).bind (fun r => ?_) fun r => ?_
  · cases r with
    | stuck v => exact .refl _ _
    | closure x body home =>
        refine .bind_same _ ?_
        intro opened
        refine (ihNormal depth (opened.1 :: scope) opened.2 _).bind (fun v => .refl _ _) ?_
        intro v
        exact .pure fun h => h
  · cases r with
    | stuck v => exact .pure fun h => h
    | closure x body home => exact .of_forall (fun _ _ => trivial) _

/-- The reducer's way to a settled result is the way by either rule. -/
theorem reductionBy_keeps (limits : Limits) (fuel : Nat) :
    HeadKeeps limits fuel ∧ NormalKeeps limits fuel := by
  induction fuel with
  | zero => exact ⟨fun _ _ _ _ => .throw, fun _ _ _ _ => .throw⟩
  | succ fuel ih =>
      obtain ⟨ihHead, ihNormal⟩ := ih
      exact ⟨ihHead.succ ihNormal, .succ ihHead ihNormal⟩

end Run

end Reducing

namespace Term

variable {e v : Term} {env : Env} {fuel : Nat} {limits : Limits} {tally : Tally}

/-- A result is final: nothing is left to contract in it, and reductions with room for its height
return it as it is, without a contraction. -/
structure IsFinal (v : Term) : Prop where
  betaNormal : v.BetaNormal
  settled : v.Settled []
  returned : ∀ limits fuel, 2 * v.height ≤ fuel → v.height ≤ limits.maxDepth →
    v.reduceWithin fuel limits .empty = .ok v { events := [.reduced v v 0] }

theorem IsFinal.of_settled (hn : v.BetaNormal) (hs : v.Settled []) : v.IsFinal :=
  ⟨hn, hs, fun _ _ hfuel hdepth => reduceWithin_of_settled hn hs hfuel hdepth⟩

/-- When a result is final. No abstraction is ever left applied in one. It is final if and only if
the reduction goes as it does where an operator applies by either rule, that is, if at no
application the environment keeps back an operator that nothing binds. It is where no operator's
name is bound. -/
theorem isFinal_iff_of_reduceWithin (h : e.reduceWithin fuel limits env = .ok v tally) :
    v.BetaNormal ∧
    (v.IsFinal ↔ e.reduceBy .byEither fuel limits env = .ok v tally) ∧
    (e.Binders Name.Plain → env.All Name.Plain Name.Plain → v.IsFinal) := by
  have hrun := h
  rw [reduceWithin_eq_reduceBy] at hrun
  have hn : v.BetaNormal := betaNormal_of_reduceBy hrun
  refine ⟨hn, ⟨fun hfinal => ?_, fun heither => ?_⟩, fun he henv => ?_⟩
  -- A final result is settled, and the way to it is kept by the more liberal rule.
  · obtain ⟨mid, hr, rfl⟩ := Reducing.wholeBy_eq_ok hrun
    have hkept := (Reducing.reductionBy_keeps limits fuel).2 0 [] e env {} v mid hr hfinal.settled
    exact Reducing.wholeBy_of_normalBy hkept
  · exact .of_settled hn
      (settled_of_reduceBy (fun _ _ _ hx => Bool.or_eq_true_iff.mpr (.inr hx)) heither)
  · rw [reduceWithin_of_plain he henv] at h
    exact .of_settled hn (settled_of_reduceBy (fun _ _ _ hx => hx) h)

/-- The sum is a result of an abstraction that names its variable otherwise. -/
theorem isFinal_of_plain_binder : (Term.num (1 + 2)).IsFinal := by
  have hrun : (Term.app (.lam "y" (.app (.lam "p" (.app (.app (.var "y") (.num 1)) (.num 2)))
      (.var "g"))) (.var "+")).reduceWithin 9 {} .empty = .ok (.num (1 + 2)) _ := rfl
  obtain ⟨-, -, hfinal⟩ := isFinal_iff_of_reduceWithin hrun
  exact hfinal ⟨⟨rfl, ⟨rfl, ⟨trivial, trivial⟩, trivial⟩, trivial⟩, trivial⟩ trivial

/-- A result need not be final: an entry of its name keeps back the operator that comes in for
another variable, and the sum is left to the next reduction. -/
theorem not_isFinal_of_bound_operator :
    (∃ tally, (Term.app (.lam "y" (.app (.lam "+" (.app (.app (.var "y") (.num 1)) (.num 2)))
      (.var "g"))) (.var "+")).reduce {} .empty =
        .ok (.app (.app (.var "+") (.num 1)) (.num 2)) tally) ∧
    (∃ tally, (Term.app (.app (.var "+") (.num 1)) (.num 2)).reduce {} .empty =
      .ok (.num (1 + 2)) tally) ∧
    ¬ (Term.app (.app (.var "+") (.num 1)) (.num 2)).IsFinal :=
  ⟨⟨_, rfl⟩, ⟨_, rfl⟩, fun h => nomatch h.settled.1⟩

end Term

end NormalOrder
