/- Which entries of an environment a reduction depends on: those for the free names of its term and
for the names of operators, and of each value there again those only.

Two environments that are alike on these names lead to the same run: the same value or halt, with
the same contractions and renamings. -/
import NormalOrder.Proofs.Reduction.FreeNames
import NormalOrder.Proofs.Reduction.Plain

namespace NormalOrder

/-- A name whose entry a reduction of a term may ask for. Operators' names are among them, since a
value brought into the term may be an operator. -/
def Term.Relevant (t : Term) (x : Name) : Prop :=
  x ∈ t.freeNames ∨ ¬ x.Plain

/-- Entries that no reduction tells apart: the same term waits in environments that are alike on its
own relevant names. -/
inductive Binding.Alike : Option Binding → Option Binding → Prop
  | none : Alike none none
  | unresolved : Alike (some .unresolved) (some .unresolved)
  | resolved {s s' : Suspension} (term : s.term = s'.term)
      (home : ∀ x, s.term.Relevant x → Alike (s.home.lookup x) (s'.home.lookup x)) :
      Alike (some (.resolved s)) (some (.resolved s'))

namespace Env

/-- Environments with entries for the given names that no reduction tells apart. -/
def AlikeOn (names : Name → Prop) (env env' : Env) : Prop :=
  ∀ x, names x → Binding.Alike (env.lookup x) (env'.lookup x)

variable {names names' : Name → Prop} {env env' : Env} {x y : Name}

theorem alike_lookup (env : Env) (x : Name) : Binding.Alike (env.lookup x) (env.lookup x) := by
  induction env using Env.induction generalizing x with
  | empty => exact .none
  | unresolved env y ih =>
      rw [lookup_unresolved]
      split
      · exact .unresolved
      · exact ih x
  | resolved env y s ih ihHome =>
      rw [lookup_resolved]
      split
      · exact .resolved rfl fun z _ => ihHome z
      · exact ih x

theorem AlikeOn.refl (names : Name → Prop) (env : Env) : AlikeOn names env env :=
  fun x _ => env.alike_lookup x

theorem AlikeOn.mono (h : AlikeOn names env env') (himp : ∀ x, names' x → names x) :
    AlikeOn names' env env' :=
  fun x hx => h x (himp x hx)

/-- An entry for a name that does not matter makes no difference. -/
theorem alikeOn_resolved (env : Env) (s : Suspension) (hy : ¬ names y) :
    AlikeOn names (env.resolved y s) env := by
  intro x hx
  rw [lookup_resolved, if_neg fun e : y = x => hy (e ▸ hx)]
  exact env.alike_lookup x

/-- An unresolved entry hides what is unlike under its name. -/
theorem AlikeOn.unresolved (h : AlikeOn (fun x => names x ∧ x ≠ y) env env') :
    AlikeOn names (env.unresolved y) (env'.unresolved y) := by
  intro x hx
  rw [lookup_unresolved, lookup_unresolved]
  split
  · exact .unresolved
  · rename_i hne
    exact h x ⟨hx, Ne.symm hne⟩

theorem AlikeOn.resolved {s s' : Suspension} (h : AlikeOn (fun x => names x ∧ x ≠ y) env env')
    (term : s.term = s'.term) (home : AlikeOn s.term.Relevant s.home s'.home) :
    AlikeOn names (env.resolved y s) (env'.resolved y s') := by
  intro x hx
  rw [lookup_resolved, lookup_resolved]
  split
  · exact .resolved term home
  · rename_i hne
    exact h x ⟨hx, Ne.symm hne⟩

end Env

/-- The free names of what an entry for a name stands for. -/
def Binding.freeNamesAt (x : Name) : Option Binding → Names
  | some (.resolved s) => s.freeNames
  | _ => [x]

/-- Entries that are alike stand for values with the same free names. -/
theorem Binding.Alike.freeNamesAt_eq {b b' : Option Binding} (h : Alike b b') (x : Name) :
    Binding.freeNamesAt x b = Binding.freeNamesAt x b' := by
  induction h generalizing x with
  | none => rfl
  | unresolved => rfl
  | @resolved s s' term home ih =>
      change s.freeNames = s'.freeNames
      rw [Suspension.freeNames_eq, Suspension.freeNames_eq, ← term]
      congr 1
      exact List.map_congr_left fun y hy => ih y (.inl hy) y

theorem Binding.Alike.isNone_eq {b b' : Option Binding} (h : Alike b b') :
    b = Option.none ↔ b' = Option.none := by
  cases h <;> simp

theorem Env.AlikeOn.broughtUnder_eq {x : Name} {body : Term} {env env' : Env}
    (h : AlikeOn (Term.lam x body).Relevant env env') :
    env.broughtUnder x body = env'.broughtUnder x body := by
  have hbrought : ∀ y ∈ body.freeNames.without x, env.broughtBy y = env'.broughtBy y := by
    intro y hy
    have halike := h y (.inl hy)
    have hfree := halike.freeNamesAt_eq y
    rw [broughtBy, broughtBy]
    generalize env.lookup y = b, env'.lookup y = b' at halike hfree
    cases halike with
    | none => rfl
    | unresolved => rfl
    | resolved term home => exact hfree
  rw [broughtUnder, broughtUnder, List.map_congr_left hbrought]

/-- Results of head reduction that go on in the same way. -/
inductive Head.Alike : Head → Head → Prop
  | closure {x : Name} {body : Term} {home home' : Env}
      (h : home.AlikeOn (Term.lam x body).Relevant home') :
      Alike (.closure x body home) (.closure x body home')
  | stuck (t : Term) : Alike (.stuck t) (.stuck t)

theorem Head.Alike.refl (r : Head) : Alike r r := by
  cases r with
  | closure x body home => exact .closure (.refl _ home)
  | stuck t => exact .stuck t

namespace Reducing

variable {α β γ δ : Type}

/-- Ends with the same tally, in the same halt or with related results. -/
inductive SameEnd (related : α → β → Prop) :
    EStateM.Result Halt Tally α → EStateM.Result Halt Tally β → Prop
  | ok {a : α} {b : β} (h : related a b) (tally : Tally) :
      SameEnd related (.ok a tally) (.ok b tally)
  | error (halt : Halt) (tally : Tally) : SameEnd related (.error halt tally) (.error halt tally)

/-- Computations that end in the same way from every tally. -/
def Agree (related : α → β → Prop) (x : Reducing α) (y : Reducing β) : Prop :=
  ∀ tally, SameEnd related (x tally) (y tally)

section Agree

variable {related : α → β → Prop}

theorem Agree.pure {a : α} {b : β} (h : related a b) :
    Agree related (Pure.pure a : Reducing α) (Pure.pure b : Reducing β) :=
  fun tally => .ok h tally

theorem Agree.throw (halt : Halt) :
    Agree related (MonadExcept.throw halt : Reducing α) (MonadExcept.throw halt : Reducing β) :=
  fun tally => .error halt tally

theorem Agree.refl {related : α → α → Prop} (h : ∀ a, related a a) (x : Reducing α) :
    Agree related x x := by
  intro tally
  cases x tally with
  | ok a after => exact .ok (h a) after
  | error halt after => exact .error halt after

theorem Agree.of_eq {x y : Reducing α} (h : x = y) : Agree (· = ·) x y :=
  h ▸ Agree.refl (fun _ => rfl) x

theorem Agree.eq {x y : Reducing α} (h : Agree (· = ·) x y) : x = y := by
  funext tally
  have h := h tally
  generalize x tally = r, y tally = r' at h
  cases h with
  | ok h tally => rw [h]
  | error halt tally => rfl

theorem Agree.bind {after : γ → δ → Prop} {x : Reducing α} {y : Reducing β} {f : α → Reducing γ}
    {g : β → Reducing δ} (h : Agree related x y)
    (hf : ∀ a b, related a b → Agree after (f a) (g b)) : Agree after (x >>= f) (y >>= g) := by
  intro tally
  have h := h tally
  rw [bind_apply, bind_apply]
  generalize x tally = r, y tally = r' at h
  cases h with
  | ok h tally => exact hf _ _ h tally
  | error halt tally => exact .error halt tally

end Agree

section Run

variable {limits : Limits} {fuel : Nat} {env env' : Env}

/-- An operator is free in both of two environments that are alike on operators' names, or in
neither. -/
theorem operate_eq_of_alike {names : Name → Prop} (h : env.AlikeOn names env')
    (hnames : ∀ x, ¬ x.Plain → names x) (f a : Term) :
    operate limits f a env = operate limits f a env' := by
  have hrule : ∀ x, ¬ x.Plain →
      Rule.byEnvironment [] env x = Rule.byEnvironment [] env' x := by
    intro x hx
    rw [Bool.eq_iff_iff, Rule.byEnvironment, Rule.byEnvironment, Option.isNone_iff_eq_none,
      Option.isNone_iff_eq_none]
    exact (h x (hnames x hx)).isNone_eq
  have hcontract : contractBy? (Rule.byEnvironment [] env) f a =
      contractBy? (Rule.byEnvironment [] env') f a := by
    unfold contractBy?
    split
    · rename_i x left right
      by_cases hx : x.Plain
      · rw [hx]
        simp
      · rw [hrule x hx]
    · rfl
  rw [operate_eq_operateBy limits [], operate_eq_operateBy limits [], operateBy, operateBy,
    hcontract]

theorem openBinder_eq_of_alike {x : Name} {body : Term}
    (h : env.AlikeOn (Term.lam x body).Relevant env') :
    openBinder x body env = openBinder x body env' := by
  rw [openBinder, openBinder, h.broughtUnder_eq]

/-- Under the binder that is chosen only names are relevant that were before. -/
theorem openBinder_relevant (x : Name) (body : Term) (home : Env) :
    Returns (fun opened => ∀ z, opened.2.Relevant z → z ≠ opened.1 → (Term.lam x body).Relevant z)
      (openBinder x body home) :=
  (openBinder_opens x body home).imp fun _ ho _ hz hne =>
    hz.imp_left fun hfree => ho.mem_freeNames hfree hne

/-- Head reductions with this fuel go the same way in environments that are alike on what is
relevant. -/
def HeadAlike (limits : Limits) (fuel : Nat) : Prop :=
  ∀ depth t env env', Env.AlikeOn t.Relevant env env' →
    Agree Head.Alike (head limits fuel depth t env) (head limits fuel depth t env')

def NormalAlike (limits : Limits) (fuel : Nat) : Prop :=
  ∀ depth t env env', Env.AlikeOn t.Relevant env env' →
    normal limits fuel depth t env = normal limits fuel depth t env'

theorem head_app_alike (ihHead : HeadAlike limits fuel) (ihNormal : NormalAlike limits fuel)
    {depth : Nat} (hd : ¬ limits.maxDepth ≤ depth) {f a : Term}
    (h : env.AlikeOn (Term.app f a).Relevant env') :
    Agree Head.Alike (head limits (fuel + 1) depth (.app f a) env)
      (head limits (fuel + 1) depth (.app f a) env') := by
  have hf : env.AlikeOn f.Relevant env' :=
    h.mono fun x hx => hx.imp_left fun hx => Names.mem_union.mpr (.inl hx)
  have ha : env.AlikeOn a.Relevant env' :=
    h.mono fun x hx => hx.imp_left fun hx => Names.mem_union.mpr (.inr hx)
  rw [head, head, if_neg hd, if_neg hd]
  apply (ihHead (depth + 1) f env env' hf).bind
  intro r r' hr
  cases hr with
  | @closure x body home home' hhome =>
      -- The body sees the suspended argument, and else what the closure sees.
      have hbody : (home.resolved x (env.suspend a)).AlikeOn body.Relevant
          (home'.resolved x (env'.suspend a)) := by
        refine Env.AlikeOn.resolved (hhome.mono fun z hz => ?_) rfl ha
        exact hz.1.imp_left fun hfree => Names.mem_without.mpr ⟨hfree, hz.2⟩
      refine (Agree.refl (fun _ => rfl) (countStep limits)).bind fun _ _ _ => ?_
      refine (Agree.refl (fun _ => rfl) (tellApplied a x body)).bind fun _ _ _ => ?_
      exact ihHead (depth + 1) body _ _ hbody
  | stuck g =>
      dsimp only
      rw [ihNormal (depth + 1) a env env' ha]
      refine (Agree.refl (fun _ => rfl) _).bind fun v v' hv => ?_
      subst hv
      rw [operate_eq_of_alike h (fun _ => .inr) g v]
      refine (Agree.refl (fun _ => rfl) _).bind fun r r' hr => ?_
      subst hr
      exact Agree.refl Head.Alike.refl _

theorem HeadAlike.succ (ihHead : HeadAlike limits fuel) (ihNormal : NormalAlike limits fuel) :
    HeadAlike limits (fuel + 1) := by
  intro depth t env env' h
  by_cases hd : limits.maxDepth ≤ depth
  · rw [head_of_deep hd, head_of_deep hd]
    exact .throw _
  cases t with
  | var x =>
      have hx := h x (.inl (List.mem_singleton.mpr rfl))
      rw [head, head, if_neg hd, if_neg hd]
      generalize env.lookup x = b, env'.lookup x = b' at hx
      cases hx with
      | none => exact .pure (.stuck _)
      | unresolved => exact .pure (.stuck _)
      | @resolved s s' term home =>
          dsimp only
          rw [← term]
          exact ihHead (depth + 1) s.term s.home s'.home home
  | num v =>
      rw [head, head, if_neg hd]
      exact .pure (.stuck _)
  | lam x body =>
      rw [head, head, if_neg hd, if_neg hd]
      exact .pure (.closure h)
  | app f a => exact head_app_alike ihHead ihNormal hd h

theorem NormalAlike.succ (ihHead : HeadAlike limits fuel) (ihNormal : NormalAlike limits fuel) :
    NormalAlike limits (fuel + 1) := by
  intro depth t env env' h
  rw [normal, normal]
  refine ((ihHead depth t env env' h).bind ?_).eq
  intro r r' hr
  cases hr with
  | stuck v => exact .pure rfl
  | @closure x body home home' hhome =>
      dsimp only
      rw [openBinder_eq_of_alike hhome]
      refine .of_eq ((openBinder_relevant x body home').bind_congr fun opened hopened => ?_)
      have hunder : (home.unresolved opened.1).AlikeOn opened.2.Relevant
          (home'.unresolved opened.1) :=
        Env.AlikeOn.unresolved (hhome.mono fun z hz => hopened z hz.1 hz.2)
      exact bind_eq (ihNormal depth opened.2 _ _ hunder) fun _ => rfl

/-- Runs go the same way in environments that are alike on what is relevant to the term. -/
theorem reduction_alike (limits : Limits) (fuel : Nat) :
    HeadAlike limits fuel ∧ NormalAlike limits fuel := by
  induction fuel with
  | zero => exact ⟨fun _ _ _ _ _ => .throw _, fun _ _ _ _ _ => rfl⟩
  | succ fuel ih =>
      obtain ⟨ihHead, ihNormal⟩ := ih
      exact ⟨ihHead.succ ihNormal, .succ ihHead ihNormal⟩

end Run

end Reducing

/-- A reduction depends on no other entries of its environment than those for the free names of the
term and for operators. -/
theorem Term.reduceWithin_of_alike {t : Term} {env env' : Env} (h : env.AlikeOn t.Relevant env')
    (fuel : Nat) (limits : Limits) :
    t.reduceWithin fuel limits env = t.reduceWithin fuel limits env' := by
  rw [reduceWithin, reduceWithin, Reducing.whole, Reducing.whole,
    (Reducing.reduction_alike limits fuel).2 0 t env env' h]

end NormalOrder
