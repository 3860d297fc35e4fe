/- What kinds of binder names a run meets: those of the term and its environment, and fresh ones. So
a run without an empty binder name never fails to rename one. -/
import NormalOrder.Proofs.Reduction.Ensures

namespace NormalOrder

/-- Each entry of an environment, and each binder of a suspended term, has a name of the given kind,
also in the homes of suspensions. -/
def Frames.All (entry binder : Name → Prop) : Frames → Prop
  | empty => True
  | unresolved x outer => entry x ∧ outer.All entry binder
  | resolved x t home _ outer =>
    entry x ∧ t.Binders binder ∧ home.All entry binder ∧ outer.All entry binder

namespace Env

/-- Each entry of an environment, and each binder of a suspended term, has a name of the given
kind. -/
def All (entry binder : Name → Prop) (env : Env) : Prop :=
  env.frames.All entry binder

variable {entry binder : Name → Prop} {env : Env} {x : Name}

theorem All.unresolved (h : env.All entry binder) (hx : entry x) :
    (env.unresolved x).All entry binder :=
  ⟨hx, h⟩

theorem All.resolved {s : Suspension} (h : env.All entry binder) (hx : entry x)
    (ht : s.term.Binders binder) (hs : s.home.All entry binder) :
    (env.resolved x s).All entry binder :=
  ⟨hx, ht, hs, h⟩

theorem All.of_lookup {s : Suspension} (h : env.All entry binder)
    (hs : env.lookup x = some (.resolved s)) :
    s.term.Binders binder ∧ s.home.All entry binder := by
  induction env using Env.induction with
  | empty => cases hs
  | unresolved env y ih =>
      rw [lookup_unresolved] at hs
      split at hs
      · cases hs
      · exact ih h.2 hs
  | resolved env y r ih =>
      rw [lookup_resolved] at hs
      split at hs
      · cases hs
        exact ⟨h.2.1, h.2.2.1⟩
      · exact ih h.2.2.2 hs

theorem All.lookup_eq_none (h : env.All entry binder) (hx : ¬ entry x) : env.lookup x = none := by
  induction env using Env.induction with
  | empty => rfl
  | unresolved env y ih =>
      rw [lookup_unresolved, if_neg fun e : y = x => hx (e ▸ h.1)]
      exact ih h.2
  | resolved env y r ih =>
      rw [lookup_resolved, if_neg fun e : y = x => hx (e ▸ h.1)]
      exact ih h.2.2.2

end Env

/-- Each binder that a result of head reduction brings along has a name of the given kind. -/
def Head.All (entry binder : Name → Prop) : Head → Prop
  | .closure x body home => binder x ∧ body.Binders binder ∧ home.All entry binder
  | .stuck t => t.Binders binder

/-- A halt at an empty name, if at all, where binders may have that name. -/
def Halt.Admits (binder : Name → Prop) (halt : Halt) : Prop :=
  halt = .error .emptyName → binder ""

section Admits

variable (binder : Name → Prop)

theorem Halt.admits_outOfFuel : Halt.outOfFuel.Admits binder := by
  intro h
  cases h

theorem Halt.admits_stepLimit (limit : Nat) : (Halt.error (.stepLimit limit)).Admits binder := by
  intro h
  cases h

theorem Halt.admits_depthLimit (limit : Nat) : (Halt.error (.depthLimit limit)).Admits binder := by
  intro h
  cases h

end Admits

namespace Reducing

variable {binder : Name → Prop}

/-- Renaming a binder yields one with a number above zero, and fails for an empty one only. -/
theorem openBinder_ensures (hfresh : ∀ x : Name, 0 < x.number → binder x) {x : Name} {body : Term}
    (hx : binder x) (hb : body.Binders binder) (home : Env) :
    Ensures (fun opened => binder opened.1 ∧ opened.2.Binders binder)
      (Halt.Admits binder) (openBinder x body home) := by
  rw [openBinder]
  split
  · rw [Term.rebind]
    cases hf : x.fresh ((home.broughtUnder x body).union body.names) with
    | error e =>
        refine .throw ?_
        intro he
        cases e with
        | empty =>
            have hempty : x = "" := by
              by_contra hne
              exact Name.fresh_ne_error_empty hne hf
            exact hempty ▸ hx
        | suffixOverflow => cases he
    | ok new =>
        exact (Ensures.of_modify _).bind fun _ _ =>
          .pure ⟨hfresh new (Name.number_pos_of_fresh hf), Term.binders_rename hb⟩
  · exact .pure ⟨hx, hb⟩

theorem binders_apply (hfresh : ∀ x : Name, 0 < x.number → binder x) {op : Operator}
    {left right : Float} {r : Term} (h : op.apply left right = .ok r) : r.Binders binder := by
  cases op with
  | add => cases h; trivial
  | sub => cases h; trivial
  | mul => cases h; trivial
  | div =>
      rw [Operator.apply] at h
      split at h <;> cases h
      trivial
  | eq =>
      cases h
      exact ⟨hfresh "1" (by decide), hfresh "2" (by decide), trivial⟩

theorem operateBy_ensures (hfresh : ∀ x : Name, 0 < x.number → binder x) (limits : Limits)
    (operates : Name → Bool) (f a : Term) :
    Ensures (fun r => ∀ t, r = some t → t.Binders binder)
      (Halt.Admits binder) (operateBy limits operates f a) := by
  rw [operateBy]
  cases h : contractBy? operates f a with
  | none => exact .pure fun _ h => by cases h
  | some r =>
      obtain ⟨x, op, left, right, -, -, -, -, rfl⟩ := contractBy?_eq_some h
      cases hr : op.apply left right with
      | error e =>
          refine .throw ?_
          intro he
          cases he
          cases Operator.apply_eq_error hr
      | ok t =>
          refine (countStep_ensures limits (Halt.admits_stepLimit binder)).bind fun _ _ =>
            .pure fun u hu => ?_
          cases hu
          exact binders_apply hfresh hr

/-- Head reductions with this fuel keep the kinds of names, and halt at an empty name only if
binders may have it. -/
def HeadEnsures (entry binder : Name → Prop) (rule : Rule) (limits : Limits) (fuel : Nat) : Prop :=
  ∀ depth scope t env, t.Binders binder → env.All entry binder →
    Ensures (Head.All entry binder) (Halt.Admits binder)
      (headBy rule limits fuel depth scope t env)

/-- As `HeadEnsures`, for full reductions. -/
def NormalEnsures (entry binder : Name → Prop) (rule : Rule) (limits : Limits) (fuel : Nat) :
    Prop :=
  ∀ depth scope t env, t.Binders binder → env.All entry binder →
    Ensures (Term.Binders binder) (Halt.Admits binder)
      (normalBy rule limits fuel depth scope t env)

section Run

variable {entry : Name → Prop} {rule : Rule} {limits : Limits} {fuel : Nat}

theorem headBy_app_ensures (hentry : ∀ x, binder x → entry x)
    (hfresh : ∀ x : Name, 0 < x.number → binder x)
    (ihHead : HeadEnsures entry binder rule limits fuel)
    (ihNormal : NormalEnsures entry binder rule limits fuel) {depth : Nat}
    (hd : ¬ limits.maxDepth ≤ depth) (scope : List Name) {f a : Term} {env : Env}
    (ht : (Term.app f a).Binders binder) (henv : env.All entry binder) :
    Ensures (Head.All entry binder) (Halt.Admits binder)
      (headBy rule limits (fuel + 1) depth scope (.app f a) env) := by
  rw [headBy, if_neg hd]
  apply (ihHead (depth + 1) scope f env ht.1 henv).bind
  intro r hg
  cases r with
  | closure x body home =>
      obtain ⟨hx, hbody, hhome⟩ := hg
      apply (countStep_ensures limits (Halt.admits_stepLimit binder)).bind
      intro _ _
      apply (Ensures.of_modify _).bind
      intro _ _
      exact ihHead (depth + 1) scope body _ hbody (hhome.resolved (hentry x hx) ht.2 henv)
  | stuck g =>
      apply (ihNormal (depth + 1) scope a env ht.2 henv).bind
      intro v hv
      apply (operateBy_ensures hfresh limits _ g v).bind
      intro r hr
      cases r with
      | none => exact .pure ⟨hg, hv⟩
      | some t => exact ihHead (depth + 1) scope t .empty (hr t rfl) trivial

theorem HeadEnsures.succ (hentry : ∀ x, binder x → entry x)
    (hfresh : ∀ x : Name, 0 < x.number → binder x)
    (ihHead : HeadEnsures entry binder rule limits fuel)
    (ihNormal : NormalEnsures entry binder rule limits fuel) :
    HeadEnsures entry binder rule limits (fuel + 1) := by
  intro depth scope t env ht henv
  by_cases hd : limits.maxDepth ≤ depth
  · rw [headBy_of_deep hd]
    exact .throw (Halt.admits_depthLimit binder _)
  cases t with
  | var x =>
      rcases headBy_var hd x env with ⟨s, hx, hrun⟩ | hrun
      · obtain ⟨hs, hhome⟩ := henv.of_lookup hx
        rw [hrun]
        exact ihHead (depth + 1) scope s.term s.home hs hhome
      · rw [hrun]
        exact .pure trivial
  | num v =>
      rw [headBy, if_neg hd]
      exact .pure trivial
  | lam x body =>
      rw [headBy, if_neg hd]
      exact .pure ⟨ht.1, ht.2, henv⟩
  | app f a => exact headBy_app_ensures hentry hfresh ihHead ihNormal hd scope ht henv

theorem NormalEnsures.succ (hentry : ∀ x, binder x → entry x)
    (hfresh : ∀ x : Name, 0 < x.number → binder x)
    (ihHead : HeadEnsures entry binder rule limits fuel)
    (ihNormal : NormalEnsures entry binder rule limits fuel) :
    NormalEnsures entry binder rule limits (fuel + 1) := by
  intro depth scope t env ht henv
  rw [normalBy]
  apply (ihHead depth scope t env ht henv).bind
  intro r hr
  cases r with
  | closure x body home =>
      obtain ⟨hx, hbody, hhome⟩ := hr
      apply (openBinder_ensures hfresh hx hbody home).bind
      intro opened ho
      exact (ihNormal depth _ opened.2 _ ho.2 (hhome.unresolved (hentry _ ho.1))).bind
        fun _ hv => .pure ⟨ho.1, hv⟩
  | stuck v => exact .pure hr

/-- Runs keep the kinds of names, if those of fresh binders are among them. -/
theorem reductionBy_ensures (hentry : ∀ x, binder x → entry x)
    (hfresh : ∀ x : Name, 0 < x.number → binder x) (rule : Rule) (limits : Limits) (fuel : Nat) :
    HeadEnsures entry binder rule limits fuel ∧ NormalEnsures entry binder rule limits fuel := by
  induction fuel with
  | zero =>
      constructor
      · intro depth scope t env ht henv
        exact .throw (Halt.admits_outOfFuel binder)
      · intro depth scope t env ht henv
        exact .throw (Halt.admits_outOfFuel binder)
  | succ fuel ih =>
      obtain ⟨ihHead, ihNormal⟩ := ih
      exact ⟨ihHead.succ hentry hfresh ihNormal, .succ hentry hfresh ihHead ihNormal⟩

end Run

end Reducing

/-- The binders of a value have names of the kind that the term and its environment have. -/
theorem Term.binders_of_reduceBy {entry binder : Name → Prop} {t v : Term} {env : Env}
    (hentry : ∀ x, binder x → entry x) (hfresh : ∀ x : Name, 0 < x.number → binder x)
    (ht : t.Binders binder) (henv : env.All entry binder) {rule : Rule} {fuel : Nat}
    {limits : Limits} {tally : Tally} (h : t.reduceBy rule fuel limits env = .ok v tally) :
    v.Binders binder := by
  obtain ⟨mid, hr, -⟩ := Reducing.wholeBy_eq_ok h
  have hensures := Reducing.reductionBy_ensures hentry hfresh rule limits fuel
  exact (hensures.2 0 [] t env ht henv).of_ok hr

/-- A reduction without an empty binder name has no trouble with one. -/
theorem Term.reduceBy_ne_emptyName {t : Term} {env : Env} (ht : t.Binders (· ≠ ""))
    (henv : env.All (fun _ => True) (· ≠ "")) (rule : Rule) (fuel : Nat) (limits : Limits)
    (tally : Tally) :
    t.reduceBy rule fuel limits env ≠ .error (.error .emptyName) tally := by
  intro h
  have hrun := (Reducing.reductionBy_ensures (fun _ _ => trivial)
    (fun _ => Name.ne_empty_of_number_pos) rule limits fuel).2 0 [] t env ht henv
  have hwhole : Reducing.Ensures (fun _ => True) (Halt.Admits (· ≠ ""))
      (Reducing.wholeBy rule limits fuel t env) :=
    hrun.bind fun v _ => (Reducing.Ensures.of_modify _).bind fun _ _ => .pure trivial
  rw [reduceBy] at h
  exact hwhole.of_error h rfl rfl

end NormalOrder
