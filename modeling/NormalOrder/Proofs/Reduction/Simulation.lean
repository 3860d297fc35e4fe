/- A reduction by scope is the nameless reduction with names: call by call it does the same, counts
the same and ends the same way, unless a binder that has to be renamed has no other name. -/
import NormalOrder.Proofs.Reduction.Binders
import NormalOrder.Proofs.Reduction.Invariant
import NormalOrder.Proofs.Reduction.Mirror

namespace NormalOrder

open Machine (Cells Counting)

/-- The halts at a binder that has no other name. -/
def Halt.IsNaming : Halt → Prop
  | .error .emptyName => True
  | .suffixOverflow => True
  | _ => False

theorem Halt.IsNaming.eq {halt : Halt} (h : halt.IsNaming) :
    halt = .error .emptyName ∨ halt = .suffixOverflow := by
  cases halt with
  | suffixOverflow => exact .inr rfl
  | outOfFuel => cases h
  | error cause =>
      cases cause with
      | emptyName => exact .inl rfl
      | divisionByZero => cases h
      | stepLimit limit => cases h
      | depthLimit limit => cases h

theorem Halt.isNaming_ofNameError (e : NameError) : (Halt.ofNameError e).IsNaming := by
  cases e <;> trivial

/-- What a name stands for mentions that name only, or names that it brings in. -/
theorem Env.mem_freeNamesAt {env : Env} {y z : Name} (h : y ∈ env.freeNamesAt z) :
    y = z ∨ y ∈ env.broughtBy z := by
  rw [Env.freeNamesAt] at h
  rw [Env.broughtBy]
  cases hz : env.lookup z with
  | none =>
      rw [hz] at h
      exact .inl (List.mem_singleton.mp h)
  | some binding =>
      rw [hz] at h
      cases binding with
      | unresolved => exact .inl (List.mem_singleton.mp h)
      | resolved s => exact .inr h

namespace Reducing

/-- A computation follows one without names: it counts the same and returns what is related, or it
halts the same way or at a binder that has no other name. -/
def Follows {α β : Type} (related : α → β → Prop) (x : Reducing α) (y : Counting β) : Prop :=
  ∀ tally, match x tally with
    | .ok a tally' => ∃ b, y tally.steps = .ok b tally'.steps ∧ related a b
    | .error halt tally' => halt.IsNaming ∨ y tally.steps = .error halt tally'.steps

section Follows

variable {α β γ δ : Type} {related : α → β → Prop}

theorem Follows.pure {a : α} {b : β} (h : related a b) :
    Follows related (Pure.pure a : Reducing α) (Pure.pure b : Counting β) :=
  fun _ => ⟨b, rfl, h⟩

theorem Follows.throw (halt : Halt) :
    Follows related (MonadExcept.throw halt : Reducing α) (MonadExcept.throw halt : Counting β) :=
  fun _ => .inr rfl

theorem Follows.of_naming {halt : Halt} (h : halt.IsNaming) {y : Counting β} :
    Follows related (MonadExcept.throw halt : Reducing α) y :=
  fun _ => .inl h

theorem Follows.bind {x : Reducing α} {y : Counting β} {f : α → Reducing γ} {g : β → Counting δ}
    {after : γ → δ → Prop} (h : Follows related x y)
    (hf : ∀ a b, related a b → Follows after (f a) (g b)) : Follows after (x >>= f) (y >>= g) := by
  intro tally
  have h := h tally
  change match EStateM.bind x f tally with
    | .ok c tally' => ∃ d, EStateM.bind y g tally.steps = .ok d tally'.steps ∧ after c d
    | .error halt tally' =>
      halt.IsNaming ∨ EStateM.bind y g tally.steps = .error halt tally'.steps
  rw [EStateM.bind, EStateM.bind]
  cases hx : x tally with
  | ok a tally' =>
      rw [hx] at h
      obtain ⟨b, hy, hab⟩ := h
      rw [hy]
      exact hf a b hab tally'
  | error halt tally' =>
      rw [hx] at h
      apply h.imp id
      intro hy
      rw [hy]

/-- What is done with names alone has no part in the nameless computation. -/
theorem Follows.bind_left {x : Reducing α} {f : α → Reducing γ} {y : Counting δ}
    {returned : α → Prop} {after : γ → δ → Prop}
    (h : Follows (fun a (_ : Unit) => returned a) x (Pure.pure ()))
    (hf : ∀ a, returned a → Follows after (f a) y) : Follows after (x >>= f) y :=
  h.bind (g := fun _ => y) fun a _ ha => hf a ha

end Follows

theorem countStep_follows (limits : Limits) :
    Follows (fun _ _ => True) (countStep limits) (Machine.countStep limits) := by
  intro tally
  cases h : limits.maxSteps with
  | none =>
      rw [countStep_of_none h, Machine.countStep_of_none h]
      exact ⟨(), rfl, trivial⟩
  | some limit =>
      rw [countStep_of_some h, Machine.countStep_of_some h]
      by_cases hl : limit < tally.steps + 1
      · rw [if_pos hl, if_pos hl]
        exact .inr rfl
      · rw [if_neg hl, if_neg hl]
        exact ⟨(), rfl, trivial⟩

theorem tell_follows (event : Event) :
    Follows (fun _ (_ : Unit) => True) (tell event) (Pure.pure ()) :=
  fun _ => ⟨(), rfl, trivial⟩

theorem tellApplied_follows (argument : Term) (param : Name) (body : Term) :
    Follows (fun _ (_ : Unit) => True) (tellApplied argument param body) (Pure.pure ()) :=
  fun _ => ⟨(), rfl, trivial⟩

theorem onNumbers?_nameless (scope : List Name) (env : Env) (f a : Term) :
    Operator.onNumbers? (f.nameless scope) (a.nameless scope) =
      (contractBy? (Rule.byScope scope env) f a).map (Except.map (Term.nameless [])) := by
  unfold contractBy?
  split
  · rename_i x left right
    by_cases hx : x ∈ scope
    · rw [if_neg (by simpa [Rule.byScope] using hx), Option.map_none]
      apply Option.eq_none_iff_forall_ne_some.mpr
      intro r hr
      obtain ⟨_, _, _, _, hf, _⟩ := Nameless.onNumbers?_eq_some hr
      exact (Nameless.ofName_eq_free_iff.mp (Nameless.app.inj hf).1).2 hx
    · rw [if_pos (by simpa [Rule.byScope] using hx), Option.map_map]
      have hfree : Nameless.ofName .free scope x = .free x :=
        Nameless.ofName_eq_free_iff.mpr ⟨rfl, hx⟩
      simp only [Term.nameless, Term.namelessWith, hfree]
      rfl
  · rename_i hne
    apply Option.eq_none_iff_forall_ne_some.mpr
    intro r hr
    obtain ⟨x, op, left, right, hf, ha, -, -⟩ := Nameless.onNumbers?_eq_some hr
    obtain ⟨g, b, rfl, hg, hb⟩ := Term.nameless_eq_app hf
    obtain ⟨rfl, -⟩ := Term.nameless_eq_free hg
    obtain rfl := Term.nameless_eq_num hb
    obtain rfl := Term.nameless_eq_num ha
    exact hne x left right rfl rfl

theorem operateBy_follows (limits : Limits) (scope : List Name) (env : Env) (f a : Term) :
    Follows (fun r s => match r, s with
        | some t, some n => t.freeNames = [] ∧ n = t.nameless []
        | none, none => True
        | _, _ => False)
      (operateBy limits (Rule.byScope scope env) f a)
      (Machine.operate limits (f.nameless scope) (a.nameless scope)) := by
  rw [operateBy, Machine.operate, onNumbers?_nameless scope env]
  cases h : contractBy? (Rule.byScope scope env) f a with
  | none => exact .pure trivial
  | some r =>
      obtain ⟨x, op, left, right, -, -, -, -, rfl⟩ := contractBy?_eq_some h
      cases hr : op.apply left right with
      | error e => exact .throw _
      | ok t =>
          exact (countStep_follows limits).bind fun _ _ _ => .pure ⟨Operator.freeNames_apply hr, rfl⟩

/-- Opening a binder changes names only: the body is the same without them, and its free names stay,
where none stands for what mentions the new binder. -/
theorem openBinder_follows (x : Name) (body : Term) (home : Env) :
    Follows (fun opened (_ : Unit) =>
        (∀ scope, opened.2.nameless (opened.1 :: scope) = body.nameless (x :: scope)) ∧
        ∀ z ∈ opened.2.freeNames, z ≠ opened.1 →
          z ∈ body.freeNames ∧ z ≠ x ∧ opened.1 ∉ home.freeNamesAt z)
      (openBinder x body home) (Pure.pure ()) := by
  -- What a free name stands for mentions a name only if it brings it, or is that name.
  have hbrought : ∀ {y z : Name}, y ∉ home.broughtUnder x body → z ∈ body.freeNames → z ≠ x →
      z ≠ y → y ∉ home.freeNamesAt z := by
    intro y z hy hz hzx hzy hmem
    refine hy (Names.mem_unions.mpr ⟨home.broughtBy z, ?_, ?_⟩)
    · exact List.mem_map.mpr ⟨z, Names.mem_without.mpr ⟨hz, hzx⟩, rfl⟩
    · exact (Env.mem_freeNamesAt hmem).resolve_left (Ne.symm hzy)
  rw [openBinder]
  split
  · rw [Term.rebind]
    cases hf : x.fresh ((home.broughtUnder x body).union body.names) with
    | error e => exact .of_naming (Halt.isNaming_ofNameError e)
    | ok new =>
        have hnew := Name.fresh_not_mem hf
        rw [Names.mem_union, not_or] at hnew
        apply (tell_follows _).bind_left
        intro _ _
        refine .pure ⟨fun scope => Term.nameless_rename_binder hnew.2 scope, ?_⟩
        intro z hz hzn
        obtain ⟨hzb, hzx⟩ := Term.mem_freeNames_rename hz hzn
        exact ⟨hzb, hzx, hbrought hnew.1 hzb hzx hzn⟩
  · rename_i hx
    exact .pure ⟨fun _ => rfl, fun z hz hzx => ⟨hz, hzx, hbrought hx hz hzx hzx⟩⟩

end Reducing

/-- A term in an environment, and the cells that mirror it below the binders of a scope: each free
name of the term stands for the same in both. -/
structure Mirrored (scope : List Name) (t : Term) (env : Env) (cells : Cells) : Prop where
  mirrors : env.frames.Mirrors cells
  fits : cells.Fits scope.length
  stands : ∀ z ∈ t.freeNames, env.frames.Stands scope cells z

namespace Mirrored

variable {scope : List Name} {t f a body : Term} {x : Name} {env home : Env} {cells outer : Cells}

theorem function (h : Mirrored scope (.app f a) env cells) : Mirrored scope f env cells :=
  ⟨h.mirrors, h.fits, fun z hz => h.stands z (Names.mem_union.mpr (.inl hz))⟩

theorem argument (h : Mirrored scope (.app f a) env cells) : Mirrored scope a env cells :=
  ⟨h.mirrors, h.fits, fun z hz => h.stands z (Names.mem_union.mpr (.inr hz))⟩

theorem closed (h : t.freeNames = []) : Mirrored scope t .empty .nil :=
  ⟨trivial, trivial, fun z hz => by rw [h] at hz; cases hz⟩

/-- The argument is suspended as it stands, and the parameter stands for it. -/
theorem apply (h : Mirrored scope (.lam x body) home outer) (ha : Mirrored scope a env cells) :
    Mirrored scope body (home.resolved x (env.suspend a))
      (.thunk (a.nameless env.frames.names) cells outer) := by
  refine ⟨⟨rfl, ha.mirrors, h.mirrors⟩, ⟨ha.fits, h.fits⟩, ?_⟩
  intro z hz
  simp only [Env.resolved, Frames.Stands]
  by_cases hx : x = z
  · rw [if_pos hx]
    exact ha.stands
  · rw [if_neg hx]
    exact h.stands z (Names.mem_without.mpr ⟨hz, Ne.symm hx⟩)

/-- The body of an abstraction is in its place below a new binder that nothing in it mentions. -/
theorem enter {y : Name} {renamed : Term} (h : Mirrored scope (.lam x body) home outer)
    (hy : ∀ z ∈ renamed.freeNames, z ≠ y →
      z ∈ body.freeNames ∧ z ≠ x ∧ y ∉ home.freeNamesAt z) :
    Mirrored (y :: scope) renamed (home.unresolved y)
      (.atom (.binder scope.length) outer) := by
  refine ⟨h.mirrors, ⟨Nat.lt_succ_self _, h.fits.mono (Nat.le_succ _)⟩, ?_⟩
  intro z hz
  simp only [Env.unresolved, Frames.Stands]
  by_cases hyz : y = z
  · subst hyz
    rw [if_pos rfl, Nameless.ofName_cons_self, Machine.Atom.term, List.length_cons]
    congr 1
    omega
  · rw [if_neg hyz]
    obtain ⟨hb, hx, hfree⟩ := hy z hz (Ne.symm hyz)
    exact Env.stands_under h.mirrors h.fits (h.stands z (Names.mem_without.mpr ⟨hb, hx⟩)) hfree

theorem whole (t : Term) (env : Env) : Mirrored [] t env env.frames.cells :=
  ⟨env.frames.mirrors_cells, env.frames.fits_cells 0, fun z _ => env.frames.stands_cells z⟩

end Mirrored

/-- The results of head reduction with and without names. -/
def Head.Mirrored (scope : List Name) : Head → Machine.Head → Prop
  | .closure x body home, .closure n cells =>
    n = body.nameless (x :: home.frames.names) ∧
      NormalOrder.Mirrored scope (.lam x body) home cells
  | .stuck t, .stuck n => n = t.nameless scope
  | _, _ => False

namespace Reducing

/-- Head reductions with this fuel follow those without names. -/
def HeadFollows (limits : Limits) (fuel : Nat) : Prop :=
  ∀ depth scope t env cells, Mirrored scope t env cells →
    Follows (Head.Mirrored scope) (headBy .byScope limits fuel depth scope t env)
      (Machine.head limits fuel depth scope.length (t.nameless env.frames.names) cells)

def NormalFollows (limits : Limits) (fuel : Nat) : Prop :=
  ∀ depth scope t env cells, Mirrored scope t env cells →
    Follows (fun v n => n = v.nameless scope)
      (normalBy .byScope limits fuel depth scope t env)
      (Machine.normal limits fuel depth scope.length (t.nameless env.frames.names) cells)

section Follows

variable {limits : Limits} {fuel : Nat}

theorem headBy_var_follows (ih : HeadFollows limits fuel) {depth : Nat}
    (hd : ¬ limits.maxDepth ≤ depth) {scope : List Name} {x : Name} {env : Env} {cells : Cells}
    (h : Mirrored scope (.var x) env cells) :
    Follows (Head.Mirrored scope) (headBy .byScope limits (fuel + 1) depth scope (.var x) env)
      (Machine.head limits (fuel + 1) depth scope.length ((Term.var x).nameless env.frames.names)
        cells) := by
  have hshows := Env.lookup_mirrored h.mirrors (h.stands x (List.mem_singleton_self x))
  rw [headBy, if_neg hd, Term.nameless, Term.namelessWith, Nameless.ofName]
  cases hx : env.lookup x with
  | none =>
      rw [hx] at hshows
      obtain ⟨hidx, hscope⟩ := hshows
      rw [hidx, Machine.head, if_neg hd]
      exact .pure (Nameless.ofName_eq_free_iff.mpr ⟨rfl, hscope⟩).symm
  | some binding =>
      rw [hx] at hshows
      cases binding with
      | unresolved =>
          obtain ⟨i, hidx, hnone, hvalue⟩ := hshows
          rw [hidx, Machine.head, if_neg hd, hnone]
          exact .pure hvalue
      | resolved s =>
          obtain ⟨i, home, hidx, hsome, hhome, hstands⟩ := hshows
          rw [hidx, Machine.head, if_neg hd, hsome]
          exact ih (depth + 1) scope s.term s.home home ⟨hhome, h.fits.home hsome, hstands⟩

theorem headBy_app_follows (ihHead : HeadFollows limits fuel) (ihNormal : NormalFollows limits fuel)
    {depth : Nat} (hd : ¬ limits.maxDepth ≤ depth) {scope : List Name} {f a : Term} {env : Env}
    {cells : Cells} (h : Mirrored scope (.app f a) env cells) :
    Follows (Head.Mirrored scope) (headBy .byScope limits (fuel + 1) depth scope (.app f a) env)
      (Machine.head limits (fuel + 1) depth scope.length ((Term.app f a).nameless env.frames.names)
        cells) := by
  rw [headBy, if_neg hd, Term.nameless, Term.namelessWith, Machine.head, if_neg hd]
  apply (ihHead (depth + 1) scope f env cells h.function).bind
  intro r s hr
  cases r with
  | closure x body home =>
      cases s with
      | stuck n => cases hr
      | closure n outer =>
          obtain ⟨rfl, hbody⟩ := hr
          apply (countStep_follows limits).bind
          intro _ _ _
          apply (tellApplied_follows a x body).bind_left
          intro _ _
          exact ihHead (depth + 1) scope body _ _ (hbody.apply h.argument)
  | stuck g =>
      cases s with
      | closure n outer => cases hr
      | stuck n =>
          obtain rfl : n = g.nameless scope := hr
          apply (ihNormal (depth + 1) scope a env cells h.argument).bind
          intro v n hv
          subst hv
          apply (operateBy_follows limits scope env g v).bind
          intro r s hr
          cases r with
          | none =>
              cases s with
              | none => exact .pure rfl
              | some n => cases hr
          | some t =>
              cases s with
              | none => cases hr
              | some n =>
                  obtain ⟨ht, rfl⟩ := hr
                  exact ihHead (depth + 1) scope t .empty .nil (.closed ht)

theorem HeadFollows.succ (ihHead : HeadFollows limits fuel) (ihNormal : NormalFollows limits fuel) :
    HeadFollows limits (fuel + 1) := by
  intro depth scope t env cells h
  by_cases hd : limits.maxDepth ≤ depth
  · rw [headBy_of_deep hd, Machine.head_of_deep hd]
    exact .throw _
  cases t with
  | var x => exact headBy_var_follows ihHead hd h
  | num v =>
      rw [headBy, if_neg hd, Term.nameless, Term.namelessWith, Machine.head, if_neg hd]
      exact .pure rfl
  | lam x body =>
      rw [headBy, if_neg hd, Term.nameless, Term.namelessWith, Machine.head, if_neg hd]
      exact .pure ⟨rfl, h⟩
  | app f a => exact headBy_app_follows ihHead ihNormal hd h

theorem NormalFollows.succ (ihHead : HeadFollows limits fuel)
    (ihNormal : NormalFollows limits fuel) : NormalFollows limits (fuel + 1) := by
  intro depth scope t env cells h
  rw [normalBy, Machine.normal]
  apply (ihHead depth scope t env cells h).bind
  intro r s hr
  cases r with
  | stuck v =>
      cases s with
      | closure n outer => cases hr
      | stuck n => exact .pure hr
  | closure x body home =>
      cases s with
      | stuck n => cases hr
      | closure n outer =>
          obtain ⟨rfl, hbody⟩ := hr
          apply (openBinder_follows x body home).bind_left
          intro opened ho
          obtain ⟨hsame, hfree⟩ := ho
          have hrun := ihNormal depth (opened.1 :: scope) opened.2 _ _ (hbody.enter hfree)
          rw [List.length_cons] at hrun
          rw [← hsame]
          exact hrun.bind fun v n hv => .pure (by rw [hv]; rfl)

end Follows

/-- Reductions by scope follow those without names. -/
theorem reductionBy_follows (limits : Limits) (fuel : Nat) :
    HeadFollows limits fuel ∧ NormalFollows limits fuel := by
  induction fuel with
  | zero => exact ⟨fun _ _ _ _ _ _ => .throw _, fun _ _ _ _ _ _ => .throw _⟩
  | succ fuel ih => exact ⟨ih.1.succ ih.2, NormalFollows.succ ih.1 ih.2⟩

end Reducing

end NormalOrder
