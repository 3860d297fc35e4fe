/- The calls that a run makes, and which of them halts it.

A call of the reducer makes others, one after the other, and goes on with what they return. A halt
passes through all calls above the one that raises it, and changes nothing on its way. So a run
halts if and only if a call is reached that raises the halt, and what is passed on from call to call
holds of all that are reached. -/
import Mathlib.Logic.Relation
import NormalOrder.Proofs.Reduction.Names

namespace NormalOrder

namespace Reducing

/-- What a call of the reducer is for. -/
inductive Aim
  | head
  | value

/-- A call of the reducer: the recursion left to it, how many head reductions deep it is, what it
reduces, and the tally that it finds. -/
structure Call where
  aim : Aim
  fuel : Nat
  depth : Nat
  term : Term
  env : Env
  tally : Tally

namespace Call

/-- The call that a run begins with. -/
def start (fuel : Nat) (t : Term) (env : Env) : Call :=
  ⟨.value, fuel, 0, t, env, {}⟩

def Halts (limits : Limits) (c : Call) (halt : Halt) (last : Tally) : Prop :=
  match c.aim with
  | .head => head limits c.fuel c.depth c.term c.env c.tally = .error halt last
  | .value => normal limits c.fuel c.depth c.term c.env c.tally = .error halt last

/-- One call makes another, after those before it have returned. -/
inductive Makes (limits : Limits) : Call → Call → Prop
  | toHead {fuel depth t env tally} :
      Makes limits ⟨.value, fuel + 1, depth, t, env, tally⟩ ⟨.head, fuel, depth, t, env, tally⟩
  | under {fuel depth t env tally x body home mid opened after}
      (hr : head limits fuel depth t env tally = .ok (.closure x body home) mid)
      (ho : openBinder x body home mid = .ok opened after) :
      Makes limits ⟨.value, fuel + 1, depth, t, env, tally⟩
        ⟨.value, fuel, depth, opened.2, home.unresolved opened.1, after⟩
  | follow {fuel depth x env tally s} (hd : depth < limits.maxDepth)
      (hx : env.lookup x = some (.resolved s)) :
      Makes limits ⟨.head, fuel + 1, depth, .var x, env, tally⟩
        ⟨.head, fuel, depth + 1, s.term, s.home, tally⟩
  | function {fuel depth f a env tally} (hd : depth < limits.maxDepth) :
      Makes limits ⟨.head, fuel + 1, depth, .app f a, env, tally⟩
        ⟨.head, fuel, depth + 1, f, env, tally⟩
  | enter {fuel depth f a env tally x body home mid counted after} (hd : depth < limits.maxDepth)
      (hf : head limits fuel (depth + 1) f env tally = .ok (.closure x body home) mid)
      (hs : countStep limits mid = .ok () counted)
      (ht : tellApplied a x body counted = .ok () after) :
      Makes limits ⟨.head, fuel + 1, depth, .app f a, env, tally⟩
        ⟨.head, fuel, depth + 1, body, home.resolved x (env.suspend a), after⟩
  | argument {fuel depth f a env tally g mid} (hd : depth < limits.maxDepth)
      (hf : head limits fuel (depth + 1) f env tally = .ok (.stuck g) mid) :
      Makes limits ⟨.head, fuel + 1, depth, .app f a, env, tally⟩
        ⟨.value, fuel, depth + 1, a, env, mid⟩
  | operate {fuel depth f a env tally g mid v late result after} (hd : depth < limits.maxDepth)
      (hf : head limits fuel (depth + 1) f env tally = .ok (.stuck g) mid)
      (ha : normal limits fuel (depth + 1) a env mid = .ok v late)
      (ho : operate limits g v env late = .ok (some result) after) :
      Makes limits ⟨.head, fuel + 1, depth, .app f a, env, tally⟩
        ⟨.head, fuel, depth + 1, result, .empty, after⟩

/-- A call halts of itself, after the calls that it makes have returned. -/
inductive Raises (limits : Limits) : Call → Halt → Tally → Prop
  | outOfFuel {aim depth t env tally} :
      Raises limits ⟨aim, 0, depth, t, env, tally⟩ .outOfFuel tally
  | deep {fuel depth t env tally} (hd : limits.maxDepth ≤ depth) :
      Raises limits ⟨.head, fuel + 1, depth, t, env, tally⟩
        (.error (.depthLimit limits.maxDepth)) tally
  | step {fuel depth f a env tally x body home mid halt last} (hd : depth < limits.maxDepth)
      (hf : head limits fuel (depth + 1) f env tally = .ok (.closure x body home) mid)
      (hs : countStep limits mid = .error halt last) :
      Raises limits ⟨.head, fuel + 1, depth, .app f a, env, tally⟩ halt last
  | operator {fuel depth f a env tally g mid v late halt last} (hd : depth < limits.maxDepth)
      (hf : head limits fuel (depth + 1) f env tally = .ok (.stuck g) mid)
      (ha : normal limits fuel (depth + 1) a env mid = .ok v late)
      (ho : operate limits g v env late = .error halt last) :
      Raises limits ⟨.head, fuel + 1, depth, .app f a, env, tally⟩ halt last
  | binder {fuel depth t env tally x body home mid halt last}
      (hr : head limits fuel depth t env tally = .ok (.closure x body home) mid)
      (ho : openBinder x body home mid = .error halt last) :
      Raises limits ⟨.value, fuel + 1, depth, t, env, tally⟩ halt last

def Reaches (limits : Limits) : Call → Call → Prop :=
  Relation.ReflTransGen (Makes limits)

end Call

section Halts

variable {α β : Type} {limits : Limits} {c c' : Call} {halt : Halt} {last : Tally}

theorem bind_eq_ok_iff {x : Reducing α} {f : α → Reducing β} {b : β} {tally : Tally} :
    (x >>= f) tally = .ok b last ↔ ∃ a mid, x tally = .ok a mid ∧ f a mid = .ok b last := by
  rw [bind_apply]
  cases x tally with
  | ok a mid => simp
  | error halt' last' => simp

theorem bind_eq_error_iff {x : Reducing α} {f : α → Reducing β} {tally : Tally} :
    (x >>= f) tally = .error halt last ↔
      x tally = .error halt last ∨ ∃ a mid, x tally = .ok a mid ∧ f a mid = .error halt last := by
  rw [bind_apply]
  cases x tally with
  | ok a mid => simp
  | error halt' last' => simp

namespace Call

theorem Halts.of_makes (h : Makes limits c c') (hc : c'.Halts limits halt last) :
    c.Halts limits halt last := by
  cases h with
  | toHead =>
      change normal .. = _
      rw [normal]
      exact bind_eq_error_iff.mpr (.inl hc)
  | under hr ho =>
      change normal .. = _
      rw [normal]
      refine bind_eq_error_iff.mpr (.inr ⟨_, _, hr, ?_⟩)
      refine bind_eq_error_iff.mpr (.inr ⟨_, _, ho, ?_⟩)
      exact bind_eq_error_iff.mpr (.inl hc)
  | follow hd hx =>
      change head .. = _
      rw [head, if_neg (Nat.not_le.mpr hd), hx]
      exact hc
  | function hd =>
      change head .. = _
      rw [head, if_neg (Nat.not_le.mpr hd)]
      exact bind_eq_error_iff.mpr (.inl hc)
  | enter hd hf hs ht =>
      change head .. = _
      rw [head, if_neg (Nat.not_le.mpr hd)]
      refine bind_eq_error_iff.mpr (.inr ⟨_, _, hf, ?_⟩)
      refine bind_eq_error_iff.mpr (.inr ⟨_, _, hs, ?_⟩)
      exact bind_eq_error_iff.mpr (.inr ⟨_, _, ht, hc⟩)
  | argument hd hf =>
      change head .. = _
      rw [head, if_neg (Nat.not_le.mpr hd)]
      refine bind_eq_error_iff.mpr (.inr ⟨_, _, hf, ?_⟩)
      exact bind_eq_error_iff.mpr (.inl hc)
  | operate hd hf ha ho =>
      change head .. = _
      rw [head, if_neg (Nat.not_le.mpr hd)]
      refine bind_eq_error_iff.mpr (.inr ⟨_, _, hf, ?_⟩)
      refine bind_eq_error_iff.mpr (.inr ⟨_, _, ha, ?_⟩)
      exact bind_eq_error_iff.mpr (.inr ⟨_, _, ho, hc⟩)

theorem Halts.of_raises (h : Raises limits c halt last) : c.Halts limits halt last := by
  cases h with
  | @outOfFuel aim => cases aim <;> rfl
  | deep hd =>
      change head .. = _
      rw [head_of_deep hd]
      rfl
  | step hd hf hs =>
      change head .. = _
      rw [head, if_neg (Nat.not_le.mpr hd)]
      refine bind_eq_error_iff.mpr (.inr ⟨_, _, hf, ?_⟩)
      exact bind_eq_error_iff.mpr (.inl hs)
  | operator hd hf ha ho =>
      change head .. = _
      rw [head, if_neg (Nat.not_le.mpr hd)]
      refine bind_eq_error_iff.mpr (.inr ⟨_, _, hf, ?_⟩)
      refine bind_eq_error_iff.mpr (.inr ⟨_, _, ha, ?_⟩)
      exact bind_eq_error_iff.mpr (.inl ho)
  | binder hr ho =>
      change normal .. = _
      rw [normal]
      refine bind_eq_error_iff.mpr (.inr ⟨_, _, hr, ?_⟩)
      exact bind_eq_error_iff.mpr (.inl ho)

theorem Halts.of_head {fuel depth : Nat} {t : Term} {env : Env} {tally : Tally}
    (h : head limits (fuel + 1) depth t env tally = .error halt last) :
    Raises limits ⟨.head, fuel + 1, depth, t, env, tally⟩ halt last ∨
      ∃ c', Makes limits ⟨.head, fuel + 1, depth, t, env, tally⟩ c' ∧ c'.Halts limits halt last := by
  rcases Nat.lt_or_ge depth limits.maxDepth with hd | hd
  · have hdeep := Nat.not_le.mpr hd
    cases t with
    | var x =>
        rw [head, if_neg hdeep] at h
        cases hx : env.lookup x with
        | none =>
            rw [hx] at h
            cases h
        | some binding =>
            rw [hx] at h
            cases binding with
            | unresolved => cases h
            | resolved s => exact .inr ⟨_, .follow hd hx, h⟩
    | num v =>
        rw [head, if_neg hdeep] at h
        cases h
    | lam x body =>
        rw [head, if_neg hdeep] at h
        cases h
    | app f a =>
        rw [head, if_neg hdeep] at h
        rcases bind_eq_error_iff.mp h with hf | ⟨r, mid, hf, h⟩
        · exact .inr ⟨_, .function hd, hf⟩
        cases r with
        | closure x body home =>
            rcases bind_eq_error_iff.mp h with hs | ⟨_, counted, hs, h⟩
            · exact .inl (.step hd hf hs)
            rcases bind_eq_error_iff.mp h with ht | ⟨_, after, ht, h⟩
            · cases ht
            · exact .inr ⟨_, .enter hd hf hs ht, h⟩
        | stuck g =>
            rcases bind_eq_error_iff.mp h with ha | ⟨v, late, ha, h⟩
            · exact .inr ⟨_, .argument hd hf, ha⟩
            rcases bind_eq_error_iff.mp h with ho | ⟨result, after, ho, h⟩
            · exact .inl (.operator hd hf ha ho)
            cases result with
            | none => cases h
            | some t => exact .inr ⟨_, .operate hd hf ha ho, h⟩
  · rw [head_of_deep hd] at h
    cases h
    exact .inl (.deep hd)

theorem Halts.of_value {fuel depth : Nat} {t : Term} {env : Env} {tally : Tally}
    (h : normal limits (fuel + 1) depth t env tally = .error halt last) :
    Raises limits ⟨.value, fuel + 1, depth, t, env, tally⟩ halt last ∨
      ∃ c', Makes limits ⟨.value, fuel + 1, depth, t, env, tally⟩ c' ∧ c'.Halts limits halt last := by
  rw [normal] at h
  rcases bind_eq_error_iff.mp h with hr | ⟨r, mid, hr, h⟩
  · exact .inr ⟨_, .toHead, hr⟩
  cases r with
  | closure x body home =>
      rcases bind_eq_error_iff.mp h with ho | ⟨opened, after, ho, h⟩
      · exact .inl (.binder hr ho)
      rcases bind_eq_error_iff.mp h with hv | ⟨v, late, hv, h⟩
      · exact .inr ⟨_, .under hr ho, hv⟩
      · cases h
  | stuck v => cases h

/-- A call that halts raises the halt, or makes a call that halts. -/
theorem Halts.raises_or_makes (h : c.Halts limits halt last) :
    Raises limits c halt last ∨ ∃ c', Makes limits c c' ∧ c'.Halts limits halt last := by
  obtain ⟨aim, fuel, depth, t, env, tally⟩ := c
  cases fuel with
  | zero => cases aim <;> cases h <;> exact .inl .outOfFuel
  | succ fuel =>
      cases aim with
      | head => exact of_head h
      | value => exact of_value h

theorem Makes.fuel_lt (h : Makes limits c c') : c'.fuel < c.fuel := by
  cases h <;> exact Nat.lt_succ_self _

/-- A call halts if and only if it reaches one that raises the halt. -/
theorem halts_iff :
    c.Halts limits halt last ↔ ∃ c', c.Reaches limits c' ∧ Raises limits c' halt last := by
  constructor
  · -- By induction on the recursion left: a call leaves less of it to those that it makes.
    intro h
    induction hn : c.fuel using Nat.strongRecOn generalizing c with
    | _ n ih =>
        rcases h.raises_or_makes with hraises | ⟨c', hmakes, h⟩
        · exact ⟨c, .refl, hraises⟩
        · obtain ⟨last, hreaches, hraises⟩ := ih _ (hn ▸ hmakes.fuel_lt) h rfl
          exact ⟨last, .head hmakes hreaches, hraises⟩
  · rintro ⟨c', hreaches, hraises⟩
    induction hreaches using Relation.ReflTransGen.head_induction_on with
    | refl => exact .of_raises hraises
    | head hmakes _ ih => exact .of_makes hmakes ih

end Call

theorem whole_eq_error_iff {fuel : Nat} {t : Term} {env : Env} {tally : Tally} :
    whole limits fuel t env tally = .error halt last ↔
      normal limits fuel 0 t env tally = .error halt last := by
  rw [whole, bind_eq_error_iff]
  constructor
  · rintro (h | ⟨v, mid, -, h⟩)
    · exact h
    · cases h
  · exact .inl

end Halts

section Naming

variable {limits : Limits} {c : Call} {x : Name} {body : Term} {home : Env} {halt : Halt}
  {mid last : Tally} {e : NameError}

theorem openBinder_eq_error_iff :
    openBinder x body home mid = .error halt last ↔
      x ∈ home.broughtUnder x body ∧ last = mid ∧
        ∃ e, x.fresh ((home.broughtUnder x body).union body.names) = .error e ∧
          halt = .ofNameError e := by
  rw [openBinder]
  by_cases hx : x ∈ home.broughtUnder x body
  · rw [if_pos hx, Term.rebind_eq]
    cases x.fresh ((home.broughtUnder x body).union body.names) with
    | ok new =>
        constructor
        · intro h
          cases h
        · rintro ⟨-, -, e, ⟨⟩, -⟩
    | error e =>
        constructor
        · intro h
          cases h
          exact ⟨hx, rfl, e, rfl, rfl⟩
        · rintro ⟨-, rfl, e', ⟨⟩, rfl⟩
          rfl
  · rw [if_neg hx]
    constructor
    · intro h
      cases h
    · intro h
      exact absurd h.1 hx

theorem countStep_ne_ofNameError (limits : Limits) (e : NameError) :
    Ensures (fun _ => True) (· ≠ .ofNameError e) (countStep limits) :=
  countStep_ensures limits fun _ h => by cases e <;> cases h

theorem operate_ne_ofNameError (limits : Limits) (g v : Term) (env : Env) (e : NameError) :
    Ensures (fun _ => True) (· ≠ .ofNameError e) (operate limits g v env) := by
  rw [operate]
  cases hc : Operator.contract? g v env with
  | error cause =>
      obtain rfl := Operator.contract?_eq_error hc
      exact .throw fun h => by cases e <;> cases h
  | ok result =>
      cases result with
      | none => exact .pure trivial
      | some t => exact (countStep_ne_ofNameError limits e).bind fun _ _ => .pure trivial

namespace Call

/-- A call comes to an abstraction whose binder must have another name, and the search for one ends
in an error. -/
inductive Stalls (limits : Limits) (e : NameError) : Call → Prop
  | intro {fuel depth t env tally x body home mid}
      (hr : head limits fuel depth t env tally = .ok (.closure x body home) mid)
      (hx : x ∈ home.broughtUnder x body)
      (hf : x.fresh ((home.broughtUnder x body).union body.names) = .error e) :
      Stalls limits e ⟨.value, fuel + 1, depth, t, env, tally⟩

/-- What is raised about a name is raised at a binder. -/
theorem exists_raises_iff :
    (∃ last, Raises limits c (.ofNameError e) last) ↔ c.Stalls limits e := by
  constructor
  · rintro ⟨last, h⟩
    generalize hh : Halt.ofNameError e = halt at h
    cases h with
    | outOfFuel => cases e <;> cases hh
    | deep hd => cases e <;> cases hh
    | @step fuel depth f a env tally x body home mid halt last hd hf hs =>
        exact absurd hh.symm ((countStep_ne_ofNameError limits e).of_error hs)
    | @operator fuel depth f a env tally g mid v late halt last hd hf ha ho =>
        exact absurd hh.symm ((operate_ne_ofNameError limits g v env e).of_error ho)
    | binder hr ho =>
        obtain ⟨hx, -, e', hf, he⟩ := openBinder_eq_error_iff.mp ho
        obtain rfl : e = e' := by
          subst hh
          cases e <;> cases e' <;> first | rfl | cases he
        exact .intro hr hx hf
  · rintro ⟨hr, hx, hf⟩
    exact ⟨_, .binder hr (openBinder_eq_error_iff.mpr ⟨hx, rfl, e, hf, rfl⟩)⟩

end Call

end Naming

section Names

variable {limits : Limits} {kind : Name → Prop}

/-- A head reduction renames nothing, so an abstraction that it returns has the names of the term and
its environment, or those of a truth value. -/
theorem invariant_closure_named (one : kind "1") (two : kind "2") :
    Invariant
      (fun t env r => t.Named kind → env.Named kind →
        ∀ x body home, r = .closure x body home → (Head.closure x body home).Named kind)
      (fun _ _ _ => True) where
  free _ _ _ _ _ _ h := nomatch h
  follow hx hr _ henv := hr (henv.of_lookup hx).1 (henv.of_lookup hx).2
  num _ _ _ _ _ _ _ h := nomatch h
  lam := by
    rintro x body env ht henv _ _ _ ⟨⟩
    obtain ⟨hx, hbody⟩ := Term.named_lam.mp ht
    exact ⟨hx, hbody, henv⟩
  enter := by
    intro f a env x body home r hf hr ht henv
    obtain ⟨htf, hta⟩ := Term.named_app.mp ht
    obtain ⟨-, hbody, hhome⟩ := hf htf henv x body home rfl
    exact hr hbody (hhome.resolved hta henv x)
  stuck _ _ _ _ _ _ _ h := nomatch h
  operate := by
    intro f a env g v t r _ _ ht hr _ _
    obtain ⟨op, left, right, hop⟩ := Operator.apply_of_contract? ht
    exact hr (Operator.named_of_apply one two hop) Env.named_empty
  under _ _ _ := trivial
  value _ := trivial

theorem closure_named_of_head (one : kind "1") (two : kind "2") {fuel depth : Nat} {t body : Term}
    {env home : Env} {x : Name} {tally mid : Tally} (ht : t.Named kind) (henv : env.Named kind)
    (h : head limits fuel depth t env tally = .ok (.closure x body home) mid) :
    kind x ∧ body.Named kind ∧ home.Named kind := by
  have hheads := ((invariant_closure_named one two).reduction limits fuel).1
  exact (hheads depth t env).of_ok h ht henv x body home rfl

namespace Call

variable {most : Nat} {kinds : Nat → Name → Prop} {c c' : Call}

/-- The names that a call has to do with are of a kind. -/
def Named (kind : Name → Prop) (c : Call) : Prop :=
  c.term.Named kind ∧ c.env.Named kind

theorem Named.imp {kind' : Name → Prop} (h : c.Named kind) (himp : ∀ x, kind x → kind' x) :
    c.Named kind' :=
  ⟨h.1.imp himp, h.2.imp himp⟩

/-- Where a search for another binder fails, it has come to a name of the call that has no
successor. -/
theorem Stalls.exists_name {e : NameError} (h : c.Stalls limits e) (one : kind "1")
    (two : kind "2") (hc : c.Named kind) : ∃ z, kind z ∧ z.next = .error e := by
  obtain ⟨hr, hx, hf⟩ := h
  obtain ⟨hkind, hbody, hhome⟩ := closure_named_of_head one two hc.1 hc.2 hr
  obtain ⟨z, hcomes, hz⟩ := Name.fresh_eq_error_iff.mp hf
  refine ⟨z, ?_, hz⟩
  rcases hcomes.eq_or_mem with rfl | hmem
  · exact hkind
  · exact hhome.avoided hbody z hmem

theorem opens_of_openBinder {x : Name} {body : Term} {home : Env} {opened : Name × Term}
    {mid after : Tally} (h : openBinder x body home mid = .ok opened after) :
    home.Opens x body opened :=
  (openBinder_opens x body home).of_ok h

theorem contracts_of_operate {g v t : Term} {env : Env} {late after : Tally}
    (h : operate limits g v env late = .ok (some t) after) :
    Operator.contract? g v env = .ok (some t) :=
  (operate_contracts limits g v env).of_ok h t rfl

/-- A call passes the names of its kind on. -/
theorem Makes.named (hkinds : Name.Passed kinds most) (h : Makes limits c c')
    (hfuel : c.fuel ≤ most) (hc : c.Named (kinds c.fuel)) : c'.Named (kinds c'.fuel) := by
  have one := hkinds.one hfuel
  have two := hkinds.two hfuel
  cases h with
  | toHead => exact hc.imp fun _ => hkinds.weaken
  | under hr ho =>
      obtain ⟨hx, hbody, hhome⟩ := closure_named_of_head one two hc.1 hc.2 hr
      obtain ⟨-, hopened⟩ := (opens_of_openBinder ho).passed hkinds hx hbody hhome
      exact ⟨hopened, (hhome.imp fun _ => hkinds.weaken).unresolved _⟩
  | follow hd hx =>
      obtain ⟨ht, hhome⟩ := hc.2.of_lookup hx
      exact ⟨ht.imp fun _ => hkinds.weaken, hhome.imp fun _ => hkinds.weaken⟩
  | function hd =>
      obtain ⟨hf, -⟩ := Term.named_app.mp hc.1
      exact Named.imp ⟨hf, hc.2⟩ fun _ => hkinds.weaken
  | enter hd hf hs ht =>
      obtain ⟨htf, hta⟩ := Term.named_app.mp hc.1
      obtain ⟨-, hbody, hhome⟩ := closure_named_of_head one two htf hc.2 hf
      exact Named.imp ⟨hbody, hhome.resolved hta hc.2 _⟩ fun _ => hkinds.weaken
  | argument hd hf =>
      obtain ⟨-, ha⟩ := Term.named_app.mp hc.1
      exact Named.imp ⟨ha, hc.2⟩ fun _ => hkinds.weaken
  | operate hd hf ha ho =>
      obtain ⟨op, left, right, hop⟩ := Operator.apply_of_contract? (contracts_of_operate ho)
      have hresult := Operator.named_of_apply one two hop
      exact Named.imp ⟨hresult, Env.named_empty⟩ fun _ => hkinds.weaken

theorem Reaches.fuel_le (h : c.Reaches limits c') : c'.fuel ≤ c.fuel := by
  induction h with
  | refl => exact Nat.le_refl _
  | tail _ hmakes ih => exact Nat.le_trans hmakes.fuel_lt.le ih

/-- By induction on the calls between them: names of the kind are passed on to each call that is
reached. -/
theorem Reaches.named (hkinds : Name.Passed kinds most) (h : c.Reaches limits c')
    (hfuel : c.fuel ≤ most) (hc : c.Named (kinds c.fuel)) : c'.Named (kinds c'.fuel) := by
  induction h with
  | refl => exact hc
  | tail hreaches hmakes ih =>
      exact hmakes.named hkinds (Nat.le_trans (Reaches.fuel_le hreaches) hfuel) ih

/-- No call goes deeper than the limit of depth. -/
theorem Reaches.depth_le (h : c.Reaches limits c') (hc : c.depth ≤ limits.maxDepth) :
    c'.depth ≤ limits.maxDepth := by
  induction h with
  | refl => exact hc
  | tail _ hmakes ih =>
      cases hmakes with
      | toHead => exact ih
      | under hr ho => exact ih
      | follow hd hx => exact hd
      | function hd => exact hd
      | enter hd hf hs ht => exact hd
      | argument hd hf => exact hd
      | operate hd hf ha ho => exact hd

/-- A run meets an abstraction: a call is reached that is for it, that comes to it, or that opens it,
under another binder where it must. -/
inductive Meets (limits : Limits) (c : Call) : Name → Term → Prop
  | reduced {aim fuel depth x body env tally}
      (h : c.Reaches limits ⟨aim, fuel, depth, .lam x body, env, tally⟩) : Meets limits c x body
  | returned {fuel depth t env tally x body home mid}
      (h : c.Reaches limits ⟨.head, fuel, depth, t, env, tally⟩)
      (hr : head limits fuel depth t env tally = .ok (.closure x body home) mid) :
      Meets limits c x body
  | opened {fuel depth t env tally x body home mid y renamed after}
      (h : c.Reaches limits ⟨.value, fuel + 1, depth, t, env, tally⟩)
      (hr : head limits fuel depth t env tally = .ok (.closure x body home) mid)
      (ho : openBinder x body home mid = .ok (y, renamed) after) : Meets limits c y renamed

/-- The abstractions that a run meets are of the kind of names that the run begins with. -/
theorem Meets.named {x : Name} {body : Term} (hkind : Name.Closed kind)
    (h : c.Meets limits x body) (hc : c.Named kind) : kind x ∧ body.Named kind := by
  have hkinds := hkind.passed c.fuel
  cases h with
  | reduced h => exact Term.named_lam.mp (h.named hkinds (Nat.le_refl _) hc).1
  | returned h hr =>
      obtain ⟨ht, henv⟩ := h.named hkinds (Nat.le_refl _) hc
      obtain ⟨hx, hbody, -⟩ := closure_named_of_head hkind.one hkind.two ht henv hr
      exact ⟨hx, hbody⟩
  | opened h hr ho =>
      obtain ⟨ht, henv⟩ := h.named hkinds (Nat.le_refl _) hc
      obtain ⟨hx, hbody, hhome⟩ := closure_named_of_head hkind.one hkind.two ht henv hr
      exact (opens_of_openBinder ho).passed (hkind.passed 0) (n := 0) hx hbody hhome

end Call

end Names

end Reducing

/-- A reduction comes to a halt if and only if a call is reached that raises it. -/
theorem Term.reduceWithin_eq_error_iff {limits : Limits} {fuel : Nat} {t : Term} {env : Env}
    {halt : Halt} {last : Tally} :
    t.reduceWithin fuel limits env = .error halt last ↔
      ∃ c, (Reducing.Call.start fuel t env).Reaches limits c ∧
        Reducing.Call.Raises limits c halt last := by
  rw [reduceWithin, Reducing.whole_eq_error_iff]
  exact Reducing.Call.halts_iff (c := .start fuel t env)

/-- A reduction halts at a name if and only if a call is reached that finds no other binder. -/
theorem Term.reduceWithin_eq_nameError_iff {limits : Limits} {fuel : Nat} {t : Term} {env : Env}
    {e : NameError} :
    (∃ last, t.reduceWithin fuel limits env = .error (.ofNameError e) last) ↔
      ∃ c, (Reducing.Call.start fuel t env).Reaches limits c ∧ c.Stalls limits e := by
  simp only [reduceWithin_eq_error_iff, ← Reducing.Call.exists_raises_iff]
  exact ⟨fun ⟨last, c, h⟩ => ⟨c, h.1, last, h.2⟩, fun ⟨c, h, last, hr⟩ => ⟨last, c, h, hr⟩⟩

end NormalOrder
