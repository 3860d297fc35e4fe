/- Reductions stay within a kind of names, if fresh names for names of the kind are of it, and so
are the binders of truth values. -/
import NormalOrder.Proofs.Reduction.Invariant
import NormalOrder.Proofs.Term.Rebind

namespace NormalOrder

/-- A kind of names that no reduction leaves. -/
structure Name.Closed (kind : Name → Prop) : Prop where
  fresh : ∀ {x y : Name} {taken : List Name}, kind x → x.fresh taken = .ok y → kind y
  one : kind "1"
  two : kind "2"

/-- Kinds of names, one for each recursion that may be left to a call. A name of the kind at one call
is of the kind at those that it makes, and so is a fresh name that a binder gets there, where all
names to be avoided are of the kind. -/
structure Name.Passed (kind : Nat → Name → Prop) (most : Nat) : Prop where
  weaken : ∀ {n x}, kind (n + 1) x → kind n x
  fresh : ∀ {n x y taken}, kind (n + 1) x → (∀ z ∈ taken, kind (n + 1) z) →
    x.fresh taken = .ok y → kind n y
  one : ∀ {n}, n ≤ most → kind n "1"
  two : ∀ {n}, n ≤ most → kind n "2"

theorem Name.Closed.passed {kind : Name → Prop} (h : Name.Closed kind) (most : Nat) :
    Name.Passed (fun _ => kind) most where
  weaken := id
  fresh hx _ := h.fresh hx
  one _ := h.one
  two _ := h.two

/-- All names in a term are of a kind, those of binders included. -/
def Term.Named (kind : Name → Prop) (t : Term) : Prop :=
  ∀ x ∈ t.names, kind x

/-- All names in the terms that wait in an environment are of a kind. -/
def Frames.Named (kind : Name → Prop) : Frames → Prop
  | empty => True
  | unresolved _ outer => outer.Named kind
  | resolved _ t home _ outer => t.Named kind ∧ home.Named kind ∧ outer.Named kind

def Env.Named (kind : Name → Prop) (env : Env) : Prop :=
  env.frames.Named kind

def Head.Named (kind : Name → Prop) : Head → Prop
  | .closure x body home => kind x ∧ body.Named kind ∧ home.Named kind
  | .stuck t => t.Named kind

variable {kind : Name → Prop}

namespace Term

variable {x y : Name} {t f a b : Term}

@[simp] theorem named_var : (var x).Named kind ↔ kind x := by
  simp [Named, names]

@[simp] theorem named_num (v : Float) : (num v).Named kind := by
  simp [Named, names]

@[simp] theorem named_lam : (lam x b).Named kind ↔ kind x ∧ b.Named kind := by
  simp [Named, names, or_imp, forall_and]

@[simp] theorem named_app : (app f a).Named kind ↔ f.Named kind ∧ a.Named kind := by
  simp [Named, names, or_imp, forall_and]

theorem Named.rename (h : t.Named kind) (hy : kind y) : (t.rename x y).Named kind := by
  induction t with
  | var z =>
      rw [Term.rename]
      split
      · exact named_var.mpr hy
      · exact h
  | lam z b ih =>
      obtain ⟨hz, hb⟩ := named_lam.mp h
      rw [Term.rename]
      split
      · exact h
      · exact named_lam.mpr ⟨hz, ih hb⟩
  | app f a ihf iha =>
      obtain ⟨hf, ha⟩ := named_app.mp h
      exact named_app.mpr ⟨ihf hf, iha ha⟩
  | num v => exact named_num v

theorem named_truth (one : kind "1") (two : kind "2") (b : Bool) : (truth b).Named kind := by
  have hvar : kind (if b then "1" else "2") := by
    cases b with
    | true => exact one
    | false => exact two
  exact named_lam.mpr ⟨one, named_lam.mpr ⟨two, named_var.mpr hvar⟩⟩

theorem Named.imp {kind' : Name → Prop} (h : t.Named kind) (himp : ∀ x, kind x → kind' x) :
    t.Named kind' :=
  fun x hx => himp x (h x hx)

end Term

/-- The only names that operators bring into a term are the binders of truth values. -/
theorem Operator.named_of_apply (one : kind "1") (two : kind "2") {op : Operator}
    {left right : Float} {t : Term} (ht : op.apply left right = .ok t) : t.Named kind := by
  cases op with
  | add | sub | mul =>
      cases ht
      exact Term.named_num _
  | div =>
      rw [apply] at ht
      split at ht <;> cases ht
      exact Term.named_num _
  | eq =>
      cases ht
      exact Term.named_truth one two _

namespace Env

variable {env : Env} {x : Name}

theorem named_empty : Env.empty.Named kind :=
  trivial

theorem Named.unresolved (h : env.Named kind) (x : Name) : (env.unresolved x).Named kind :=
  h

theorem Named.resolved {s : Suspension} (h : env.Named kind) (ht : s.term.Named kind)
    (hs : s.home.Named kind) (x : Name) : (env.resolved x s).Named kind :=
  ⟨ht, hs, h⟩

theorem Named.of_lookup {s : Suspension} (h : env.Named kind)
    (hs : env.lookup x = some (.resolved s)) : s.term.Named kind ∧ s.home.Named kind := by
  induction env using Env.induction with
  | empty => cases hs
  | unresolved env y ih =>
      rw [lookup_unresolved] at hs
      split at hs
      · cases hs
      · exact ih h hs
  | resolved env y r ih =>
      rw [lookup_resolved] at hs
      split at hs
      · cases hs
        exact ⟨h.1, h.2.1⟩
      · exact ih h.2.2 hs

theorem Named.imp {kind' : Name → Prop} (h : env.Named kind) (himp : ∀ x, kind x → kind' x) :
    env.Named kind' := by
  induction env using Env.induction with
  | empty => trivial
  | unresolved env y ih => exact ih h
  | resolved env y s ih ihHome => exact ⟨h.1.imp himp, ihHome h.2.1, ih h.2.2⟩

/-- The names that a name brings in are free in what it stands for. -/
theorem broughtBy_subset_freeNamesAt (env : Env) (x : Name) :
    env.broughtBy x ⊆ env.freeNamesAt x := by
  rw [broughtBy, freeNamesAt]
  cases env.lookup x with
  | none => exact List.nil_subset _
  | some binding =>
      cases binding with
      | unresolved => exact List.nil_subset _
      | resolved s => exact List.Subset.refl _

/-- What a name stands for has free names of the kind, if the name is of it. -/
theorem Named.freeNamesAt (h : env.Named kind) (hx : kind x) : ∀ z ∈ env.freeNamesAt x, kind z := by
  induction env using Env.induction generalizing x with
  | empty => exact List.forall_mem_singleton.mpr hx
  | unresolved env y ih =>
      rw [freeNamesAt_unresolved]
      split
      · exact List.forall_mem_singleton.mpr hx
      · exact ih h hx
  | resolved env y s ih ihHome =>
      rw [freeNamesAt_resolved]
      split
      · intro z hz
        obtain ⟨w, hw, hz⟩ := Suspension.mem_freeNames.mp hz
        exact ihHome h.2.1 (h.1 w (s.term.freeNames_subset_names hw)) z hz
      · exact ih h.2.2 hx

/-- The values put into a body bring names of the kind. -/
theorem Named.broughtUnder {body : Term} (h : env.Named kind) (hbody : body.Named kind) :
    ∀ z ∈ env.broughtUnder x body, kind z := by
  intro z hz
  obtain ⟨_, hnames, hz⟩ := Names.mem_unions.mp hz
  obtain ⟨w, hw, rfl⟩ := List.mem_map.mp hnames
  have hw := hbody w (body.freeNames_subset_names (Names.mem_without.mp hw).1)
  exact h.freeNamesAt hw z (broughtBy_subset_freeNamesAt env w hz)

/-- The names that another binder must not have are of the kind. -/
theorem Named.avoided {body : Term} (h : env.Named kind) (hbody : body.Named kind) :
    ∀ z ∈ (env.broughtUnder x body).union body.names, kind z := by
  intro z hz
  rcases Names.mem_union.mp hz with hbrought | hnames
  · exact h.broughtUnder hbody z hbrought
  · exact hbody z hnames

end Env

/-- The binder under which an abstraction is reduced, and the body under it, are of the kind that is
passed on. -/
theorem Env.Opens.passed {kinds : Nat → Name → Prop} {most n : Nat}
    (hkinds : Name.Passed kinds most) {x : Name} {body : Term} {home : Env} {opened : Name × Term}
    (ho : home.Opens x body opened) (hx : kinds (n + 1) x) (hbody : body.Named (kinds (n + 1)))
    (hhome : home.Named (kinds (n + 1))) : kinds n opened.1 ∧ opened.2.Named (kinds n) := by
  have hkept := hbody.imp fun _ => hkinds.weaken
  cases ho with
  | kept _ => exact ⟨hkinds.weaken hx, hkept⟩
  | renamed _ hr =>
      obtain ⟨new, hf, rfl⟩ := Term.rebind_eq_ok hr
      have hnew := hkinds.fresh hx (hhome.avoided hbody) hf
      exact ⟨hnew, hkept.rename hnew⟩

/-- The rules of the reducer stay within a kind of names. -/
theorem Reducing.invariant_named (h : Name.Closed kind) :
    Invariant (fun t env r => t.Named kind → env.Named kind → Head.Named kind r)
      (fun t env v => t.Named kind → env.Named kind → v.Named kind) where
  free _ ht _ := ht
  follow hx hr _ henv := hr (henv.of_lookup hx).1 (henv.of_lookup hx).2
  num _ _ ht _ := ht
  lam _ _ _ ht henv := ⟨(Term.named_lam.mp ht).1, (Term.named_lam.mp ht).2, henv⟩
  enter := by
    intro f a env x body home r hf hr ht henv
    obtain ⟨htf, hta⟩ := Term.named_app.mp ht
    obtain ⟨-, hbody, hhome⟩ := hf htf henv
    exact hr hbody (hhome.resolved hta henv x)
  stuck := by
    intro f a env g v hf hv ht henv
    obtain ⟨htf, hta⟩ := Term.named_app.mp ht
    exact Term.named_app.mpr ⟨hf htf henv, hv hta henv⟩
  operate := by
    intro f a env g v t r _ _ ht hr _ _
    obtain ⟨op, left, right, hop⟩ := Operator.apply_of_contract? ht
    exact hr (Operator.named_of_apply h.one h.two hop) Env.named_empty
  under := by
    intro t env x body home opened v hr ho hv ht henv
    obtain ⟨hx, hbody, hhome⟩ := hr ht henv
    obtain ⟨hy, hrenamed⟩ := ho.passed (h.passed 0) (n := 0) hx hbody hhome
    exact Term.named_lam.mpr ⟨hy, hv hrenamed (hhome.unresolved opened.1)⟩
  value hr ht henv := hr ht henv

/-- The names of a value are of the kind that those of the term and its environment are of. -/
theorem Term.named_of_reduceWithin (h : Name.Closed kind) {t v : Term} {env : Env}
    (ht : t.Named kind) (henv : env.Named kind) {fuel : Nat} {limits : Limits} {tally : Tally}
    (hv : t.reduceWithin fuel limits env = .ok v tally) : v.Named kind :=
  (Reducing.invariant_named h).of_reduceWithin hv ht henv

end NormalOrder
