/- A program of bindings means the application of nested abstractions to what is bound.

A program reduces each binding to its value before it goes on; the application passes it on as it
stands. Both reduce the same term, in different orders. -/
import NormalOrder.Proofs.Nameless.Confluence
import NormalOrder.Proofs.Program.Execution
import NormalOrder.Proofs.Reduction.NormalOrder

namespace NormalOrder

open Nameless (Reaches Reduces)

namespace Program

/-- Bindings in front of a question. -/
def ofBindings (bindings : List (Name × Term)) (question : Term) : Program :=
  bindings.map (fun (x, t) => Line.bind x t) ++ [.eval question]

/-- The abstractions over the bound names, the first outermost, each applied to what it binds. -/
def nested : List (Name × Term) → Term → Term
  | [], question => question
  | (x, t) :: bindings, question => .app (.lam x (nested bindings question)) t

/-- Neither a binding nor a binder in what it binds has an operator's name. -/
def PlainBindings (bindings : List (Name × Term)) : Prop :=
  ∀ binding ∈ bindings, binding.1.Plain ∧ binding.2.Binders Name.Plain

end Program

namespace Term

variable {t v question : Term} {env : Env} {fuel : Nat} {limits : Limits} {tally : Tally}

/-- A value without a bound operator is a normal form of what the term stands for, and binds no
operator either. -/
theorem reduces_of_reduceWithin (ht : t.Binders Name.Plain) (henv : env.All Name.Plain Name.Plain)
    (h : t.reduceWithin fuel limits env = .ok v tally) :
    Reduces (env.denote t) (v.nameless []) ∧ (v.nameless []).Normal ∧ v.Binders Name.Plain := by
  rw [reduceWithin_of_plain ht henv] at h
  obtain ⟨hnormal, hreaches⟩ := reaches_of_reduceBy h
  exact ⟨hreaches.reduces, hnormal,
    binders_of_reduceBy (fun _ hx => hx) Reducing.plain_of_fresh ht henv h⟩

/-- To pass on a bound term is to reduce it first and to bind its value. -/
theorem denote_nested_reduces (x : Name) (bindings : List (Name × Term))
    (h : Reduces (env.denote t) (v.nameless [])) :
    Reduces (env.denote (Program.nested ((x, t) :: bindings) question))
      ((env.resolved x (Env.empty.suspend v)).denote (Program.nested bindings question)) := by
  obtain ⟨b, hlam, hb⟩ :=
    env.denote_resolved x (Env.empty.suspend v) (Program.nested bindings question)
  have happ : env.denote (Program.nested ((x, t) :: bindings) question) =
      .app (.lam b) (env.denote t) := congrArg (Nameless.app · (env.denote t)) hlam
  have hv : Env.empty.denote v = v.nameless [] := Env.denote_empty v
  rw [happ, hb, Env.home_suspend, Env.term_suspend, hv]
  exact (Reduces.contraction b (env.denote t)).trans (h.instantiate_argument b 0)

end Term

namespace Program

variable {bindings : List (Name × Term)} {question w w' : Term} {env : Env} {fuel fuel' : Nat}
  {limits limits' : Limits} {line : Nat} {events after : List Event} {tally : Tally}

/-- The nested application is reduced to the value that the run of the program gives. -/
theorem nested_reduces_of_executeFrom (hb : PlainBindings bindings)
    (hq : question.Binders Name.Plain) (henv : env.All Name.Plain Name.Plain)
    (h : executeFrom fuel limits line env (ofBindings bindings question) events = .ok [w] after) :
    Reduces (env.denote (nested bindings question)) (w.nameless []) ∧
      (w.nameless []).Normal := by
  induction bindings generalizing env line events with
  | nil =>
      obtain ⟨tally, hr⟩ := executeFrom_eval_ok h
      obtain ⟨hreduces, hnormal, -⟩ := Term.reduces_of_reduceWithin hq henv hr
      exact ⟨hreduces, hnormal⟩
  | cons binding bindings ih =>
      obtain ⟨x, t⟩ := binding
      obtain ⟨hx, ht⟩ := hb (x, t) List.mem_cons_self
      obtain ⟨v, tally, between, hr, hrest⟩ := executeFrom_bind_ok h
      obtain ⟨hreduces, -, hv⟩ := Term.reduces_of_reduceWithin ht henv hr
      have hbelow : PlainBindings bindings := fun b hmem => hb b (List.mem_cons_of_mem _ hmem)
      have hempty : Env.empty.All Name.Plain Name.Plain := trivial
      obtain ⟨hnested, hnormal⟩ := ih hbelow (henv.resolved hx hv hempty) hrest
      exact ⟨(Term.denote_nested_reduces x bindings hreduces).trans hnested, hnormal⟩

theorem binders_nested (hb : PlainBindings bindings) (hq : question.Binders Name.Plain) :
    (nested bindings question).Binders Name.Plain := by
  induction bindings with
  | nil => exact hq
  | cons binding bindings ih =>
      obtain ⟨hx, ht⟩ := hb binding List.mem_cons_self
      exact ⟨⟨hx, ih fun b hmem => hb b (List.mem_cons_of_mem _ hmem)⟩, ht⟩

/-- Where neither a binding nor a binder has an operator's name, the value of a program is that of
the nested application, up to the names of binders and whatever the limits of the two runs. -/
theorem alphaEq_nested_of_execute (hb : PlainBindings bindings)
    (hq : question.Binders Name.Plain)
    (h : execute fuel limits (ofBindings bindings question) events = .ok [w] after)
    (h' : (nested bindings question).reduceWithin fuel' limits' .empty = .ok w' tally) :
    w.AlphaEq w' := by
  have hempty : Env.empty.All Name.Plain Name.Plain := trivial
  obtain ⟨hreduces, hnormal⟩ := nested_reduces_of_executeFrom hb hq hempty h
  obtain ⟨hreduces', hnormal', -⟩ :=
    Term.reduces_of_reduceWithin (binders_nested hb hq) hempty h'
  exact hreduces.normal_unique hreduces' hnormal hnormal'

/-- The value `w` of the first `u` is not the `w` bound after it, and the second `u` is made from the
first. -/
def reboundName : List (Name × Term) :=
  [("u", .app (.lam "a" (.var "w")) (.var "y")), ("w", .num 2), ("u", .app (.var "u") (.var "w"))]

/-- What is passed on unreduced still mentions `y`, so only there a binder of that name gives way. -/
theorem alphaEq_nested_of_reboundName :
    (∃ after, execute 9 {} (ofBindings reboundName (.lam "y" (.app (.var "u") (.var "y")))) [] =
      .ok [.lam "y" (.app (.app (.var "w") (.num 2)) (.var "y"))] after) ∧
    (∃ tally, (nested reboundName (.lam "y" (.app (.var "u") (.var "y")))).reduceWithin 9 {}
      .empty = .ok (.lam "y1" (.app (.app (.var "w") (.num 2)) (.var "y1"))) tally) ∧
    (Term.lam "y" (.app (.app (.var "w") (.num 2)) (.var "y"))).AlphaEq
      (.lam "y1" (.app (.app (.var "w") (.num 2)) (.var "y1"))) := by
  have hb : PlainBindings reboundName := by
    intro binding hmem
    simp only [reboundName, List.mem_cons, List.not_mem_nil, or_false] at hmem
    rcases hmem with rfl | rfl | rfl
    · exact ⟨rfl, ⟨rfl, trivial⟩, trivial⟩
    · exact ⟨rfl, trivial⟩
    · exact ⟨rfl, trivial, trivial⟩
  have hq : (Term.lam "y" (.app (.var "u") (.var "y"))).Binders Name.Plain :=
    ⟨rfl, trivial, trivial⟩
  have hrun : ∃ after,
      execute 9 {} (ofBindings reboundName (.lam "y" (.app (.var "u") (.var "y")))) [] =
        .ok [.lam "y" (.app (.app (.var "w") (.num 2)) (.var "y"))] after := ⟨_, rfl⟩
  have hnested : ∃ tally,
      (nested reboundName (.lam "y" (.app (.var "u") (.var "y")))).reduceWithin 9 {} .empty =
        .ok (.lam "y1" (.app (.app (.var "w") (.num 2)) (.var "y1"))) tally := ⟨_, rfl⟩
  obtain ⟨after, h⟩ := hrun
  obtain ⟨tally, h'⟩ := hnested
  exact ⟨⟨after, h⟩, ⟨tally, h'⟩, alphaEq_nested_of_execute hb hq h h'⟩

end Program

end NormalOrder
