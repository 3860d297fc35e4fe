/- Programs that are read have no empty names, and no run of theirs comes to one.

A name that is read has a character, and so have fresh names and the binders of truth values. What a
line leaves to those below it is made of these. -/
import NormalOrder.Proofs.Program.Results
import NormalOrder.Proofs.Program.RoundTrip
import NormalOrder.Proofs.Reduction.Reached

namespace NormalOrder

/-- No reduction makes an empty name: a fresh one ends in a number. -/
theorem Name.closed_ne_empty : Name.Closed (· ≠ "") where
  fresh _ h := ne_empty_of_number_pos (number_pos_of_fresh h)
  one := by decide
  two := by decide

/-- A reduction without empty names never has one to rename. -/
theorem Term.reduceWithin_ne_emptyName {t : Term} {env : Env} (ht : t.Named (· ≠ ""))
    (henv : env.Named (· ≠ "")) (fuel : Nat) (limits : Limits) (tally : Tally) :
    t.reduceWithin fuel limits env ≠ .error (.error .emptyName) tally := by
  intro h
  obtain ⟨c, hreaches, hstalls⟩ := (reduceWithin_eq_nameError_iff (e := .empty)).mp ⟨tally, h⟩
  have hkinds := Name.closed_ne_empty.passed fuel
  have hc := hreaches.named hkinds (Nat.le_refl _) ⟨ht, henv⟩
  obtain ⟨z, hz, hnext⟩ := hstalls.exists_name Name.closed_ne_empty.one Name.closed_ne_empty.two hc
  exact hz (Name.next_eq_error_empty_iff.mp hnext)

namespace Program

variable {text : String} {program : Program} {fuel : Nat} {limits : Limits} {line : Nat} {env : Env}

theorem named_ne_empty_of_parse (h : parse text = .ok program) :
    ∀ l ∈ program, l.term.Named (· ≠ "") := by
  intro l hl x hx
  obtain ⟨c, -, rfl⟩ := (names_of_parse h l hl).2 x hx
  simp

/-- The line at which a run halts has a term and an environment without empty names, if the program
has none. -/
theorem runFrom_ne_emptyName (hprogram : ∀ l ∈ program, l.term.Named (· ≠ ""))
    (henv : env.Named (· ≠ "")) {e : LineHalt} (h : runFrom fuel limits line env program = .error e) :
    e.halt ≠ .error .emptyName := by
  obtain ⟨above, l, below, values, between, tally, rfl, habove, hr⟩ := exists_line_of_runFrom h
  obtain ⟨hprogram, hl⟩ := List.forall_mem_append.mp hprogram
  obtain ⟨-, hbetween⟩ := runFrom_named Name.closed_ne_empty hprogram henv habove
  intro he
  rw [he] at hr
  exact Term.reduceWithin_ne_emptyName (List.forall_mem_cons.mp hl).1 hbetween _ _ _ hr

/-- A program that is read never halts at an empty name, and no reduction of one of its lines meets
an abstraction whose binder has it. -/
theorem no_empty_binder_of_parse (h : parse text = .ok program) (fuel : Nat) (limits : Limits) :
    (∀ line events after,
      execute fuel limits program events ≠ .error ⟨line, .error .emptyName⟩ after) ∧
    ∀ above l below values env, program = above ++ l :: below →
      runFrom fuel limits 0 .empty above = .ok (values, env) →
      ∀ x body, (Reducing.Call.start fuel l.term env).Meets limits x body → x ≠ "" := by
  have hprogram := named_ne_empty_of_parse h
  constructor
  · intro line events after hrun
    have hending := @ending_executeFrom fuel limits 0 .empty program events
    rw [execute] at hrun
    rw [hrun] at hending
    cases hlines : runFrom fuel limits 0 .empty program with
    | ok r =>
        rw [hlines] at hending
        cases hending
    | error e =>
        rw [hlines] at hending
        cases hending
        exact runFrom_ne_emptyName hprogram Env.named_empty hlines rfl
  · rintro above l below values env rfl habove x body hmeets
    obtain ⟨hlines, hl⟩ := List.forall_mem_append.mp hprogram
    obtain ⟨-, henv⟩ := runFrom_named Name.closed_ne_empty hlines Env.named_empty habove
    exact (hmeets.named Name.closed_ne_empty ⟨(List.forall_mem_cons.mp hl).1, henv⟩).1

/-- In the last line the binder `y` is opened as `y1`. -/
theorem no_empty_binder_of_renamedBinder :
    parse "let f = λx.λy.(x y)\n(f y)" =
        .ok ([.bind "f" (.lam "x" (.lam "y" (.app (.var "x") (.var "y"))))] ++
          [.eval (.app (.var "f") (.var "y"))]) ∧
      ∃ env, runFrom 9 {} 0 .empty
          [.bind "f" (.lam "x" (.lam "y" (.app (.var "x") (.var "y"))))] = .ok ([], env) ∧
        (Reducing.Call.start 9 (.app (.var "f") (.var "y")) env).Meets {} "y1"
          (.app (.var "x") (.var "y1")) ∧
        ∀ x body, (Reducing.Call.start 9 (.app (.var "f") (.var "y")) env).Meets {} x body →
          x ≠ "" := by
  have hp : parse "let f = λx.λy.(x y)\n(f y)" =
      .ok ([.bind "f" (.lam "x" (.lam "y" (.app (.var "x") (.var "y"))))] ++
        [.eval (.app (.var "f") (.var "y"))]) := by
    decide +kernel
  obtain ⟨-, hmet⟩ := no_empty_binder_of_parse hp 9 {}
  refine ⟨hp, _, rfl, .opened .refl rfl rfl, ?_⟩
  exact hmet _ _ [] [] _ rfl rfl

end Program

end NormalOrder
