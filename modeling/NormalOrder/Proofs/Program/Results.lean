/- What a run comes to, its journal apart: the values of its lines, and the environment that they
leave.

Each line adds values and leaves an environment, and the lines below it run there. -/
import NormalOrder.Proofs.Program.Execution
import NormalOrder.Proofs.Reduction.Names

namespace NormalOrder

/-- The halt of the same line one further down. -/
def LineHalt.next (e : LineHalt) : LineHalt :=
  ⟨e.line + 1, e.halt⟩

/-- The values that a line adds, and the environment that it leaves. -/
def Line.run (fuel : Nat) (limits : Limits) (line : Nat) (env : Env) :
    Line → Except LineHalt (List Term × Env)
  | .bind x t =>
    match t.reduceWithin fuel limits env with
    | .ok value _ => .ok ([], env.resolved x (Env.empty.suspend value))
    | .error halt _ => .error ⟨line, halt⟩
  | .eval t =>
    match t.reduceWithin fuel limits env with
    | .ok value _ => .ok ([value], env)
    | .error halt _ => .error ⟨line, halt⟩

namespace Program

/-- What a run ends in, the journal apart. -/
def ending : EStateM.Result LineHalt (List Event) (List Term) → Except LineHalt (List Term)
  | .ok values _ => .ok values
  | .error e _ => .error e

/-- The values of a program, or the line that has none. -/
def results (fuel : Nat) (limits : Limits) (program : Program) : Except LineHalt (List Term) :=
  ending (execute fuel limits program [])

/-- The values of lines, and the environment that they leave. -/
def runFrom (fuel : Nat) (limits : Limits) :
    (line : Nat) → Env → Program → Except LineHalt (List Term × Env)
  | _, env, [] => .ok ([], env)
  | line, env, l :: rest =>
    match l.run fuel limits line env with
    | .ok (values, between) =>
      (runFrom fuel limits (line + 1) between rest).map fun (more, last) => (values ++ more, last)
    | .error e => .error e

variable {fuel : Nat} {limits : Limits} {line : Nat} {env : Env} {program : Program}

section Run

theorem ending_executeFrom (line : Nat) (env : Env) (program : Program) (events : List Event) :
    ending (executeFrom fuel limits line env program events) =
      (runFrom fuel limits line env program).map Prod.fst := by
  induction program generalizing line env events with
  | nil => rfl
  | cons l rest ih =>
      cases l with
      | bind x t =>
          rw [executeFrom_bind, runFrom, Line.run]
          cases t.reduceWithin fuel limits env with
          | error halt tally => rfl
          | ok value tally =>
              refine Eq.trans (ih ..) ?_
              dsimp only
              cases runFrom fuel limits (line + 1) _ rest <;> rfl
      | eval t =>
          rw [executeFrom_eval, runFrom, Line.run]
          cases t.reduceWithin fuel limits env with
          | error halt tally => rfl
          | ok value tally =>
              have hrest := ih (line + 1) env (tally.events ++ events)
              dsimp only
              generalize executeFrom fuel limits (line + 1) env rest _ = r,
                runFrom fuel limits (line + 1) env rest = r' at hrest
              cases r <;> cases r' <;> cases hrest <;> rfl

theorem results_eq (program : Program) :
    results fuel limits program = (runFrom fuel limits 0 .empty program).map Prod.fst :=
  ending_executeFrom 0 .empty program []

theorem exists_execute_of_results {values : List Term}
    (h : results fuel limits program = .ok values) :
    ∃ after, execute fuel limits program [] = .ok values after := by
  rw [results] at h
  cases hrun : execute fuel limits program [] with
  | error e after =>
      rw [hrun] at h
      cases h
  | ok values' after =>
      rw [hrun] at h
      cases h
      exact ⟨after, rfl⟩

theorem exists_runFrom_of_execute {events after : List Event} {values : List Term}
    (h : execute fuel limits program events = .ok values after) :
    ∃ last, runFrom fuel limits 0 .empty program = .ok (values, last) := by
  have hending := @ending_executeFrom fuel limits 0 .empty program events
  rw [execute] at h
  rw [h] at hending
  cases hrun : runFrom fuel limits 0 .empty program with
  | error e =>
      rw [hrun] at hending
      cases hending
  | ok r =>
      rw [hrun] at hending
      cases hending
      exact ⟨r.2, rfl⟩

/-- Lines below others run where those lead. -/
theorem runFrom_append (line : Nat) (env : Env) (p q : Program) :
    runFrom fuel limits line env (p ++ q) =
      match runFrom fuel limits line env p with
      | .ok (values, between) =>
        (runFrom fuel limits (line + p.length) between q).map fun (more, last) =>
          (values ++ more, last)
      | .error e => .error e := by
  induction p generalizing line env with
  | nil =>
      dsimp only [runFrom, List.nil_append, List.length_nil, Nat.add_zero]
      cases runFrom fuel limits line env q <;> rfl
  | cons l rest ih =>
      have hline : line + (l :: rest).length = line + 1 + rest.length := by
        rw [List.length_cons]
        omega
      rw [List.cons_append, hline, runFrom, runFrom]
      cases l.run fuel limits line env with
      | error e => rfl
      | ok r =>
          dsimp only
          rw [ih]
          cases runFrom fuel limits (line + 1) r.2 rest with
          | error e => rfl
          | ok r' =>
              dsimp only [Except.map]
              cases runFrom fuel limits (line + 1 + rest.length) r'.2 q with
              | error e => rfl
              | ok last => simp

theorem run_succ (line : Nat) (env : Env) (l : Line) :
    l.run fuel limits (line + 1) env = (l.run fuel limits line env).mapError LineHalt.next := by
  cases l with
  | bind x t =>
      rw [Line.run, Line.run]
      cases t.reduceWithin fuel limits env <;> rfl
  | eval t =>
      rw [Line.run, Line.run]
      cases t.reduceWithin fuel limits env <;> rfl

/-- The number of a line counts in a halt only. -/
theorem runFrom_succ (line : Nat) (env : Env) (program : Program) :
    runFrom fuel limits (line + 1) env program =
      (runFrom fuel limits line env program).mapError LineHalt.next := by
  induction program generalizing line env with
  | nil => rfl
  | cons l rest ih =>
      rw [runFrom, runFrom, run_succ]
      cases l.run fuel limits line env with
      | error e => rfl
      | ok r =>
          dsimp only [Except.mapError]
          rw [ih]
          cases runFrom fuel limits (line + 1) r.2 rest <;> rfl

theorem run_eval_eq_ok {t : Term} {own : List Term} {last : Env}
    (h : Line.run fuel limits line env (.eval t) = .ok (own, last)) :
    ∃ value, own = [value] ∧ last = env := by
  rw [Line.run] at h
  split at h <;> cases h
  exact ⟨_, rfl, rfl⟩

theorem run_bind_eq_ok {x : Name} {t : Term} {own : List Term} {last : Env}
    (h : Line.run fuel limits line env (.bind x t) = .ok (own, last)) :
    ∃ value, own = [] ∧ last = env.resolved x (Env.empty.suspend value) := by
  rw [Line.run] at h
  split at h <;> cases h
  exact ⟨_, rfl, rfl⟩

/-- A line that has a value prints it, or binds a name to it. -/
theorem value_of_run {l : Line} {own : List Term} {last : Env}
    (h : l.run fuel limits line env = .ok (own, last)) :
    ∃ value tally, l.term.reduceWithin fuel limits env = .ok value tally ∧
      (own = [value] ∧ last = env ∨
        own = [] ∧ ∃ x, last = env.resolved x (Env.empty.suspend value)) := by
  cases l with
  | bind x t =>
      rw [Line.run] at h
      split at h <;> cases h
      exact ⟨_, _, by assumption, .inr ⟨rfl, x, rfl⟩⟩
  | eval t =>
      rw [Line.run] at h
      split at h <;> cases h
      exact ⟨_, _, by assumption, .inl ⟨rfl, rfl⟩⟩

/-- A line halts where its term does. -/
theorem halt_of_run {l : Line} {e : LineHalt} (h : l.run fuel limits line env = .error e) :
    e.line = line ∧ ∃ tally, l.term.reduceWithin fuel limits env = .error e.halt tally := by
  cases l with
  | bind x t =>
      rw [Line.run] at h
      split at h <;> cases h
      exact ⟨rfl, _, by assumption⟩
  | eval t =>
      rw [Line.run] at h
      split at h <;> cases h
      exact ⟨rfl, _, by assumption⟩

/-- Lines that have values: those of the first, and those of the others where it leads. -/
theorem runFrom_cons_eq_ok {l : Line} {rest : Program} {values : List Term} {last : Env}
    (h : runFrom fuel limits line env (l :: rest) = .ok (values, last)) :
    ∃ own between more, l.run fuel limits line env = .ok (own, between) ∧
      runFrom fuel limits (line + 1) between rest = .ok (more, last) ∧ values = own ++ more := by
  rw [runFrom] at h
  cases hl : l.run fuel limits line env with
  | error e =>
      rw [hl] at h
      cases h
  | ok r =>
      obtain ⟨own, between⟩ := r
      rw [hl] at h
      dsimp only at h
      cases hrest : runFrom fuel limits (line + 1) between rest with
      | error e =>
          rw [hrest] at h
          cases h
      | ok r' =>
          obtain ⟨more, last'⟩ := r'
          rw [hrest] at h
          cases h
          exact ⟨own, between, more, rfl, hrest, rfl⟩

theorem runFrom_cons_of_ok {l : Line} {rest : Program} {own more : List Term} {between last : Env}
    (hl : l.run fuel limits line env = .ok (own, between))
    (hrest : runFrom fuel limits (line + 1) between rest = .ok (more, last)) :
    runFrom fuel limits line env (l :: rest) = .ok (own ++ more, last) := by
  rw [runFrom, hl]
  dsimp only
  rw [hrest]
  rfl

theorem runFrom_cons_eq_error {l : Line} {rest : Program} {e : LineHalt}
    (h : runFrom fuel limits line env (l :: rest) = .error e) :
    l.run fuel limits line env = .error e ∨
      ∃ own between, l.run fuel limits line env = .ok (own, between) ∧
        runFrom fuel limits (line + 1) between rest = .error e := by
  rw [runFrom] at h
  cases hl : l.run fuel limits line env with
  | error e' =>
      rw [hl] at h
      cases h
      exact .inl rfl
  | ok r =>
      obtain ⟨own, between⟩ := r
      rw [hl] at h
      dsimp only at h
      cases hrest : runFrom fuel limits (line + 1) between rest with
      | error e' =>
          rw [hrest] at h
          cases h
          exact .inr ⟨own, between, rfl, hrest⟩
      | ok r' =>
          rw [hrest] at h
          cases h

theorem le_line_of_runFrom {e : LineHalt} (h : runFrom fuel limits line env program = .error e) :
    line ≤ e.line := by
  induction program generalizing line env with
  | nil => cases h
  | cons l rest ih =>
      rcases runFrom_cons_eq_error h with hl | ⟨_, _, -, hrest⟩
      · exact Nat.le_of_eq (halt_of_run hl).1.symm
      · exact Nat.le_of_succ_le (ih hrest)

/-- A run that halts does so at one of its lines, where the lines above it lead. -/
theorem exists_line_of_runFrom {e : LineHalt}
    (h : runFrom fuel limits line env program = .error e) :
    ∃ above l below values between tally, program = above ++ l :: below ∧
      runFrom fuel limits line env above = .ok (values, between) ∧
      l.term.reduceWithin fuel limits between = .error e.halt tally := by
  induction program generalizing line env with
  | nil => cases h
  | cons l rest ih =>
      rcases runFrom_cons_eq_error h with hl | ⟨own, between, hl, hrest⟩
      · obtain ⟨-, tally, hr⟩ := halt_of_run hl
        exact ⟨[], l, rest, [], env, tally, rfl, rfl, hr⟩
      · obtain ⟨above, l', below, values, last, tally, rfl, habove, hr⟩ := ih hrest
        exact ⟨l :: above, l', below, own ++ values, last, tally, rfl,
          runFrom_cons_of_ok hl habove, hr⟩

/-- Runs that agree on their values halt alike or have values alike, whatever they leave. -/
theorem cases_of_map_fst_eq {r r' : Except LineHalt (List Term × Env)}
    (h : r.map Prod.fst = r'.map Prod.fst) :
    (∃ e, r = .error e ∧ r' = .error e) ∨
      ∃ values last last', r = .ok (values, last) ∧ r' = .ok (values, last') := by
  cases r with
  | error e =>
      cases r' with
      | error e' =>
          cases h
          exact .inl ⟨e, rfl, rfl⟩
      | ok r' => cases h
  | ok r =>
      obtain ⟨values, last⟩ := r
      cases r' with
      | error e' => cases h
      | ok r' =>
          obtain ⟨values', last'⟩ := r'
          cases h
          exact .inr ⟨values, last, last', rfl, rfl⟩

/-- The values of a line are of the kind of names that its term and its environment are of, and so
is the environment that it leaves. -/
theorem run_named {kind : Name → Prop} (hkind : Name.Closed kind) {l : Line} {own : List Term}
    {last : Env} (hl : l.term.Named kind) (henv : env.Named kind)
    (h : l.run fuel limits line env = .ok (own, last)) :
    (∀ v ∈ own, v.Named kind) ∧ last.Named kind := by
  obtain ⟨value, tally, hr, hends⟩ := value_of_run h
  have hvalue := Term.named_of_reduceWithin hkind hl henv hr
  rcases hends with ⟨rfl, rfl⟩ | ⟨rfl, x, rfl⟩
  · exact ⟨List.forall_mem_singleton.mpr hvalue, henv⟩
  · exact ⟨fun _ hv => absurd hv List.not_mem_nil, henv.resolved hvalue Env.named_empty x⟩

theorem runFrom_named {kind : Name → Prop} (hkind : Name.Closed kind) {values : List Term}
    {last : Env} (hprogram : ∀ l ∈ program, l.term.Named kind) (henv : env.Named kind)
    (h : runFrom fuel limits line env program = .ok (values, last)) :
    (∀ v ∈ values, v.Named kind) ∧ last.Named kind := by
  induction program generalizing line env values last with
  | nil =>
      cases h
      exact ⟨fun _ hv => absurd hv List.not_mem_nil, henv⟩
  | cons l rest ih =>
      obtain ⟨hl, hrest⟩ := List.forall_mem_cons.mp hprogram
      obtain ⟨own, between, more, hrun, hbelow, rfl⟩ := runFrom_cons_eq_ok h
      obtain ⟨hown, hbetween⟩ := run_named hkind hl henv hrun
      obtain ⟨hmore, hlast⟩ := ih hrest hbetween hbelow
      exact ⟨List.forall_mem_append.mpr ⟨hown, hmore⟩, hlast⟩

/-- The names of the values of a program are of the kind that those of its terms are of. -/
theorem results_named {kind : Name → Prop} (hkind : Name.Closed kind) {values : List Term}
    (hprogram : ∀ l ∈ program, l.term.Named kind)
    (h : results fuel limits program = .ok values) : ∀ v ∈ values, v.Named kind := by
  rw [results_eq] at h
  cases hrun : runFrom fuel limits 0 .empty program with
  | error e =>
      rw [hrun] at h
      cases h
  | ok r =>
      rw [hrun] at h
      cases h
      exact (runFrom_named hkind hprogram Env.named_empty hrun).1

end Run
end Program

end NormalOrder
