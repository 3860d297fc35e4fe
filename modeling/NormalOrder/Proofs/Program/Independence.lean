/- Lines act on each other only through the names that they bind.

What stands below a line comes to what it does by the environment that the line leaves, and there by
the names only that it reads before it binds them. -/
import NormalOrder.Proofs.Program.Results
import NormalOrder.Proofs.Program.RoundTrip
import NormalOrder.Proofs.Reduction.Relevance

namespace NormalOrder

/-- No identifier is an operator's name. -/
theorem Name.IsIdentifier.plain {x : Name} (h : x.IsIdentifier) : x.Plain := by
  have hne : ∀ c, Text.isLetterOrNumeral c = false → x ≠ String.ofList [c] := by
    rintro c hc rfl
    have hletter := h.letters c (by rw [String.toList_ofList]; exact List.mem_singleton.mpr rfl)
    exact Bool.false_ne_true (hc.symm.trans hletter)
  unfold Name.Plain Operator.ofName?
  split
  · exact absurd rfl (hne '+' (by decide +kernel))
  · exact absurd rfl (hne '-' (by decide +kernel))
  · exact absurd rfl (hne '*' (by decide +kernel))
  · exact absurd rfl (hne '/' (by decide +kernel))
  · exact absurd rfl (hne '=' (by decide +kernel))
  · rfl

namespace Program

/-- The names that a program reads before it binds them. -/
def freeNames : Program → Names
  | [] => []
  | .bind x t :: rest => t.freeNames.union ((freeNames rest).without x)
  | .eval t :: rest => t.freeNames.union (freeNames rest)

variable {fuel : Nat} {limits : Limits} {program : Program}

section Names

/-- The names that a line reads are free in its term, and the lines below it read those that it does
not bind. -/
theorem mem_freeNames_cons {l : Line} {rest : Program} {x : Name} :
    x ∈ freeNames (l :: rest) ↔
      x ∈ l.term.freeNames ∨ x ∈ freeNames rest ∧ ∀ t, l ≠ .bind x t := by
  cases l with
  | bind y t =>
      rw [freeNames, Names.mem_union, Names.mem_without]
      refine or_congr_right (and_congr_right fun _ => ⟨?_, ?_⟩)
      · rintro hne _ ⟨⟩
        exact hne rfl
      · rintro h rfl
        exact h t rfl
  | eval t =>
      rw [freeNames, Names.mem_union]
      refine or_congr_right ⟨fun h => ⟨h, ?_⟩, And.left⟩
      rintro _ ⟨⟩

/-- A program reads a name in the term of a line, if no line before it binds the name. -/
theorem mem_freeNames {x : Name} :
    x ∈ program.freeNames ↔ ∃ before l after, program = before ++ l :: after ∧
      (∀ t, .bind x t ∉ before) ∧ x ∈ l.term.freeNames := by
  induction program with
  | nil =>
      constructor
      · intro h
        cases h
      · rintro ⟨before, l, after, h, -⟩
        exact absurd h.symm (by simp)
  | cons l rest ih =>
      rw [mem_freeNames_cons, ih]
      constructor
      · rintro (h | ⟨⟨before, m, after, rfl, hbefore, hm⟩, hl⟩)
        · exact ⟨[], l, rest, rfl, fun t => List.not_mem_nil, h⟩
        · refine ⟨l :: before, m, after, rfl, fun t hmem => ?_, hm⟩
          exact (List.mem_cons.mp hmem).elim (fun h => hl t h.symm) (hbefore t)
      · rintro ⟨before, m, after, h, hbefore, hm⟩
        cases before with
        | nil =>
            cases h
            exact .inl hm
        | cons l' before =>
            cases h
            refine .inr ⟨⟨before, m, after, rfl, fun t hmem => ?_, hm⟩, ?_⟩
            · exact hbefore t (List.mem_cons_of_mem _ hmem)
            · rintro t rfl
              exact hbefore t List.mem_cons_self

/-- In environments that are alike on what lines read, the first of them comes to the same, and
leaves environments that are alike on what the others read. -/
theorem run_of_alike {env env' : Env} {l : Line} {rest : Program}
    (h : env.AlikeOn (fun x => x ∈ freeNames (l :: rest) ∨ ¬ x.Plain) env') (line : Nat) :
    (∃ e, l.run fuel limits line env = .error e ∧ l.run fuel limits line env' = .error e) ∨
      ∃ values between between', l.run fuel limits line env = .ok (values, between) ∧
        l.run fuel limits line env' = .ok (values, between') ∧
        between.AlikeOn (fun x => x ∈ freeNames rest ∨ ¬ x.Plain) between' := by
  have ht : env.AlikeOn l.term.Relevant env' :=
    h.mono fun x hx => hx.imp_left fun hx => mem_freeNames_cons.mpr (.inl hx)
  have hterm := Term.reduceWithin_of_alike ht fuel limits
  cases l with
  | bind x t =>
      dsimp only [Line.term] at hterm
      rw [Line.run, Line.run, hterm]
      cases t.reduceWithin fuel limits env' with
      | error halt tally => exact .inl ⟨_, rfl, rfl⟩
      | ok value tally =>
          refine .inr ⟨_, _, _, rfl, rfl, .resolved (h.mono fun y hy => ?_) rfl (.refl _ _)⟩
          refine hy.1.imp_left fun hmem => mem_freeNames_cons.mpr (.inr ⟨hmem, ?_⟩)
          rintro _ ⟨⟩
          exact hy.2 rfl
  | eval t =>
      dsimp only [Line.term] at hterm
      rw [Line.run, Line.run, hterm]
      cases t.reduceWithin fuel limits env' with
      | error halt tally => exact .inl ⟨_, rfl, rfl⟩
      | ok value tally =>
          refine .inr ⟨_, _, _, rfl, rfl, h.mono fun y hy => ?_⟩
          refine hy.imp_left fun hmem => mem_freeNames_cons.mpr (.inr ⟨hmem, ?_⟩)
          rintro _ ⟨⟩

/-- What lines come to depends on the names only that they read. -/
theorem runFrom_of_alike {env env' : Env}
    (h : env.AlikeOn (fun x => x ∈ program.freeNames ∨ ¬ x.Plain) env') (line : Nat) :
    (runFrom fuel limits line env program).map Prod.fst =
      (runFrom fuel limits line env' program).map Prod.fst := by
  induction program generalizing line env env' with
  | nil => rfl
  | cons l rest ih =>
      rw [runFrom, runFrom]
      rcases run_of_alike h line with ⟨e, hl, hl'⟩ | ⟨values, between, between', hl, hl', hrest⟩
      · rw [hl, hl']
      · rw [hl, hl']
        dsimp only
        rcases cases_of_map_fst_eq (ih hrest (line + 1)) with
          ⟨e, hr, hr'⟩ | ⟨more, last, last', hr, hr'⟩
        · rw [hr, hr']
        · rw [hr, hr']
          rfl

end Names

section Lines

/-- How the end of a program changes when a line is deleted that has number `line` and adds the
values `own` to the earlier ones: these values go, and a later halt is one line further up. -/
inductive Deletion (line : Nat) (earlier own : List Term) :
    Except LineHalt (List Term) → Except LineHalt (List Term) → Prop
  | ok (later : List Term) :
      Deletion line earlier own (.ok (earlier ++ own ++ later)) (.ok (earlier ++ later))
  | error (below : Nat) (halt : Halt) :
      Deletion line earlier own (.error ⟨line + below + 1, halt⟩) (.error ⟨line + below, halt⟩)

/-- How the end of a program of so many lines changes when others are put below it: there may be
more values, or one of the new lines may have none. -/
inductive Extension (lines : Nat) :
    Except LineHalt (List Term) → Except LineHalt (List Term) → Prop
  | ok (values more : List Term) : Extension lines (.ok values) (.ok (values ++ more))
  | below (values : List Term) (below : Nat) (halt : Halt) :
      Extension lines (.ok values) (.error ⟨lines + below, halt⟩)
  | error (e : LineHalt) : Extension lines (.error e) (.error e)

variable {before after more : Program} {l : Line} {values : List Term}

theorem results_append (before after : Program) :
    results fuel limits (before ++ after) =
      match runFrom fuel limits 0 .empty before with
      | .ok (values, between) =>
        ((runFrom fuel limits before.length between after).map Prod.fst).map (values ++ ·)
      | .error e => .error e := by
  rw [results_eq, runFrom_append]
  cases runFrom fuel limits 0 .empty before with
  | error e => rfl
  | ok r =>
      dsimp only
      rw [Nat.zero_add]
      cases runFrom fuel limits before.length r.2 after <;> rfl

/-- Lines put below others change neither their values nor a halt among them. -/
theorem results_extension (program more : Program) :
    Extension program.length (results fuel limits program)
      (results fuel limits (program ++ more)) := by
  rw [results_append, results_eq]
  cases runFrom fuel limits 0 .empty program with
  | error e => exact .error e
  | ok r =>
      obtain ⟨values, between⟩ := r
      dsimp only
      cases hmore : runFrom fuel limits program.length between more with
      | ok r' => exact .ok values r'.1
      | error e =>
          obtain ⟨below, hbelow⟩ := Nat.exists_eq_add_of_le (le_line_of_runFrom hmore)
          obtain ⟨line, halt⟩ := e
          obtain rfl : line = program.length + below := hbelow
          exact .below values below halt

/-- A line that has a value leaves its values and an environment to what stands below. -/
theorem exists_run_of_results (h : results fuel limits (before ++ [l]) = .ok values) :
    ∃ earlier own between last, runFrom fuel limits 0 .empty before = .ok (earlier, between) ∧
      l.run fuel limits before.length between = .ok (own, last) ∧ values = earlier ++ own := by
  rw [results_append] at h
  cases hbefore : runFrom fuel limits 0 .empty before with
  | error e =>
      rw [hbefore] at h
      cases h
  | ok r =>
      obtain ⟨earlier, between⟩ := r
      rw [hbefore] at h
      cases hl : l.run fuel limits before.length between with
      | error e =>
          simp only [runFrom, hl] at h
          cases h
      | ok r' =>
          obtain ⟨own, last⟩ := r'
          simp only [runFrom, hl] at h
          cases h
          exact ⟨earlier, own, between, last, rfl, hl, by simp⟩

/-- A line may be deleted if what stands below comes to the same in the environment before it. -/
theorem deletion_of_runFrom {earlier own : List Term} {between last : Env}
    (hbefore : runFrom fuel limits 0 .empty before = .ok (earlier, between))
    (hl : l.run fuel limits before.length between = .ok (own, last))
    (hafter : (runFrom fuel limits before.length last after).map Prod.fst =
      (runFrom fuel limits before.length between after).map Prod.fst) :
    Deletion before.length earlier own (results fuel limits (before ++ l :: after))
      (results fuel limits (before ++ after)) := by
  rw [results_append, results_append, hbefore]
  dsimp only
  rw [runFrom, hl]
  dsimp only
  rw [runFrom_succ]
  rcases cases_of_map_fst_eq hafter with ⟨e, hlast, hbetween⟩ | ⟨more, end₁, end₂, hlast, hbetween⟩
  · obtain ⟨below, hbelow⟩ := Nat.exists_eq_add_of_le (le_line_of_runFrom hlast)
    obtain ⟨line, halt⟩ := e
    obtain rfl : line = before.length + below := hbelow
    rw [hlast, hbetween]
    exact .error below halt
  · rw [hlast, hbetween]
    dsimp only [Except.map, Except.mapError]
    rw [← List.append_assoc]
    exact .ok more

/-- Lines act on each other only through the names that they bind. Where a line has a value,
deleting it changes nothing but that its own value goes and a later halt is one line further up, if
the line asks for a value, or if it binds a name that the lines below do not read before they bind
it again. Lines put below others change nothing above. -/
theorem lines_act_through_bindings {text : String} {program : Program}
    (hp : parse text = .ok program) (fuel : Nat) (limits : Limits) :
    (∀ before t after values, program = before ++ .eval t :: after →
      results fuel limits (before ++ [.eval t]) = .ok values →
      ∃ earlier value, values = earlier ++ [value] ∧
        Deletion before.length earlier [value] (results fuel limits program)
          (results fuel limits (before ++ after))) ∧
    (∀ before z t after earlier, program = before ++ .bind z t :: after →
      results fuel limits (before ++ [.bind z t]) = .ok earlier → z ∉ freeNames after →
      Deletion before.length earlier [] (results fuel limits program)
        (results fuel limits (before ++ after))) ∧
    ∀ more, Extension program.length (results fuel limits program)
      (results fuel limits (program ++ more)) := by
  refine ⟨?_, ?_, results_extension program⟩
  · rintro before t after values rfl h
    obtain ⟨earlier, own, between, last, hbefore, hl, rfl⟩ := exists_run_of_results h
    obtain ⟨value, rfl, rfl⟩ := run_eval_eq_ok hl
    exact ⟨earlier, value, rfl, deletion_of_runFrom hbefore hl rfl⟩
  · rintro before z t after values rfl h hz
    obtain ⟨earlier, own, between, last, hbefore, hl, rfl⟩ := exists_run_of_results h
    obtain ⟨value, rfl, rfl⟩ := run_bind_eq_ok hl
    have hplain : z.Plain :=
      ((names_of_parse hp (.bind z t) (by simp)).1 z t rfl).plain
    have hunread : ¬ (z ∈ freeNames after ∨ ¬ z.Plain) := not_or.mpr ⟨hz, not_not.mpr hplain⟩
    rw [List.append_nil]
    exact deletion_of_runFrom hbefore hl
      (runFrom_of_alike (between.alikeOn_resolved _ hunread) before.length)

/-- The value of `f` mentions a `z` that is not the one bound below it, so a binder `z` around it is
renamed; the binding of `z` is never read. -/
def unreadName : Program :=
  [.bind "f" (.lam "x" (.var "z")), .bind "z" (.var "a"), .eval (.app (.var "f") (.var "b")),
    .eval (.lam "z" (.app (.var "f") (.var "z")))]

theorem lines_act_through_bindings_unreadName :
    results 9 {} unreadName = .ok [.var "z", .lam "z1" (.var "z")] ∧
      Deletion 2 [] [.var "z"] (results 9 {} unreadName) (results 9 {} (unreadName.eraseIdx 2)) ∧
      Deletion 1 [] [] (results 9 {} unreadName) (results 9 {} (unreadName.eraseIdx 1)) ∧
      Extension 4 (results 9 {} unreadName) (results 9 {} (unreadName ++ [.eval (.var "f")])) := by
  have hp : parse "let f = λx.z\nlet z = a\n(f b)\nλz.(f z)" = .ok unreadName := by
    decide +kernel
  obtain ⟨heval, hbind, happend⟩ := lines_act_through_bindings hp 9 {}
  refine ⟨rfl, ?_, ?_, happend _⟩
  · obtain ⟨earlier, value, hvalues, hdeletion⟩ := heval
      [.bind "f" (.lam "x" (.var "z")), .bind "z" (.var "a")] _ _ [.var "z"] rfl rfl
    obtain ⟨rfl, rfl⟩ : earlier = [] ∧ value = .var "z" := by
      cases earlier with
      | nil => exact ⟨rfl, (List.cons.inj hvalues).1.symm⟩
      | cons v earlier => simp at hvalues
    exact hdeletion
  · exact hbind [.bind "f" (.lam "x" (.var "z"))] "z" (.var "a") _ [] rfl rfl (by decide)

end Lines

end Program

end NormalOrder
