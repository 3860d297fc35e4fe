/- Repetition as a loop.

A loop keeps what the runs of its parser gave and the cursor it has come to, and is over when a run
fails or stays where it is. If the parser never moves back, every other run leaves less to read: the
loop ends, and in what repetition gives. -/
import NormalOrder.Proofs.Parsing.Reading

namespace NormalOrder

namespace Parser

variable {α : Type} {p : Parser α} {c next : Cursor} {value : α} {values : List α}

/-- Where the parser succeeds, it leaves a cursor of the same text that is not before the one it was
given. No cursor is past the end of its text. -/
def Forward (p : Parser α) : Prop :=
  ∀ c value next, p c = some (value, next) → next.source = c.source ∧ c.offset ≤ next.offset

theorem Forward.leads (hp : p.Forward) (h : p c = some (value, next)) : c.Leads next :=
  Cursor.leads_of_offset_le (hp c value next h).1 (hp c value next h).2

theorem Local.forward (h : p.Local) : p.Forward := fun _ _ _ hstep =>
  ⟨(h.leads hstep).source_eq, (h.leads hstep).to.offset_le⟩

/-- A run that succeeds stays where it is, or leaves fewer characters and fewer bytes. -/
theorem Forward.stays_or_shorter (hp : p.Forward) (h : p c = some (value, next)) :
    next.offset = c.offset ∧ next = c ∨ next.offset ≠ c.offset ∧
      next.rest.length < c.rest.length ∧ Text.size next.rest < Text.size c.rest := by
  by_cases hoffset : next.offset = c.offset
  · exact .inl ⟨hoffset, (hp.leads h).eq_of_offset_eq hoffset⟩
  · exact .inr ⟨hoffset, (hp.leads h).shorter hoffset⟩

/-- A loop that has kept `values` and has come to `c` is over after so many runs of its parser, with
this result. Every constructor is one run. -/
inductive Loops (p : Parser α) : List α → Cursor → (runs : Nat) → List α × Cursor → Prop
  | fails {values : List α} {c : Cursor} (h : p c = none) : Loops p values c 1 (values, c)
  /-- The value of a run that reads nothing is kept all the same. -/
  | stays {values : List α} {c next : Cursor} {value : α} (h : p c = some (value, next))
    (hoffset : next.offset = c.offset) : Loops p values c 1 (values ++ [value], c)
  | moves {values : List α} {c next : Cursor} {value : α} {runs : Nat} {result : List α × Cursor}
    (h : p c = some (value, next)) (hoffset : next.offset ≠ c.offset)
    (hnext : Loops p (values ++ [value]) next runs result) : Loops p values c (runs + 1) result

/-- A loop is over once, with one result. -/
theorem Loops.unique {runs runs' : Nat} {result result' : List α × Cursor}
    (h : Loops p values c runs result) (h' : Loops p values c runs' result') :
    runs' = runs ∧ result' = result := by
  induction h generalizing runs' with
  | fails h => cases h' <;> simp_all
  | stays h hoffset => cases h' <;> simp_all
  | moves h hoffset _ ih =>
      cases h' with
      | fails h' => cases h.symm.trans h'
      | stays h' hoffset' =>
          cases h.symm.trans h'
          exact absurd hoffset' hoffset
      | moves h' _ hnext' =>
          cases h.symm.trans h'
          obtain ⟨rfl, rfl⟩ := ih hnext'
          exact ⟨rfl, rfl⟩

/-- The loop is over after one run more than there are bytes left, at the latest. It has then put
what repetition gives behind the values that it had kept. -/
theorem Forward.loops (hp : p.Forward) (values : List α) {n : Nat} {c : Cursor}
    (hn : c.rest.length < n) :
    ∃ runs ≤ Text.size c.rest + 1,
      Loops p values c runs (values ++ (manyWithin p n c).1, (manyWithin p n c).2) := by
  -- A loop goes on with one value more, so the kept values vary beside the cursor.
  induction n generalizing values c with
  | zero => exact absurd hn (Nat.not_lt_zero _)
  | succ n ih =>
      rw [manyWithin]
      cases hstep : p c with
      | none =>
          refine ⟨1, Nat.le_add_left .., ?_⟩
          rw [List.append_nil]
          exact .fails hstep
      | some step =>
          obtain ⟨value, next⟩ := step
          rcases hp.stays_or_shorter hstep with ⟨hoffset, rfl⟩ | ⟨hoffset, hlength, hsize⟩
          · simp only [Nat.lt_irrefl, if_false]
            exact ⟨1, Nat.le_add_left .., .stays hstep hoffset⟩
          · obtain ⟨runs, hruns, hnext⟩ := ih (values ++ [value]) (by omega : next.rest.length < n)
            rw [List.append_assoc] at hnext
            simp only [if_pos hlength]
            exact ⟨runs + 1, by omega, .moves hstep hoffset hnext⟩

/-- Repetition told by offsets. -/
theorem Forward.many_eq (hp : p.Forward) (c : Cursor) :
    many p c =
      match p c with
      | none => some ([], c)
      | some (value, next) =>
        if next.offset = c.offset then some ([value], c)
        else (many p next).map fun (values, last) => (value :: values, last) := by
  rw [Parser.many_eq]
  cases hstep : p c with
  | none => rfl
  | some step =>
      obtain ⟨value, next⟩ := step
      rcases hp.stays_or_shorter hstep with ⟨hoffset, rfl⟩ | ⟨hoffset, hlength, -⟩
      · simp only [Nat.lt_irrefl, if_false, if_true]
      · simp only [if_pos hlength, if_neg hoffset]

/-- Repetition has a value as soon as its parser succeeds once. -/
theorem many1_eq (p : Parser α) (c : Cursor) :
    many1 p c = if (p c).isSome then many p c else none := by
  rw [many1, Parser.many_eq]
  cases p c with
  | none => rfl
  | some step =>
      obtain ⟨value, next⟩ := step
      by_cases hlength : next.rest.length < c.rest.length
      · simp only [if_pos hlength, many, Option.map_some]
        rfl
      · simp only [if_neg hlength]
        rfl

/-- Repetition of a parser that never moves back succeeds, and gives what the loop ends in, which runs
the parser at most once more than there are bytes left. It gives nothing where the parser fails, the
one value where it reads nothing, and else its value and then what repetition gives behind it. With
at least one value asked for it gives the same where the parser succeeds, and fails where it fails. -/
theorem many_ends_greedily (hp : p.Forward) (c : Cursor) :
    (∃ result, many p c = some result ∧ ∃ runs ≤ Text.size c.rest + 1,
      ∀ n ending, Loops p [] c n ending ↔ n = runs ∧ ending = result) ∧
    (many p c =
      match p c with
      | none => some ([], c)
      | some (value, next) =>
        if next.offset = c.offset then some ([value], c)
        else (many p next).map fun (values, last) => (value :: values, last)) ∧
    many1 p c = if (p c).isSome then many p c else none := by
  refine ⟨?_, hp.many_eq c, many1_eq p c⟩
  obtain ⟨runs, hruns, hloops⟩ := hp.loops [] (Nat.lt_succ_self c.rest.length)
  refine ⟨_, rfl, runs, hruns, fun n ending => ⟨hloops.unique, ?_⟩⟩
  rintro ⟨rfl, rfl⟩
  exact hloops

/-- A letter of two bytes, or nothing. -/
def letterOrNothing : Parser Char :=
  satisfy (· == 'é') <|> pure '-'

/-- Two letters are read, and then nothing. -/
theorem many_ends_greedily_letters :
    letterOrNothing.Forward ∧
      Loops letterOrNothing [] ⟨['x'], ['é', 'é', '!']⟩ 3
        (['é', 'é', '-'], ⟨['é', 'é', 'x'], ['!']⟩) ∧
      many letterOrNothing ⟨['x'], ['é', 'é', '!']⟩ =
        some (['é', 'é', '-'], ⟨['é', 'é', 'x'], ['!']⟩) ∧
      many1 letterOrNothing ⟨['x'], ['é', 'é', '!']⟩ =
        some (['é', 'é', '-'], ⟨['é', 'é', 'x'], ['!']⟩) := by
  have hforward : letterOrNothing.Forward := ((local_satisfy _).orElse (local_pure _)).forward
  have hloops : Loops letterOrNothing [] ⟨['x'], ['é', 'é', '!']⟩ 3
      (['é', 'é', '-'], ⟨['é', 'é', 'x'], ['!']⟩) :=
    .moves rfl (by decide) (.moves rfl (by decide) (.stays rfl rfl))
  obtain ⟨⟨result, hmany, runs, -, hend⟩, -, hmany1⟩ :=
    many_ends_greedily hforward ⟨['x'], ['é', 'é', '!']⟩
  obtain ⟨-, rfl⟩ := (hend _ _).mp hloops
  exact ⟨hforward, hloops, hmany, hmany1.trans hmany⟩

end Parser

end NormalOrder
