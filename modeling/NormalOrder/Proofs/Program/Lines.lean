/- Programs are read line by line.

A line is read in the same way whatever lines follow it, so the lines of two texts, one below the
other, are those of the first and then those of the second. And a text that is one expression is a
program of one line. -/
import NormalOrder.Proofs.Grammar.Brackets

namespace NormalOrder.Grammar

open NormalOrder.Parser

variable {text s rest q : List Char} {l : Line}

section OneLine

/-- What of a binding follows its `=`. -/
theorem local_bindTerm (name : List Char) :
    (expression .onLine >>= fun t => pure (Line.bind (String.ofList name) t)).Local :=
  (local_expression .onLine).bind fun _ => local_pure _

/-- What of a binding follows its name. -/
theorem local_bindSign (name : List Char) :
    (symbol .onLine '=' >>= fun _ => expression .onLine >>= fun t =>
      pure (Line.bind (String.ofList name) t)).Local :=
  (local_symbol .onLine '=').bind fun _ => local_bindTerm name

theorem local_bindName : (afterInlineBlanks (pattern identifier)).Local :=
  (local_skipWhile Text.isInlineBlank).seqRight (local_pattern identifier)

theorem local_bindLine : bindLine.Local :=
  (local_pattern letWord).bind fun _ => local_bindName.bind local_bindSign

theorem local_evalLine : evalLine.Local :=
  (local_expression .onLine).map _

theorem local_line : line.Local :=
  (local_skipWhile Text.isBlank).seqRight (local_bindLine.orElse local_evalLine)

theorem read_line (text : List Char) :
    line.read text = (bindLine <|> evalLine).read (text.dropWhile Text.isBlank) := by
  have hread : (skipBlanks *> (bindLine <|> evalLine)).read text = _ :=
    read_seqRight (local_bindLine.orElse local_evalLine)
  have hskip : skipBlanks.read text = some ((), text.dropWhile Text.isBlank) :=
    read_skipWhile Text.isBlank
  rw [hskip] at hread
  exact hread

/-- A line break or a parenthesis ends the words of a binding. -/
theorem letWord_accepts {c : Char} (hc : c = '\n' ∨ c = '(' ∨ c = ')') :
    ∀ piece ∈ letWord, piece.accepts c = false := by
  rcases hc with rfl | rfl | rfl <;> simp [letWord, Piece.accepts, Text.isInlineBlank]

theorem letWord_of_read {word : List Char} (h : (pattern letWord).read text = some (word, rest)) :
    ∃ blank, Text.isInlineBlank blank = true ∧ text = 'l' :: 'e' :: 't' :: blank :: rest := by
  rw [read_pattern] at h
  obtain ⟨n, hn, hstep⟩ := Option.map_eq_some_iff.mp h
  obtain ⟨l, s₁, n₁, rfl, hl, hn₁, rfl⟩ := matchLength?_one_eq_some.mp hn
  obtain ⟨e, s₂, n₂, rfl, he, hn₂, rfl⟩ := matchLength?_one_eq_some.mp hn₁
  obtain ⟨t, s₃, n₃, rfl, ht, hn₃, rfl⟩ := matchLength?_one_eq_some.mp hn₂
  obtain ⟨blank, s₄, n₄, rfl, hblank, hn₄, rfl⟩ := matchLength?_one_eq_some.mp hn₃
  cases hn₄
  cases hstep
  rw [beq_iff_eq.mp hl, beq_iff_eq.mp he, beq_iff_eq.mp ht]
  exact ⟨blank, hblank, rfl⟩

theorem identifier_accepts {c : Char} (hc : c = '\n' ∨ c = '(' ∨ c = ')') :
    ∀ piece ∈ identifier, piece.accepts c = false := by
  have hletter : Text.isLetterOrNumeral c = false := by
    rcases hc with rfl | rfl | rfl <;> decide +kernel
  simp [identifier, Piece.accepts, hletter]

theorem unopened_of_read_pattern {pieces : List Piece} {word : List Char}
    (hpieces : ∀ c, c = '\n' ∨ c = '(' ∨ c = ')' → ∀ piece ∈ pieces, piece.accepts c = false)
    (h : (pattern pieces).read text = some (word, rest)) : unopened text = unopened rest := by
  rw [read_pattern] at h
  obtain ⟨n, hn, h⟩ := Option.map_eq_some_iff.mp h
  cases h
  have hne : ∀ c ∈ text.take n, c ≠ '(' ∧ c ≠ ')' := by
    intro c hc
    obtain ⟨piece, hmem, hpiece⟩ := exists_accepts_of_matchLength? hn c hc
    constructor <;>
      (rintro rfl; rw [hpieces _ (by simp) piece hmem] at hpiece; cases hpiece)
  calc unopened text
      = unopened (text.take n ++ text.drop n) := by rw [List.take_append_drop]
    _ = unopened (text.drop n) := unopened_append hne

/-- A text that is an expression but for blanks begins no binding: behind the variable `l` it would
have to end. -/
theorem read_bindLine_of_expression {t : Term}
    (h : (expression .onLine).read text = some (t, rest))
    (hblanks : ∀ c ∈ rest, Text.isBlank c = true) : bindLine.read text = none := by
  cases hread : bindLine.read text with
  | none => rfl
  | some step =>
      obtain ⟨word, s, hword, -⟩ :=
        read_bind_eq_some (fun _ => local_bindName.bind local_bindSign) hread
      obtain ⟨blank, -, rfl⟩ := letWord_of_read hword
      have htoken : Position.onLine.token? ('l' :: 'e' :: 't' :: blank :: s) =
          some ('l', 'e' :: 't' :: blank :: s) := Position.Token.char? ⟨[], by simp, rfl⟩ (by decide)
      rw [read_expression htoken, if_neg (by decide), read_term_of_variable htoken (by decide)] at h
      cases h
      exact absurd (hblanks 'e' (List.mem_cons_self ..)) (by decide)

theorem exists_bind_of_read_bindLine (h : bindLine.read text = some (l, rest)) :
    ∃ x t, l = .bind x t := by
  obtain ⟨word, s₁, -, h⟩ := read_bind_eq_some (fun _ => local_bindName.bind local_bindSign) h
  obtain ⟨name, s₂, -, h⟩ := read_bind_eq_some local_bindSign h
  obtain ⟨sign, s₃, -, h⟩ := read_bind_eq_some (fun _ => local_bindTerm name) h
  obtain ⟨t, s₄, -, h⟩ := read_bind_eq_some (fun _ => local_pure _) h
  rw [read_pure] at h
  cases h
  exact ⟨_, t, rfl⟩

theorem unopened_of_read_name {word : List Char}
    (h : (afterInlineBlanks (pattern identifier)).read text = some (word, rest)) :
    unopened text = unopened rest := by
  have hread := read_afterBlanks (local_pattern identifier) .onLine text
  have hname : (pattern identifier).read (text.dropWhile Text.isInlineBlank) = some (word, rest) :=
    hread.symm.trans h
  rw [← unopened_of_read_pattern (fun _ hc => identifier_accepts hc) hname,
    unopened_dropWhile fun _ => Text.isBlank_of_isInlineBlank]

theorem length_lt_of_read_expression {pos : Position} {t : Term}
    (h : (expression pos).read text = some (t, rest)) : rest.length < text.length := by
  obtain ⟨used, rfl, ⟨front, c, rfl, -⟩, -⟩ := ((sound text pos t rest).2 h).takes
  simp
  omega

theorem unopened_of_read_equals {c : Char} (h : (symbol .onLine '=').read text = some (c, rest)) :
    unopened text = unopened rest := by
  rw [read_symbol] at h
  obtain ⟨-, htok⟩ := Position.tokenOf?_char_eq_some.mp h
  exact unopened_token_char (by decide) (.of_token? htok)

/-- A line takes as many opening as closing parentheses, and it takes something. -/
theorem balance_of_read_bindLine (h : bindLine.read text = some (l, rest)) :
    unopened text = unopened rest ∧ rest.length < text.length := by
  obtain ⟨word, s₁, hword, h⟩ := read_bind_eq_some (fun _ => local_bindName.bind local_bindSign) h
  obtain ⟨name, s₂, hname, h⟩ := read_bind_eq_some local_bindSign h
  obtain ⟨sign, s₃, hsign, h⟩ := read_bind_eq_some (fun _ => local_bindTerm name) h
  obtain ⟨t, s₄, ht, h⟩ := read_bind_eq_some (fun _ => local_pure _) h
  rw [read_pure] at h
  cases h
  have hle₁ := (local_pattern letWord).length_le hword
  have hle₂ := local_bindName.length_le hname
  have hle₃ := (local_symbol .onLine '=').length_le hsign
  have hlt := length_lt_of_read_expression ht
  refine ⟨?_, by omega⟩
  calc unopened text
      = unopened s₁ := unopened_of_read_pattern (fun _ hc => letWord_accepts hc) hword
    _ = unopened s₂ := unopened_of_read_name hname
    _ = unopened s₃ := unopened_of_read_equals hsign
    _ = unopened rest := ((sound s₃ .onLine t rest).2 ht).unopened_eq

theorem balance_of_read_evalLine (h : evalLine.read text = some (l, rest)) :
    unopened text = unopened rest ∧ rest.length < text.length := by
  rw [evalLine, read_map] at h
  obtain ⟨⟨t, s⟩, ht, hstep⟩ := Option.map_eq_some_iff.mp h
  cases hstep
  exact ⟨((sound text .onLine t rest).2 ht).unopened_eq, length_lt_of_read_expression ht⟩

theorem balance_of_read_line (h : line.read text = some (l, rest)) :
    unopened text = unopened rest ∧ rest.length < text.length ∧
      text.dropWhile Text.isBlank ≠ [] := by
  have hle := (List.dropWhile_suffix (l := text) Text.isBlank).length_le
  rw [read_line, read_orElse, Option.or_eq_some_iff] at h
  have hcontent : unopened (text.dropWhile Text.isBlank) = unopened rest ∧
      rest.length < (text.dropWhile Text.isBlank).length :=
    h.elim balance_of_read_bindLine fun h => balance_of_read_evalLine h.2
  rw [unopened_dropWhile fun _ => id] at hcontent
  refine ⟨hcontent.1, by omega, fun hnil => ?_⟩
  rw [hnil] at hcontent
  exact absurd hcontent.2 (Nat.not_lt_zero _)

theorem stable_bindLine (h : Bounded .onLine text) : Stable ('\n' :: q) bindLine text := by
  refine (stable_pattern fun piece hp => letWord_accepts (.inl rfl) piece hp).bind
    (fun _ => local_bindName.bind local_bindSign) ?_
  intro word s₁ hword
  have h₁ := h.of_eq (unopened_of_read_pattern (fun _ hc => letWord_accepts hc) hword)
  have hname : Stable ('\n' :: q) (afterInlineBlanks (pattern identifier)) s₁ :=
    (stable_skipWhile (by decide)).seqRight (local_pattern identifier) fun _ _ _ =>
      stable_pattern fun piece hp => identifier_accepts (.inl rfl) piece hp
  refine hname.bind local_bindSign ?_
  intro name s₂ hname
  have h₂ := h₁.of_eq (unopened_of_read_name hname)
  refine (h₂.stable_symbol (by decide)).bind (fun _ => local_bindTerm name) ?_
  intro sign s₃ hsign
  have h₃ := h₂.of_eq (unopened_of_read_equals hsign)
  exact (steady q s₃ .onLine h₃).2.bind (fun _ => local_pure _) fun _ _ _ => stable_pure _

/-- Neither way to read a line goes on into the next one, and what fails still fails. -/
theorem stable_line (h : Bounded .onLine text) (hne : text.dropWhile Text.isBlank ≠ []) :
    Stable ('\n' :: q) line text := by
  have hcontent : (text ++ '\n' :: q).dropWhile Text.isBlank =
      text.dropWhile Text.isBlank ++ '\n' :: q := dropWhile_append_of_ne_nil hne
  have hbounded := h.of_eq (unopened_dropWhile (fun _ => id) text).symm
  rw [Stable, read_line, read_line, hcontent]
  exact (stable_bindLine hbounded).orElse ((steady q _ .onLine hbounded).2.map _)

end OneLine

section Lines

/-- The lines of a text, and what is left behind them and the blanks that follow them. -/
def readLines (text : List Char) : List Line × List Char :=
  let (lines, last) := manyWithin line (text.length + 1) ⟨[], text⟩
  (lines, last.rest.dropWhile Text.isBlank)

theorem read_many_line (text : List Char) :
    ((many line).read text).map (fun (lines, rest) => (lines, rest.dropWhile Text.isBlank)) =
      some (readLines text) :=
  rfl

theorem readLines_of_none (h : line.read text = none) :
    readLines text = ([], text.dropWhile Text.isBlank) := by
  have hread := read_many_line text
  rw [read_many_of_none h local_line] at hread
  exact (Option.some.inj hread).symm

theorem readLines_of_some (h : line.read text = some (l, rest)) :
    readLines text = (l :: (readLines rest).1, (readLines rest).2) := by
  have hread := read_many_line text
  rw [read_many_of_some h local_line (balance_of_read_line h).2.1, Option.map_map] at hread
  have hrest := read_many_line rest
  obtain ⟨step, hstep, hrest⟩ := Option.map_eq_some_iff.mp hrest
  rw [hstep] at hread
  rw [← hrest]
  exact (Option.some.inj hread).symm

/-- Blanks before the first line make no difference. -/
theorem readLines_dropWhile (text : List Char) :
    readLines (text.dropWhile Text.isBlank) = readLines text := by
  have hline : line.read (text.dropWhile Text.isBlank) = line.read text := by
    rw [read_line, read_line, List.dropWhile_idempotent]
  cases h : line.read text with
  | none => rw [readLines_of_none h, readLines_of_none (hline.trans h), List.dropWhile_idempotent]
  | some step => rw [readLines_of_some h, readLines_of_some (hline.trans h)]

theorem readLines_suffix (text : List Char) : (readLines text).2 <:+ text := by
  have hread := read_many_line text
  obtain ⟨⟨lines, rest⟩, hstep, heq⟩ := Option.map_eq_some_iff.mp hread
  rw [← heq]
  exact (List.dropWhile_suffix _).trans (local_line.many.suffix hstep)

theorem unopened_readLines (text : List Char) : unopened text = unopened (readLines text).2 := by
  induction hn : text.length using Nat.strongRecOn generalizing text with
  | _ n ih =>
      cases h : line.read text with
      | none => rw [readLines_of_none h, unopened_dropWhile fun _ => id]
      | some step =>
          obtain ⟨hbalance, hlt, -⟩ := balance_of_read_line h
          rw [readLines_of_some h, hbalance]
          exact ih _ (hn ▸ hlt) step.2 rfl

/-- What holds of every line that is read of an end of a text holds of all its lines. -/
theorem forall_mem_readLines {p : Line → Prop} (text : List Char)
    (h : ∀ {s l rest}, s <:+ text → line.read s = some (l, rest) → p l) :
    ∀ l ∈ (readLines text).1, p l := by
  induction hn : text.length using Nat.strongRecOn generalizing text with
  | _ n ih =>
      cases hline : line.read text with
      | none =>
          rw [readLines_of_none hline]
          exact fun _ hl => absurd hl List.not_mem_nil
      | some step =>
          obtain ⟨-, hlt, -⟩ := balance_of_read_line hline
          have hrest := local_line.suffix hline
          rw [readLines_of_some hline]
          refine List.forall_mem_cons.mpr ⟨h (List.suffix_refl text) hline, ?_⟩
          exact ih _ (hn ▸ hlt) step.2 (fun hs => h (hs.trans hrest)) rfl

/-- Below a text of which nothing is left, lines are read as if they stood alone. -/
theorem readLines_append (h : (readLines text).2 = []) (q : List Char) :
    readLines (text ++ '\n' :: q) = ((readLines text).1 ++ (readLines q).1, (readLines q).2) := by
  have hbounded : Bounded .onLine text := ⟨0, by rw [unopened_readLines, h]; rfl⟩
  induction hn : text.length using Nat.strongRecOn generalizing text with
  | _ n ih =>
      cases hline : line.read text with
      | none =>
          -- Nothing is left, so the text is blank, and the first line of all is that of `q`.
          rw [readLines_of_none hline] at h ⊢
          have hblanks : (text ++ '\n' :: q).dropWhile Text.isBlank = q.dropWhile Text.isBlank := by
            rw [List.dropWhile_append, if_pos (by rw [List.isEmpty_iff]; exact h),
              List.dropWhile_cons_of_pos (by decide)]
          rw [← readLines_dropWhile, hblanks, readLines_dropWhile]
          rfl
      | some step =>
          obtain ⟨l, rest⟩ := step
          obtain ⟨hbalance, hlt, hne⟩ := balance_of_read_line hline
          have hmore := (stable_line (q := q) hbounded hne).eq_some hline
          rw [readLines_of_some hline] at h ⊢
          rw [readLines_of_some hmore, ih _ (hn ▸ hlt) h (hbounded.of_eq hbalance) rfl]
          rfl

end Lines

end NormalOrder.Grammar

namespace NormalOrder.Program

open Grammar

/-- Reading a program, told by its lines. -/
theorem parse_eq (text : String) :
    parse text =
      if (text.toList.dropWhile Text.isBlank).isEmpty then .error .nothing
      else if (readLines text.toList).2.isEmpty then .ok (readLines text.toList).1
      else .error (.leaving text.toList (readLines text.toList).2) := by
  have hread := read_many_line (text.toList.dropWhile Text.isBlank)
  obtain ⟨⟨lines, rest⟩, hstep, heq⟩ := Option.map_eq_some_iff.mp hread
  rw [readLines_dropWhile] at heq
  rw [parse, Parser.readAll_eq local_line.many]
  dsimp only
  rw [hstep, ← heq]

theorem parse_eq_ok_iff {text : String} {lines : Program} :
    parse text = .ok lines ↔
      text.toList.dropWhile Text.isBlank ≠ [] ∧ readLines text.toList = (lines, []) := by
  rw [parse_eq]
  constructor
  · intro h
    split at h
    · cases h
    · rename_i hcontent
      split at h
      · rename_i hlast
        cases h
        rw [List.isEmpty_iff] at hcontent hlast
        exact ⟨hcontent, Prod.ext rfl hlast⟩
      · cases h
  · rintro ⟨hcontent, hlines⟩
    rw [hlines, if_neg (by rw [List.isEmpty_iff]; exact hcontent)]
    rfl

theorem readLines_of_blanks {text : List Char} (h : text.dropWhile Text.isBlank = []) :
    readLines text = ([], []) := by
  cases hline : line.read text with
  | none => rw [readLines_of_none hline, h]
  | some step => exact absurd h (balance_of_read_line hline).2.2

/-- A line that asks for a value is read where an expression is, if only blanks follow it: it is no
binding then. -/
theorem readLines_of_read_expression {text rest : List Char} {t : Term}
    (h : (expression .onLine).read (text.dropWhile Text.isBlank) = some (t, rest))
    (hblanks : ∀ c ∈ rest, Text.isBlank c = true) : readLines text = ([.eval t], []) := by
  have hline : line.read text = some (.eval t, rest) := by
    rw [read_line, Parser.read_orElse, read_bindLine_of_expression h hblanks, Option.none_or,
      evalLine, Parser.read_map, h]
    rfl
  rw [readLines_of_some hline, readLines_of_blanks (List.dropWhile_eq_nil_iff.mpr hblanks)]

/-- The only line of a text ends before blanks, so that no second one was tried in vain. -/
theorem read_expression_of_readLines {text : List Char} {t : Term}
    (h : readLines text = ([.eval t], [])) :
    ∃ rest, (expression .onLine).read (text.dropWhile Text.isBlank) = some (t, rest) ∧
      ∀ c ∈ rest, Text.isBlank c = true := by
  cases hline : line.read text with
  | none =>
      rw [readLines_of_none hline] at h
      cases congrArg Prod.fst h
  | some step =>
      obtain ⟨l, rest⟩ := step
      rw [readLines_of_some hline] at h
      obtain ⟨hlines, hlast⟩ := Prod.mk.inj h
      obtain ⟨rfl, hmore⟩ := List.cons.inj hlines
      refine ⟨rest, ?_, ?_⟩
      · rw [read_line, Parser.read_orElse, Option.or_eq_some_iff] at hline
        rcases hline with hbind | ⟨-, heval⟩
        · obtain ⟨x, u, heq⟩ := exists_bind_of_read_bindLine hbind
          cases heq
        · rw [evalLine, Parser.read_map] at heval
          obtain ⟨⟨u, s⟩, hread, hstep⟩ := Option.map_eq_some_iff.mp heval
          cases hstep
          exact hread
      · cases hnext : line.read rest with
        | none =>
            rw [readLines_of_none hnext] at hlast
            exact List.dropWhile_eq_nil_iff.mp hlast
        | some step =>
            rw [readLines_of_some hnext] at hmore
            cases hmore

/-- A text is a term if and only if it is a program of one line that asks for the term. -/
theorem parse_eval_iff (text : String) (t : Term) :
    Term.parse text = .ok t ↔ parse text = .ok [.eval t] := by
  rw [Term.parse, Parser.readAll_eq_ok_iff (local_expression .onLine), parse_eq_ok_iff]
  constructor
  · rintro ⟨hcontent, rest, hread, hblanks⟩
    exact ⟨hcontent, readLines_of_read_expression hread hblanks⟩
  · rintro ⟨hcontent, hlines⟩
    exact ⟨hcontent, read_expression_of_readLines hlines⟩

/-- Below a program that is read, a text is read as if it stood alone. Its lines follow those of the
program, and where it is in error, the error is at the same place of it. -/
theorem parse_append_line {p : String} {lines : Program} (hp : parse p = .ok lines) (q : String) :
    parse (p ++ "\n" ++ q) =
      match parse q with
      | .ok more => .ok (lines ++ more)
      | .error .nothing => .ok lines
      | .error (.unexpected found line) =>
        .error (.unexpected found (line + p.toList.count '\n' + 1)) := by
  obtain ⟨hcontent, hlines⟩ := parse_eq_ok_iff.mp hp
  have htext : (p ++ "\n" ++ q).toList = p.toList ++ '\n' :: q.toList := by simp
  have happend : readLines (p ++ "\n" ++ q).toList =
      (lines ++ (readLines q.toList).1, (readLines q.toList).2) := by
    rw [htext, readLines_append (by rw [hlines]) q.toList, hlines]
  have hne : ¬ ((p ++ "\n" ++ q).toList.dropWhile Text.isBlank).isEmpty = true := by
    rw [htext, Parser.dropWhile_append_of_ne_nil hcontent]
    simp
  rw [parse_eq, if_neg hne, happend, parse_eq]
  by_cases hblank : q.toList.dropWhile Text.isBlank = []
  · rw [readLines_of_blanks hblank, if_pos (List.isEmpty_iff.mpr hblank), List.append_nil]
    rfl
  · rw [if_neg (mt List.isEmpty_iff.mp hblank)]
    by_cases hlast : (readLines q.toList).2.isEmpty = true
    · rw [if_pos hlast, if_pos hlast]
    · rw [if_neg hlast, if_neg hlast, ParseError.leaving, ParseError.leaving]
      -- What is left belongs to `q`, so all line breaks of `p` stand before it.
      have hcount := (readLines_suffix q.toList).sublist.count_le '\n'
      have htotal : (p ++ "\n" ++ q).toList.count '\n' =
          p.toList.count '\n' + 1 + q.toList.count '\n' := by
        rw [htext, List.count_append, List.count_cons_self]
        omega
      dsimp only
      rw [htotal]
      congr 2
      omega

theorem parse_append_line_of_open_parenthesis :
    parse "let i = λx.x\n(i\n y)" =
        .ok [.bind "i" (.lam "x" (.var "x")), .eval (.app (.var "i") (.var "y"))] ∧
      parse ("let i = λx.x\n(i\n y)" ++ "\n" ++ "a\n (b") = .error (.unexpected "(b" 5) := by
  have hp : parse "let i = λx.x\n(i\n y)" =
      .ok [.bind "i" (.lam "x" (.var "x")), .eval (.app (.var "i") (.var "y"))] := by
    decide +kernel
  have hq : parse "a\n (b" = .error (.unexpected "(b" 2) := by decide +kernel
  refine ⟨hp, ?_⟩
  rw [parse_append_line hp, hq]
  rfl

end NormalOrder.Program
