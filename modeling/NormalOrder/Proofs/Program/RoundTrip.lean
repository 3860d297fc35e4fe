/- Programs are read back from their printed lines.

A line is printed without a line break, so what is read of it in front of the other lines is what is
read of it alone. A binding begins with `let` and a blank, and no printed term does: behind a
variable `l` a printed term ends. -/
import NormalOrder.Proofs.Grammar.RoundTrip
import NormalOrder.Proofs.Program.Lines

namespace NormalOrder

open Grammar

/-- A name that a binding may have: at least one letter or numeral, and nothing else. -/
structure Name.IsIdentifier (x : Name) : Prop where
  nonempty : x.toList ≠ []
  letters : ∀ c ∈ x.toList, Text.isLetterOrNumeral c = true

/-- A term that the grammar can spell: it holds no number, and only names that the grammar has. -/
structure Term.Spellable (t : Term) : Prop where
  numbers : t.numbers = 0
  names : ∀ x ∈ t.names, x.IsVariable

/-- A line that the grammar can spell. -/
inductive Line.Spellable : Line → Prop
  | bind {x : Name} {t : Term} (name : x.IsIdentifier) (term : t.Spellable) : Spellable (.bind x t)
  | eval {t : Term} (term : t.Spellable) : Spellable (.eval t)

instance (x : Name) : Decidable x.IsVariable :=
  decidable_of_iff (x.toList.any (fun c => isVariableChar c && x == c.toString) = true) <| by
    rw [List.any_eq_true]
    constructor
    · rintro ⟨c, -, hc⟩
      rw [Bool.and_eq_true, beq_iff_eq] at hc
      exact ⟨c, hc⟩
    · rintro ⟨c, hc, rfl⟩
      exact ⟨c, by simp [Char.toString], by simp [hc]⟩

instance (x : Name) : Decidable x.IsIdentifier :=
  decidable_of_iff (x.toList ≠ [] ∧ x.toList.all Text.isLetterOrNumeral = true)
    ⟨fun h => ⟨h.1, List.all_eq_true.mp h.2⟩, fun h => ⟨h.nonempty, List.all_eq_true.mpr h.letters⟩⟩

instance (t : Term) : Decidable t.Spellable :=
  decidable_of_iff (t.numbers = 0 ∧ ∀ x ∈ t.names, x.IsVariable)
    ⟨fun h => ⟨h.1, h.2⟩, fun h => ⟨h.numbers, h.names⟩⟩

instance : (l : Line) → Decidable l.Spellable
  | .bind x t => decidable_of_iff (x.IsIdentifier ∧ t.Spellable)
      ⟨fun h => .bind h.1 h.2, fun | .bind name term => ⟨name, term⟩⟩
  | .eval t => decidable_of_iff t.Spellable ⟨.eval, fun | .eval term => term⟩

theorem Line.toList_inline_bind (x : Name) (t : Term) :
    (bind x t).inline.toList =
      'l' :: 'e' :: 't' :: ' ' :: (x.toList ++ ' ' :: '=' :: ' ' :: t.write []) := by
  simp [inline, Term.inline, toString]

theorem Line.toList_inline_eval (t : Term) : (eval t).inline.toList = t.write [] := by
  simp [inline, Term.inline]

namespace Grammar

open NormalOrder.Parser

variable {c : Char} {ds s : List Char} {t : Term} {l : Line}

theorem isInlineBlank_eq_false_of_isLetterOrNumeral (h : Text.isLetterOrNumeral c = true) :
    Text.isInlineBlank c = false := by
  have hspace : Text.isLetterOrNumeral ' ' = false := by decide +kernel
  have htab : Text.isLetterOrNumeral '\t' = false := by decide +kernel
  rw [Text.isInlineBlank, Bool.or_eq_false_iff, beq_eq_false_iff_ne, beq_eq_false_iff_ne]
  constructor
  · rintro rfl
    rw [hspace] at h
    cases h
  · rintro rfl
    rw [htab] at h
    cases h

theorem read_letWord (hc : Text.isInlineBlank c = true) (s : List Char) :
    (pattern letWord).read ('l' :: 'e' :: 't' :: c :: s) = some (['l', 'e', 't', c], s) := by
  have hlength : matchLength? letWord ('l' :: 'e' :: 't' :: c :: s) = some 4 := by
    refine matchLength?_one_eq_some.mpr ⟨'l', _, 3, rfl, rfl, ?_, rfl⟩
    refine matchLength?_one_eq_some.mpr ⟨'e', _, 2, rfl, rfl, ?_, rfl⟩
    refine matchLength?_one_eq_some.mpr ⟨'t', _, 1, rfl, rfl, ?_, rfl⟩
    exact matchLength?_one_eq_some.mpr ⟨c, s, 0, rfl, hc, rfl, rfl⟩
  rw [read_pattern, hlength]
  rfl

/-- Letters and numerals are read up to the first character of another kind. -/
theorem read_identifier (hne : ds ≠ []) (hds : ∀ d ∈ ds, Text.isLetterOrNumeral d = true)
    (hc : Text.isLetterOrNumeral c = false) :
    (afterInlineBlanks (pattern identifier)).read (ds ++ c :: s) = some (ds, c :: s) := by
  have hread := read_afterBlanks (local_pattern identifier) .onLine (ds ++ c :: s)
  refine Eq.trans hread ?_
  obtain ⟨d, more, rfl⟩ := List.exists_cons_of_ne_nil hne
  have hd := hds d (List.mem_cons_self ..)
  have hblank : ¬ Position.onLine.isBlank d = true := by
    rw [Position.isBlank, isInlineBlank_eq_false_of_isLetterOrNumeral hd]
    exact Bool.false_ne_true
  have htake : (d :: more ++ c :: s).takeWhile Text.isLetterOrNumeral = d :: more := by
    rw [List.takeWhile_append_of_pos hds, List.takeWhile_cons_of_neg (by simp [hc]),
      List.append_nil]
  have hlength : matchLength? identifier (d :: more ++ c :: s) = some (d :: more).length := by
    simp only [identifier, matchLength?, Piece.length?, htake]
    simp [hd]
  rw [List.cons_append, List.dropWhile_cons_of_neg hblank, ← List.cons_append, read_pattern,
    hlength, Option.map_some, List.take_left', List.drop_left'] <;> rfl

/-- The parts of a binding, one after the other. -/
theorem read_bindLine (text : List Char) :
    bindLine.read text =
      ((pattern letWord).read text).bind fun (_, s) =>
        ((afterInlineBlanks (pattern identifier)).read s).bind fun (name, s) =>
          (Position.onLine.tokenOf? (· == '=') s).bind fun (_, s) =>
            ((expression .onLine).read s).map fun (t, rest) =>
              (.bind (String.ofList name) t, rest) := by
  have hsign : ∀ s, (afterInlineBlanks (character '=')).read s =
      Position.onLine.tokenOf? (· == '=') s := read_symbol .onLine '='
  refine Eq.trans (read_bind fun _ => local_bindName.bind local_bindSign) ?_
  apply Option.bind_congr
  rintro ⟨word, s⟩ -
  refine Eq.trans (read_bind local_bindSign) ?_
  apply Option.bind_congr
  rintro ⟨name, s⟩ -
  refine Eq.trans (read_bind fun _ => local_bindTerm name) ?_
  rw [hsign]
  apply Option.bind_congr
  rintro ⟨sign, s⟩ -
  exact read_map _

theorem read_bindLine_inline {x : Name} (hx : x.IsIdentifier) (ht : t.Spellable) :
    bindLine.read (Line.bind x t).inline.toList = some (.bind x t, []) := by
  have hspace : Text.isLetterOrNumeral ' ' = false := by decide +kernel
  have hsign : Position.onLine.tokenOf? (· == '=') (' ' :: '=' :: ' ' :: t.write []) =
      some ('=', ' ' :: t.write []) := Position.tokenOf?_char_eq_some.mpr ⟨rfl, rfl⟩
  rw [Line.toList_inline_bind, read_bindLine, read_letWord (by decide), Option.bind_some]
  dsimp only
  rw [read_identifier hx.nonempty hx.letters hspace, Option.bind_some]
  dsimp only
  rw [hsign, Option.bind_some]
  dsimp only
  rw [read_expression_space, read_expression_write ht.numbers ht.names, Option.map_some,
    String.ofList_toList]

theorem isIdentifier_of_matchLength? {text : List Char} {n : Nat}
    (h : matchLength? identifier text = some n) :
    Name.IsIdentifier (String.ofList (text.take n)) := by
  constructor
  · cases text with
    | nil => cases h
    | cons c s =>
        obtain ⟨k, hk, hm⟩ := Option.bind_eq_some_iff.mp h
        cases hm
        rw [Piece.length?] at hk
        split at hk
        · rename_i hc
          cases hk
          have hc : Text.isLetterOrNumeral c = true := by simpa using hc
          simp [hc]
        · cases hk
  · intro c hc
    rw [String.toList_ofList] at hc
    obtain ⟨piece, hpiece, haccepts⟩ := exists_accepts_of_matchLength? h c hc
    rw [List.mem_singleton.mp hpiece] at haccepts
    exact haccepts

theorem identifier_of_read {text name rest : List Char}
    (h : (afterInlineBlanks (pattern identifier)).read text = some (name, rest)) :
    ∃ blanks, (∀ c ∈ blanks, Text.isInlineBlank c = true) ∧
      Name.IsIdentifier (String.ofList name) ∧ text = blanks ++ (name ++ rest) := by
  have hread := (read_afterBlanks (local_pattern identifier) .onLine text).symm.trans h
  rw [read_pattern] at hread
  obtain ⟨n, hn, hstep⟩ := Option.map_eq_some_iff.mp hread
  cases hstep
  refine ⟨text.takeWhile Text.isInlineBlank, fun c hc => List.mem_takeWhile_imp hc,
    isIdentifier_of_matchLength? hn, ?_⟩
  rw [List.take_append_drop]
  exact List.takeWhile_append_dropWhile.symm

/-- The names in a line that was read: only an identifier is bound, and only variables stand in the
term. -/
theorem names_of_read_line {text rest : List Char} (h : line.read text = some (l, rest)) :
    (∀ x t, l = .bind x t → x.IsIdentifier) ∧ ∀ x ∈ l.term.names, x.IsVariable := by
  rw [read_line, read_orElse, Option.or_eq_some_iff] at h
  rcases h with h | ⟨-, h⟩
  · rw [read_bindLine] at h
    obtain ⟨⟨word, s₁⟩, -, h⟩ := Option.bind_eq_some_iff.mp h
    obtain ⟨⟨name, s₂⟩, hname, h⟩ := Option.bind_eq_some_iff.mp h
    obtain ⟨⟨sign, s₃⟩, -, h⟩ := Option.bind_eq_some_iff.mp h
    obtain ⟨⟨t, s₄⟩, ht, h⟩ := Option.map_eq_some_iff.mp h
    cases h
    refine ⟨?_, ((sound s₃ .onLine t rest).2 ht).isVariable_of_mem_names⟩
    rintro _ _ ⟨⟩
    obtain ⟨-, -, hidentifier, -⟩ := identifier_of_read hname
    exact hidentifier
  · rw [evalLine, read_map] at h
    obtain ⟨⟨t, s⟩, ht, h⟩ := Option.map_eq_some_iff.mp h
    cases h
    refine ⟨?_, ((sound _ .onLine t rest).2 ht).isVariable_of_mem_names⟩
    rintro _ _ ⟨⟩

/-- A printed term is no binding, also where it is the variable `l`: no blank stands in it but in
parentheses. -/
theorem read_bindLine_write (ht : t.Spellable) : bindLine.read (t.write []) = none := by
  have hword : (pattern letWord).read (t.write []) = none := by
    rw [read_pattern]
    cases t with
    | var x =>
        obtain ⟨c, hc, rfl⟩ := ht.names x (by simp [Term.names])
        simp [Term.write, letWord, matchLength?, Piece.length?, Char.toString]
    | lam x b => simp [Term.write, letWord, matchLength?, Piece.length?]
    | app f a => simp [Term.write, letWord, matchLength?, Piece.length?]
    | num v => exact absurd ht.numbers (by simp [Term.numbers])
  rw [read_bindLine, hword, Option.bind_none]

/-- A printed line is read back. -/
theorem read_line_inline (h : l.Spellable) : line.read l.inline.toList = some (l, []) := by
  cases h with
  | bind hx ht =>
      have hread := read_bindLine_inline hx ht
      rw [Line.toList_inline_bind] at hread ⊢
      rw [read_line, List.dropWhile_cons_of_neg (by decide), read_orElse, hread]
      rfl
  | @eval t ht =>
      obtain ⟨c, s, hwrite, hc⟩ := Term.exists_cons_write ht.numbers ht.names
      have hdrop : (t.write []).dropWhile Text.isBlank = t.write [] := by
        rw [hwrite, List.dropWhile_cons_of_neg (by rw [hc]; exact Bool.false_ne_true)]
      rw [Line.toList_inline_eval, read_line, hdrop, read_orElse, read_bindLine_write ht,
        Option.none_or, evalLine, read_map, read_expression_write ht.numbers ht.names]
      rfl

theorem readLines_inline (h : l.Spellable) : readLines l.inline.toList = ([l], []) := by
  rw [readLines_of_some (read_line_inline h), Program.readLines_of_blanks rfl]

/-- Printed lines, one below the other, are read back. -/
theorem readLines_intercalate_inline {lines : List Line} (h : ∀ l ∈ lines, l.Spellable) :
    readLines ("\n".intercalate (lines.map Line.inline)).toList = (lines, []) := by
  induction lines with
  | nil => exact Program.readLines_of_blanks rfl
  | cons l lines ih =>
      have hl := readLines_inline (h l (List.mem_cons_self ..))
      have hlines := ih fun m hm => h m (List.mem_cons_of_mem _ hm)
      cases lines with
      | nil => simpa using hl
      | cons m lines =>
          have htext : ("\n".intercalate ((l :: m :: lines).map Line.inline)).toList =
              l.inline.toList ++ '\n' ::
                ("\n".intercalate ((m :: lines).map Line.inline)).toList := by
            simp
          rw [htext, readLines_append (by rw [hl]), hl, hlines]
          rfl

end Grammar

namespace Program

variable {text : String} {program : Program}

/-- The names in a program that was read. -/
theorem names_of_parse (h : parse text = .ok program) :
    ∀ l ∈ program,
      (∀ x t, l = .bind x t → x.IsIdentifier) ∧ ∀ x ∈ l.term.names, x.IsVariable := by
  have hall := forall_mem_readLines text.toList fun _ => names_of_read_line
  rw [(parse_eq_ok_iff.mp h).2] at hall
  exact hall

/-- A program of lines that the grammar can spell is read back from its printed lines, whatever
their order and whatever the names are. -/
theorem parse_intercalate_inline {lines : Program} (hne : lines ≠ [])
    (h : ∀ l ∈ lines, l.Spellable) :
    parse ("\n".intercalate (lines.map Line.inline)) = .ok lines := by
  refine parse_eq_ok_iff.mpr ⟨?_, readLines_intercalate_inline h⟩
  intro hblank
  have hnil := readLines_of_blanks hblank
  rw [readLines_intercalate_inline h] at hnil
  exact hne (congrArg Prod.fst hnil)

/-- Lines with names that the words and the signs of other lines begin with. -/
def crossedLines : Program :=
  [.eval (.var "l"), .bind "let" (.lam "=" (.var "l")), .eval (.app (.var "l") (.var "=")),
    .bind "λ2" (.var "β"), .eval (.lam "l" (.lam "e" (.var "t"))), .bind "l" (.var "=")]

theorem parse_intercalate_inline_crossedLines :
    "\n".intercalate (crossedLines.map Line.inline) =
        "l\nlet let = λ=.l\n(l =)\nlet λ2 = β\nλl.λe.t\nlet l = =" ∧
      parse ("\n".intercalate (crossedLines.map Line.inline)) = .ok crossedLines :=
  ⟨by decide +kernel, parse_intercalate_inline (by decide) (by decide +kernel)⟩

end Program

end NormalOrder
