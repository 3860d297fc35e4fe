/- How terms are read from a text.

Every token is told by its first character after the blanks, so each way to read a term is one of
four, and the nesting that the reader allows is never too small. -/
import NormalOrder.Proofs.Parsing.Reading
import NormalOrder.Term.Grammar

namespace NormalOrder.Grammar

open NormalOrder.Parser

/-- The blanks that may stand before a token. -/
def Position.isBlank : Position → Char → Bool
  | onLine => Text.isInlineBlank
  | nested => Text.isBlank

/-- The first character after the blanks, and what follows it. -/
def Position.token? (pos : Position) (text : List Char) : Option (Char × List Char) :=
  match text.dropWhile pos.isBlank with
  | [] => none
  | c :: rest => some (c, rest)

/-- As `Position.token?`, if the character is of the given kind. -/
def Position.tokenOf? (pos : Position) (accepts : Char → Bool) (text : List Char) :
    Option (Char × List Char) :=
  (pos.token? text).filter fun (c, _) => accepts c

def isLambda (c : Char) : Bool :=
  c == '\\' || c == 'λ'

variable {pos : Position} {text rest : List Char} {c : Char}

theorem Position.isBlank_of_isBlank (h : pos.isBlank c = true) : Text.isBlank c = true := by
  cases pos with
  | onLine => exact Text.isBlank_of_isInlineBlank h
  | nested => exact h

theorem Position.length_lt_of_token? (h : pos.token? text = some (c, rest)) :
    rest.length < text.length := by
  have hle := (List.dropWhile_suffix (l := text) pos.isBlank).length_le
  rw [token?] at h
  split at h
  · cases h
  · rename_i d more hdrop
    cases h
    rw [hdrop, List.length_cons] at hle
    exact hle

theorem Position.tokenOf?_eq_some {accepts : Char → Bool} :
    pos.tokenOf? accepts text = some (c, rest) ↔
      pos.token? text = some (c, rest) ∧ accepts c = true := by
  simp [tokenOf?, Option.filter_eq_some_iff]

theorem Position.tokenOf?_char_eq_some {expected : Char} :
    pos.tokenOf? (· == expected) text = some (c, rest) ↔
      c = expected ∧ pos.token? text = some (expected, rest) := by
  rw [tokenOf?_eq_some, beq_iff_eq]
  constructor
  · rintro ⟨h, rfl⟩
    exact ⟨rfl, h⟩
  · rintro ⟨rfl, h⟩
    exact ⟨h, rfl⟩

section Tokens

theorem local_blanks (pos : Position) : pos.blanks.Local := by
  cases pos with
  | onLine => exact local_skipWhile Text.isInlineBlank
  | nested => exact local_skipWhile Text.isBlank

theorem read_blanks (pos : Position) (text : List Char) :
    pos.blanks.read text = some ((), text.dropWhile pos.isBlank) := by
  cases pos with
  | onLine => exact read_skipWhile Text.isInlineBlank
  | nested => exact read_skipWhile Text.isBlank

theorem read_afterBlanks {α : Type} {p : Parser α} (hp : p.Local) (pos : Position)
    (text : List Char) : (pos.blanks *> p).read text = p.read (text.dropWhile pos.isBlank) := by
  rw [read_seqRight hp, read_blanks]
  rfl

/-- Characters of a kind are tokens by themselves. -/
theorem read_token (pos : Position) (accepts : Char → Bool) (text : List Char) :
    (pos.blanks *> satisfy accepts).read text = pos.tokenOf? accepts text := by
  rw [read_afterBlanks (local_satisfy accepts), read_satisfy, Position.tokenOf?, Position.token?]
  cases text.dropWhile pos.isBlank with
  | nil => rfl
  | cons c rest => rfl

theorem local_symbol (pos : Position) (expected : Char) : (symbol pos expected).Local :=
  (local_blanks pos).seqRight (local_satisfy _)

theorem read_symbol (pos : Position) (expected : Char) (text : List Char) :
    (symbol pos expected).read text = pos.tokenOf? (· == expected) text :=
  read_token pos _ text

theorem local_lambda (pos : Position) : (lambda pos).Local :=
  (local_blanks pos).seqRight ((local_satisfy _).orElse (local_satisfy _))

theorem read_lambda (pos : Position) (text : List Char) :
    (lambda pos).read text = pos.tokenOf? isLambda text := by
  have hlocal : (character '\\' <|> character 'λ').Local :=
    (local_satisfy _).orElse (local_satisfy _)
  rw [lambda, read_afterBlanks hlocal, read_orElse, character, character, read_satisfy,
    read_satisfy, Position.tokenOf?, Position.token?]
  cases text.dropWhile pos.isBlank with
  | nil => rfl
  | cons c rest =>
      by_cases hb : c = '\\'
      · simp [hb, isLambda, Option.filter_some]
      · by_cases hl : c = 'λ' <;> simp [hb, hl, isLambda, Option.filter_some]

theorem local_variableName (pos : Position) : (variableName pos).Local :=
  ((local_blanks pos).seqRight (local_satisfy _)).map _

theorem read_variableName (pos : Position) (text : List Char) :
    (variableName pos).read text =
      (pos.tokenOf? isVariableChar text).map fun (c, rest) => (c.toString, rest) := by
  rw [variableName, read_map, read_token]

theorem local_variableTerm (pos : Position) : (variableTerm pos).Local :=
  (local_variableName pos).map _

theorem read_variableTerm (pos : Position) (text : List Char) :
    (variableTerm pos).read text =
      (pos.tokenOf? isVariableChar text).map fun (c, rest) => (.var c.toString, rest) := by
  rw [variableTerm, read_map, read_variableName, Option.map_map]
  rfl

theorem local_number (pos : Position) : (number pos).Local :=
  ((local_blanks pos).seqRight (local_pattern digitRun)).map _

/-- A number is the longest run of digits. -/
theorem read_number (pos : Position) (text : List Char) :
    (number pos).read text =
      (pos.tokenOf? Char.isDigit text).map fun (c, rest) =>
        (.num (Decimal.ofDigits ((c :: rest).takeWhile Char.isDigit)),
          (c :: rest).dropWhile Char.isDigit) := by
  rw [number, read_map, read_afterBlanks (local_pattern digitRun), read_pattern,
    Position.tokenOf?, Position.token?]
  cases text.dropWhile pos.isBlank with
  | nil => rfl
  | cons c rest =>
      by_cases hc : c.isDigit = true
      · have htake : rest.take (rest.takeWhile Char.isDigit).length = rest.takeWhile Char.isDigit :=
          (List.prefix_iff_eq_take.mp (List.takeWhile_prefix _)).symm
        have hdrop : rest.drop (rest.takeWhile Char.isDigit).length = rest.dropWhile Char.isDigit :=
          Cursor.rest_skipWhile Char.isDigit ⟨[], rest⟩
        simp [digitRun, matchLength?, Piece.length?, Option.filter_some, hc, htake, hdrop]
      · simp [digitRun, matchLength?, Piece.length?, Option.filter_some, hc]

end Tokens

section Parts

variable {body argument expression : Parser Term} {term expressions : Position → Parser Term}
  {t : Term}

/-- What follows the `λ` of an abstraction. -/
def abstractionBody (body : Parser Term) (pos : Position) : Parser Term := do
  let param ← variableName pos
  let _ ← symbol pos '.'
  let body ← body
  return .lam param body

/-- A function applied to what `argument` reads behind it, if it reads anything. -/
def withArgument (argument : Parser Term) (step : Term × List Char) : Term × List Char :=
  match argument.read step.2 with
  | some (a, rest) => (.app step.1 a, rest)
  | none => step

/-- What follows an opening parenthesis, the closing one included. -/
def content (term expression : Position → Parser Term) : Parser Term :=
  appliedAbstraction (term .nested) (expression .nested) .nested <* symbol .nested ')'
    <|> application (expression .nested) <* symbol .nested ')'

theorem local_abstractionBody (hb : body.Local) (pos : Position) :
    (abstractionBody body pos).Local :=
  (local_variableName pos).bind fun _ => (local_symbol pos '.').bind fun _ =>
    hb.bind fun _ => local_pure _

theorem read_abstractionBody (hb : body.Local) (pos : Position) (text : List Char) :
    (abstractionBody body pos).read text =
      (pos.tokenOf? isVariableChar text).bind fun (c, s) =>
        (pos.tokenOf? (· == '.') s).bind fun (_, s) =>
          (body.read s).map fun (b, rest) => (.lam c.toString b, rest) := by
  have hlam : ∀ param : Name, (body >>= fun b => pure (Term.lam param b)).Local :=
    fun _ => hb.bind fun _ => local_pure _
  rw [abstractionBody, read_bind fun _ => (local_symbol pos '.').bind fun _ => hlam _,
    read_variableName]
  cases pos.tokenOf? isVariableChar text with
  | none => rfl
  | some step =>
      simp only [Option.map_some, Option.bind_some]
      rw [read_bind fun _ => hlam _, read_symbol]
      apply Option.bind_congr
      intro dot _
      exact read_map _

theorem local_abstraction (hb : body.Local) (pos : Position) : (abstraction body pos).Local :=
  (local_lambda pos).bind fun _ => local_abstractionBody hb pos

theorem read_abstraction (hb : body.Local) (pos : Position) (text : List Char) :
    (abstraction body pos).read text =
      (pos.tokenOf? isLambda text).bind fun (_, s) => (abstractionBody body pos).read s := by
  have hread : (lambda pos >>= fun _ => abstractionBody body pos).read text = _ :=
    read_bind fun _ => local_abstractionBody hb pos
  rw [read_lambda] at hread
  exact hread

theorem local_appliedAbstraction (hb : body.Local) (ha : argument.Local) (pos : Position) :
    (appliedAbstraction body argument pos).Local :=
  (local_abstraction hb pos).bind fun _ => (ha.map _).orElse (local_pure _)

theorem read_appliedAbstraction (ha : argument.Local) (pos : Position) (text : List Char) :
    (appliedAbstraction body argument pos).read text =
      ((abstraction body pos).read text).map (withArgument argument) := by
  rw [appliedAbstraction, read_bind fun _ => (ha.map _).orElse (local_pure _), Option.map_eq_bind]
  apply Option.bind_congr
  rintro ⟨f, s⟩ -
  dsimp only
  rw [read_orElse, read_map, read_pure, Function.comp_apply, withArgument]
  cases argument.read s with
  | none => rfl
  | some step => rfl

theorem local_application (he : expression.Local) : (application expression).Local :=
  he.bind fun _ => he.bind fun _ => local_pure _

theorem read_application (he : expression.Local) (text : List Char) :
    (application expression).read text =
      (expression.read text).bind fun (f, s) =>
        (expression.read s).map fun (a, rest) => (.app f a, rest) := by
  rw [application, read_bind fun _ => he.bind fun _ => local_pure _]
  apply Option.bind_congr
  intro step _
  exact read_map _

theorem read_closed {p : Parser Term} (text : List Char) :
    (p <* symbol .nested ')').read text =
      (p.read text).bind fun (t, s) =>
        (Position.nested.tokenOf? (· == ')') s).map fun (_, rest) => (t, rest) := by
  rw [read_seqLeft (local_symbol .nested ')')]
  apply Option.bind_congr
  rintro ⟨t, s⟩ -
  dsimp only
  rw [read_symbol]

theorem read_closed_eq_some {p : Parser Term} :
    (p <* symbol .nested ')').read text = some (t, rest) ↔
      ∃ s, p.read text = some (t, s) ∧ Position.nested.token? s = some (')', rest) := by
  rw [read_closed, Option.bind_eq_some_iff]
  constructor
  · rintro ⟨⟨u, s⟩, hp, h⟩
    obtain ⟨⟨close, last⟩, hclose, hu⟩ := Option.map_eq_some_iff.mp h
    cases hu
    exact ⟨s, hp, (Position.tokenOf?_char_eq_some.mp hclose).2⟩
  · rintro ⟨s, hp, hclose⟩
    refine ⟨(t, s), hp, Option.map_eq_some_iff.mpr ⟨(')', rest), ?_, rfl⟩⟩
    exact Position.tokenOf?_char_eq_some.mpr ⟨rfl, hclose⟩

theorem local_content (ht : (term .nested).Local) (he : (expressions .nested).Local) :
    (content term expressions).Local :=
  ((local_appliedAbstraction ht he .nested).seqLeft (local_symbol .nested ')')).orElse
    ((local_application he).seqLeft (local_symbol .nested ')'))

theorem local_parenthesized (ht : (term .nested).Local) (he : (expressions .nested).Local)
    (pos : Position) : (parenthesized term expressions pos).Local :=
  (local_symbol pos '(').seqRight (local_content ht he)

theorem read_parenthesized (ht : (term .nested).Local) (he : (expressions .nested).Local)
    (pos : Position) (text : List Char) :
    (parenthesized term expressions pos).read text =
      (pos.tokenOf? (· == '(') text).bind fun (_, s) => (content term expressions).read s := by
  have hread : (symbol pos '(' *> content term expressions).read text = _ :=
    read_seqRight (local_content ht he)
  rw [read_symbol] at hread
  exact hread

end Parts

section Nesting

/-- Two parsers that give the same on every text of fewer than `n` characters. -/
def AgreeBelow (n : Nat) (p q : Parser Term) : Prop :=
  ∀ text, text.length < n → p.read text = q.read text

variable {n : Nat} {p q : Parser Term}

theorem AgreeBelow.closed (h : AgreeBelow n p q) :
    AgreeBelow n (p <* symbol .nested ')') (q <* symbol .nested ')') := by
  intro text hlt
  rw [read_closed, read_closed, h text hlt]

theorem AgreeBelow.application (h : AgreeBelow n p q) (hp : p.Local) (hq : q.Local) :
    AgreeBelow n (application p) (application q) := by
  intro text hlt
  rw [read_application hp, read_application hq, h text hlt]
  apply Option.bind_congr
  rintro ⟨f, s⟩ hf
  have hs := hq.length_le hf
  dsimp only
  rw [h s (by omega)]

theorem AgreeBelow.abstractionBody (h : AgreeBelow n p q) (hp : p.Local) (hq : q.Local)
    (pos : Position) : AgreeBelow n (abstractionBody p pos) (abstractionBody q pos) := by
  intro text hlt
  rw [read_abstractionBody hp, read_abstractionBody hq]
  apply Option.bind_congr
  rintro ⟨x, s⟩ hx
  apply Option.bind_congr
  rintro ⟨dot, s'⟩ hdot
  have hs := pos.length_lt_of_token? (Position.tokenOf?_eq_some.mp hx).1
  have hs' := pos.length_lt_of_token? (Position.tokenOf?_eq_some.mp hdot).1
  dsimp only
  rw [h s' (by omega)]

/-- The body of an abstraction stands behind its `λ`, so one more character is enough for both. -/
theorem AgreeBelow.abstraction (h : AgreeBelow n p q) (hp : p.Local) (hq : q.Local)
    (pos : Position) : AgreeBelow (n + 1) (abstraction p pos) (abstraction q pos) := by
  intro text hlt
  rw [read_abstraction hp, read_abstraction hq]
  apply Option.bind_congr
  rintro ⟨l, s⟩ hl
  have hs := pos.length_lt_of_token? (Position.tokenOf?_eq_some.mp hl).1
  exact h.abstractionBody hp hq pos s (by omega)

theorem length_lt_of_read_abstraction {t : Term} (hp : p.Local)
    (h : (Grammar.abstraction p pos).read text = some (t, rest)) : rest.length < text.length := by
  rw [read_abstraction hp] at h
  obtain ⟨⟨l, s⟩, hl, hs⟩ := Option.bind_eq_some_iff.mp h
  have hlt := pos.length_lt_of_token? (Position.tokenOf?_eq_some.mp hl).1
  have hle := (local_abstractionBody hp pos).length_le hs
  omega

theorem AgreeBelow.appliedAbstraction {a b : Parser Term} (h : AgreeBelow n p q)
    (harg : AgreeBelow n a b) (hp : p.Local) (hq : q.Local) (ha : a.Local) (hb : b.Local)
    (pos : Position) :
    AgreeBelow (n + 1) (appliedAbstraction p a pos) (appliedAbstraction q b pos) := by
  intro text hlt
  rw [read_appliedAbstraction ha, read_appliedAbstraction hb, h.abstraction hp hq pos text hlt]
  apply Option.map_congr
  rintro ⟨f, s⟩ hf
  have hs := length_lt_of_read_abstraction hq hf
  rw [withArgument, withArgument, harg s (by omega)]

variable {t e t' e' : Position → Parser Term}

/-- What stands in parentheses stands behind the opening one. -/
theorem AgreeBelow.parenthesized (ht : AgreeBelow n (t .nested) (t' .nested))
    (he : AgreeBelow n (e .nested) (e' .nested)) (hlt : (t .nested).Local)
    (hlt' : (t' .nested).Local) (hle : (e .nested).Local) (hle' : (e' .nested).Local)
    (pos : Position) : AgreeBelow (n + 1) (parenthesized t e pos) (parenthesized t' e' pos) := by
  intro text hlen
  rw [read_parenthesized hlt hle, read_parenthesized hlt' hle']
  apply Option.bind_congr
  rintro ⟨l, s⟩ hl
  have hs := pos.length_lt_of_token? (Position.tokenOf?_eq_some.mp hl).1
  dsimp only
  rw [content, content, read_orElse, read_orElse,
    (ht.appliedAbstraction he hlt hlt' hle hle' .nested).closed s (by omega),
    (he.application hle hle').closed s (by omega)]

theorem local_within (fuel : Nat) :
    ∀ pos, (termWithin fuel pos).Local ∧ (expressionWithin fuel pos).Local := by
  induction fuel with
  | zero =>
      intro pos
      rw [termWithin, expressionWithin]
      exact ⟨local_failure, local_failure⟩
  | succ fuel ih =>
      intro pos
      have hparens := local_parenthesized (ih .nested).1 (ih .nested).2 pos
      rw [termWithin, expressionWithin]
      constructor
      · exact (local_variableTerm pos).orElse ((local_number pos).orElse
          (hparens.orElse (local_abstraction (ih pos).1 pos)))
      · exact (local_variableTerm pos).orElse ((local_number pos).orElse
          (hparens.orElse (local_appliedAbstraction (ih pos).1 (ih pos).2 pos)))

/-- As `expression`: a term, with room for all the nesting that the text can hold. -/
def term (pos : Position) : Parser Term := fun c =>
  termWithin (c.rest.length + 1) pos c

theorem local_term (pos : Position) : (term pos).Local :=
  fun text => (local_within (text.length + 1) pos).1 text

theorem local_expression (pos : Position) : (expression pos).Local :=
  fun text => (local_within (text.length + 1) pos).2 text

/-- Nesting that goes beyond the length of a text makes no difference. -/
theorem agreeBelow_within {n m : Nat} (hnm : n ≤ m) :
    ∀ pos, AgreeBelow n (termWithin n pos) (termWithin m pos) ∧
      AgreeBelow n (expressionWithin n pos) (expressionWithin m pos) := by
  induction n generalizing m with
  | zero => exact fun _ => ⟨fun _ h => absurd h (Nat.not_lt_zero _),
      fun _ h => absurd h (Nat.not_lt_zero _)⟩
  | succ n ih =>
      obtain ⟨m, rfl⟩ : ∃ k, m = k + 1 := ⟨m - 1, by omega⟩
      have ih := ih (m := m) (by omega)
      have hn := local_within n
      have hm := local_within m
      intro pos
      have hparens := (ih .nested).1.parenthesized (ih .nested).2 (hn .nested).1 (hm .nested).1
        (hn .nested).2 (hm .nested).2 pos
      have hlam := (ih pos).1.abstraction (hn pos).1 (hm pos).1 pos
      have happ := (ih pos).1.appliedAbstraction (ih pos).2 (hn pos).1 (hm pos).1 (hn pos).2
        (hm pos).2 pos
      rw [termWithin, expressionWithin, termWithin, expressionWithin]
      constructor
      · intro text hlt
        simp only [read_orElse, hparens text hlt, hlam text hlt]
      · intro text hlt
        simp only [read_orElse, hparens text hlt, happ text hlt]

theorem agreeBelow_term (n : Nat) (pos : Position) : AgreeBelow n (termWithin n pos) (term pos) :=
  fun text hlt => ((agreeBelow_within hlt pos).1 text (Nat.lt_succ_self _)).symm

theorem agreeBelow_expression (n : Nat) (pos : Position) :
    AgreeBelow n (expressionWithin n pos) (expression pos) :=
  fun text hlt => ((agreeBelow_within hlt pos).2 text (Nat.lt_succ_self _)).symm

theorem read_term_eq_or (pos : Position) (text : List Char) :
    (term pos).read text =
      ((variableTerm pos).read text).or (((number pos).read text).or
        (((parenthesized term expression pos).read text).or
          ((abstraction (term pos) pos).read text))) := by
  have hparens := (agreeBelow_term text.length .nested).parenthesized
    (agreeBelow_expression text.length .nested) (local_within _ _).1 (local_term _)
    (local_within _ _).2 (local_expression _) pos text (Nat.lt_succ_self _)
  have hlam := (agreeBelow_term text.length pos).abstraction (local_within _ _).1 (local_term _) pos
    text (Nat.lt_succ_self _)
  have hfuel : (term pos).read text = (termWithin (text.length + 1) pos).read text := rfl
  rw [hfuel, termWithin, read_orElse, read_orElse, read_orElse, hparens, hlam]

theorem read_expression_eq_or (pos : Position) (text : List Char) :
    (expression pos).read text =
      ((variableTerm pos).read text).or (((number pos).read text).or
        (((parenthesized term expression pos).read text).or
          ((appliedAbstraction (term pos) (expression pos) pos).read text))) := by
  have hparens := (agreeBelow_term text.length .nested).parenthesized
    (agreeBelow_expression text.length .nested) (local_within _ _).1 (local_term _)
    (local_within _ _).2 (local_expression _) pos text (Nat.lt_succ_self _)
  have happ := (agreeBelow_term text.length pos).appliedAbstraction
    (agreeBelow_expression text.length pos) (local_within _ _).1 (local_term _)
    (local_within _ _).2 (local_expression _) pos text (Nat.lt_succ_self _)
  have hfuel : (expression pos).read text = (expressionWithin (text.length + 1) pos).read text :=
    rfl
  rw [hfuel, expressionWithin, read_orElse, read_orElse, read_orElse, hparens, happ]

end Nesting

section FirstToken

variable {s : List Char}

theorem isVariableChar_iff :
    isVariableChar c = true ↔
      c ≠ '.' ∧ isLambda c = false ∧ c ≠ '(' ∧ c ≠ ')' ∧ c.isDigit = false ∧
        Text.isBlank c = false := by
  simp only [isVariableChar, isLambda, Bool.and_eq_true, Bool.not_eq_true', Bool.or_eq_false_iff,
    beq_eq_false_iff_ne, and_assoc]

theorem isDigit_eq_false_of_isLambda (h : isLambda c = true) : c.isDigit = false := by
  simp only [isLambda, Bool.or_eq_true, beq_iff_eq] at h
  rcases h with rfl | rfl <;> rfl

theorem ne_open_of_isLambda (h : isLambda c = true) : c ≠ '(' := by
  rintro rfl
  exact Bool.false_ne_true h

theorem Position.tokenOf?_of_token? (h : pos.token? text = some (c, s)) (accepts : Char → Bool) :
    pos.tokenOf? accepts text = if accepts c then some (c, s) else none := by
  rw [tokenOf?, h, Option.filter_some]

theorem Position.tokenOf?_of_none (h : pos.token? text = none) (accepts : Char → Bool) :
    pos.tokenOf? accepts text = none := by
  rw [tokenOf?, h]
  rfl

theorem read_term_of_none (h : pos.token? text = none) : (term pos).read text = none := by
  have hnone := Position.tokenOf?_of_none h
  rw [read_term_eq_or, read_variableTerm, read_number,
    read_parenthesized (local_term _) (local_expression _), read_abstraction (local_term _)]
  simp only [hnone, Option.map_none, Option.bind_none, Option.or_none]

/-- The first token alone tells which way to read a term can succeed. -/
theorem read_term (h : pos.token? text = some (c, s)) :
    (term pos).read text =
      if isVariableChar c then some (.var c.toString, s)
      else if c.isDigit then
        some (.num (Decimal.ofDigits ((c :: s).takeWhile Char.isDigit)),
          (c :: s).dropWhile Char.isDigit)
      else if c = '(' then (content term expression).read s
      else if isLambda c then (abstractionBody (term pos) pos).read s
      else none := by
  have hof := Position.tokenOf?_of_token? h
  rw [read_term_eq_or, read_variableTerm, read_number,
    read_parenthesized (local_term _) (local_expression _), read_abstraction (local_term _)]
  simp only [hof]
  by_cases hv : isVariableChar c = true
  · simp [hv]
  · by_cases hd : c.isDigit = true
    · simp [hv, hd]
    · by_cases hp : c = '('
      · subst hp
        simp [hv, isLambda]
      · by_cases hl : isLambda c = true <;> simp [hv, hd, hp, hl]

theorem read_term_of_variable (h : pos.token? text = some (c, s)) (hc : isVariableChar c = true) :
    (term pos).read text = some (.var c.toString, s) := by
  rw [read_term h, if_pos hc]

theorem read_term_of_digit (h : pos.token? text = some (c, s)) (hc : c.isDigit = true) :
    (term pos).read text =
      some (.num (Decimal.ofDigits ((c :: s).takeWhile Char.isDigit)),
        (c :: s).dropWhile Char.isDigit) := by
  have hv : ¬ isVariableChar c = true := by simp [isVariableChar_iff, hc]
  rw [read_term h, if_neg hv, if_pos hc]

theorem read_term_of_open (h : pos.token? text = some ('(', s)) :
    (term pos).read text = (content term expression).read s := by
  have hv : ¬ isVariableChar '(' = true := by simp [isVariableChar_iff]
  have hd : ¬ Char.isDigit '(' = true := by decide
  rw [read_term h, if_neg hv, if_neg hd, if_pos rfl]

theorem read_term_of_lambda (h : pos.token? text = some (c, s)) (hc : isLambda c = true) :
    (term pos).read text = (abstractionBody (term pos) pos).read s := by
  have hv : ¬ isVariableChar c = true := by simp [isVariableChar_iff, hc]
  have hd : ¬ c.isDigit = true := by simp [isDigit_eq_false_of_isLambda hc]
  rw [read_term h, if_neg hv, if_neg hd, if_neg (ne_open_of_isLambda hc), if_pos hc]

theorem read_expression_of_none (h : pos.token? text = none) :
    (expression pos).read text = none := by
  have hnone := Position.tokenOf?_of_none h
  rw [read_expression_eq_or, read_variableTerm, read_number,
    read_parenthesized (local_term _) (local_expression _),
    read_appliedAbstraction (local_expression _), read_abstraction (local_term _)]
  simp only [hnone, Option.map_none, Option.bind_none, Option.or_none]

/-- An expression is a term, unless it is an abstraction that an expression follows. -/
theorem read_expression (h : pos.token? text = some (c, s)) :
    (expression pos).read text =
      if isLambda c then ((term pos).read text).map (withArgument (expression pos))
      else (term pos).read text := by
  have hof := Position.tokenOf?_of_token? h
  rw [read_expression_eq_or, read_term_eq_or, read_appliedAbstraction (local_expression _)]
  by_cases hl : isLambda c = true
  · have hd := isDigit_eq_false_of_isLambda hl
    have hp := ne_open_of_isLambda hl
    have hv : isVariableChar c = false := by
      simp [isVariableChar_iff, hl, ← Bool.not_eq_true]
    simp [read_variableTerm, read_number, read_parenthesized (local_term _) (local_expression _),
      hof, hl, hd, hp, hv]
  · have hlam : (abstraction (term pos) pos).read text = none := by
      rw [read_abstraction (local_term _), hof, if_neg hl]
      rfl
    rw [hlam, if_neg hl]
    rfl

theorem read_expression_of_no_start (h : pos.token? text = some (c, s))
    (hvariable : ¬ isVariableChar c = true) (hdigit : ¬ c.isDigit = true) (hopen : ¬ c = '(')
    (hlambda : ¬ isLambda c = true) : (expression pos).read text = none := by
  rw [read_expression h, if_neg hlambda, read_term h, if_neg hvariable, if_neg hdigit,
    if_neg hopen, if_neg hlambda]

/-- No expression begins with a closing parenthesis. -/
theorem read_expression_of_close (h : pos.token? text = some (')', s)) :
    (expression pos).read text = none :=
  read_expression_of_no_start h (by simp [isVariableChar_iff]) (by decide) (by decide) (by decide)

end FirstToken

end NormalOrder.Grammar
