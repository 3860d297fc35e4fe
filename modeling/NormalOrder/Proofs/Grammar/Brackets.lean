/- Parentheses of a text, and reading a text when another line stands behind it.

What is read of a text has as many opening as closing parentheses. Inside parentheses the parser
therefore stops before the closing one, and outside of them it stops at the end of the line. -/
import NormalOrder.Proofs.Grammar.Acceptance
import NormalOrder.Proofs.Parsing.Stable

namespace NormalOrder.Grammar

open NormalOrder.Parser

/-- How many parentheses a text closes that it does not open, if it closes all that it opens. -/
def unopened : List Char → Option Nat
  | [] => some 0
  | c :: s =>
    if c = ')' then (unopened s).map (· + 1)
    else if c = '(' then (unopened s).bind fun n => if n = 0 then none else some (n - 1)
    else unopened s

variable {pos : Position} {text lexeme s rest q : List Char} {c : Char} {t f : Term}

section Balance

theorem unopened_cons (hopen : c ≠ '(') (hclose : c ≠ ')') :
    unopened (c :: s) = unopened s := by
  rw [unopened, if_neg hclose, if_neg hopen]

theorem unopened_close (s : List Char) : unopened (')' :: s) = (unopened s).map (· + 1) := by
  rw [unopened, if_pos rfl]

theorem unopened_open {n : Nat} : unopened ('(' :: s) = some n ↔ unopened s = some (n + 1) := by
  rw [unopened, if_neg (by decide), if_pos rfl, Option.bind_eq_some_iff]
  constructor
  · rintro ⟨m, hm, h⟩
    split at h
    · cases h
    · cases h
      rw [hm]
      congr 1
      omega
  · exact fun h => ⟨n + 1, h, rfl⟩

/-- Text without parentheses makes no difference. -/
theorem unopened_append (h : ∀ c ∈ lexeme, c ≠ '(' ∧ c ≠ ')') :
    unopened (lexeme ++ rest) = unopened rest := by
  induction lexeme with
  | nil => rfl
  | cons c lexeme ih =>
      have hc := h c (List.mem_cons_self ..)
      rw [List.cons_append, unopened_cons hc.1 hc.2, ih fun d hd => h d (List.mem_cons_of_mem _ hd)]

theorem ne_paren_of_isBlank (h : Text.isBlank c = true) : c ≠ '(' ∧ c ≠ ')' := by
  constructor <;> (rintro rfl; exact absurd h (by decide))

theorem ne_paren_of_isVariableChar (h : isVariableChar c = true) : c ≠ '(' ∧ c ≠ ')' :=
  ⟨(isVariableChar_iff.mp h).2.2.1, (isVariableChar_iff.mp h).2.2.2.1⟩

theorem ne_paren_of_isLambda (h : isLambda c = true) : c ≠ '(' ∧ c ≠ ')' := by
  constructor <;> (rintro rfl; exact absurd h (by decide))

theorem ne_paren_of_isDigit (h : c.isDigit = true) : c ≠ '(' ∧ c ≠ ')' := by
  constructor <;> (rintro rfl; exact absurd h (by decide))

theorem unopened_dropWhile {skips : Char → Bool} (h : ∀ c, skips c = true → Text.isBlank c = true)
    (text : List Char) : unopened (text.dropWhile skips) = unopened text := by
  have hskipped : ∀ c ∈ text.takeWhile skips, c ≠ '(' ∧ c ≠ ')' := fun c hc =>
    ne_paren_of_isBlank (h c (List.mem_takeWhile_imp hc))
  rw [← unopened_append hskipped, List.takeWhile_append_dropWhile]

theorem unopened_token (h : pos.Token text lexeme rest) :
    unopened text = unopened (lexeme ++ rest) := by
  obtain ⟨blanks, hblanks, rfl⟩ := h
  exact unopened_append fun c hc =>
    ne_paren_of_isBlank (Position.isBlank_of_isBlank (hblanks c hc))

theorem unopened_token_char (hc : c ≠ '(' ∧ c ≠ ')') (h : pos.Token text [c] rest) :
    unopened text = unopened rest := by
  rw [unopened_token h, List.singleton_append, unopened_cons hc.1 hc.2]

/-- The closing parenthesis of what is enclosed makes up for the opening one. -/
theorem unopened_enclosed {s' : List Char} (hopen : pos.Token text ['('] s)
    (h : unopened s = unopened s') (hclose : Position.nested.Token s' [')'] rest) :
    unopened text = unopened rest := by
  rw [unopened_token hopen, List.singleton_append, unopened, if_neg (by decide), if_pos rfl, h,
    unopened_token hclose, List.singleton_append, unopened_close]
  cases unopened rest <;> rfl

/-- What derives from a text opens as many parentheses as it closes. -/
theorem Derives.unopened_eq {nt : Nonterminal} (h : Derives nt pos text t rest) :
    unopened text = unopened rest := by
  induction h with
  | var hx h => exact unopened_token_char (ne_paren_of_isVariableChar hx) h
  | num _ hds _ h =>
      rw [unopened_token h, unopened_append fun d hd => ne_paren_of_isDigit (hds d hd)]
  | abstraction hl h _ ihf | ofAbstraction hl h _ ihf =>
      rw [unopened_token_char (ne_paren_of_isLambda hl) h, ihf]
  | enclosedAbstraction hopen hl h _ hclose ihf =>
      have hl := unopened_token_char (ne_paren_of_isLambda hl) h
      exact unopened_enclosed hopen (hl.trans ihf) hclose
  | enclosedApplied hopen hl h _ _ hclose ihf iha =>
      have hl := unopened_token_char (ne_paren_of_isLambda hl) h
      exact unopened_enclosed hopen ((hl.trans ihf).trans iha) hclose
  | application hopen _ _ hclose ihf iha => exact unopened_enclosed hopen (ihf.trans iha) hclose
  | body hx h hdot _ ihb =>
      rw [unopened_token_char (ne_paren_of_isVariableChar hx) h,
        unopened_token_char (by decide) hdot, ihb]
  | ofTerm _ ih => exact ih
  | applied hl h _ _ ihf iha =>
      rw [unopened_token_char (ne_paren_of_isLambda hl) h, ihf, iha]

end Balance

section Bounded

/-- A text that the parser does not read beyond: inside parentheses it closes one more than it
opens, and outside of them what stands behind it is another line. -/
def Bounded : Position → List Char → Prop
  | .onLine, text => ∃ n, unopened text = some n
  | .nested, text => ∃ n, unopened text = some (n + 1)

theorem Bounded.of_eq (h : Bounded pos text) (heq : unopened text = unopened rest) :
    Bounded pos rest := by
  cases pos <;> simpa only [Bounded, heq] using h

theorem Bounded.opened (h : Bounded pos ('(' :: rest)) : Bounded .nested rest := by
  cases pos with
  | onLine =>
      obtain ⟨n, hn⟩ := h
      exact ⟨n, unopened_open.mp hn⟩
  | nested =>
      obtain ⟨n, hn⟩ := h
      exact ⟨n + 1, unopened_open.mp hn⟩

/-- Something stands before the end of what encloses a nested text. -/
theorem Bounded.dropWhile_ne_nil (h : Bounded .nested text) :
    text.dropWhile Text.isBlank ≠ [] := by
  intro hnil
  obtain ⟨n, hn⟩ := h
  have hblanks := List.dropWhile_eq_nil_iff.mp hnil
  have hzero : unopened (text ++ []) = some 0 :=
    unopened_append fun c hc => ne_paren_of_isBlank (hblanks c hc)
  rw [List.append_nil, hn] at hzero
  cases hzero

theorem Bounded.tokenOf?_append (h : Bounded pos text) {accepts : Char → Bool}
    (haccepts : accepts '\n' = false) :
    pos.tokenOf? accepts (text ++ '\n' :: q) =
      (pos.tokenOf? accepts text).map fun (c, rest) => (c, rest ++ '\n' :: q) := by
  have hdrop : (text ++ '\n' :: q).dropWhile pos.isBlank =
      text.dropWhile pos.isBlank ++ '\n' :: q := by
    cases pos with
    | onLine => exact dropWhile_append_of_neg (by decide)
    | nested => exact dropWhile_append_of_ne_nil h.dropWhile_ne_nil
  rw [Position.tokenOf?, Position.tokenOf?, Position.token?, Position.token?, hdrop]
  cases text.dropWhile pos.isBlank with
  | nil => simp [haccepts, Option.filter_some]
  | cons c s => cases hc : accepts c <;> simp [hc, Option.filter_some]

theorem Bounded.stable_symbol (h : Bounded pos text) {expected : Char} (hne : expected ≠ '\n') :
    Stable ('\n' :: q) (symbol pos expected) text := by
  rw [Stable, read_symbol, read_symbol, h.tokenOf?_append (by simp [hne.symm])]

theorem Bounded.stable_lambda (h : Bounded pos text) : Stable ('\n' :: q) (lambda pos) text := by
  rw [Stable, read_lambda, read_lambda, h.tokenOf?_append (by decide)]

theorem Bounded.stable_variableName (h : Bounded pos text) :
    Stable ('\n' :: q) (variableName pos) text := by
  rw [Stable, read_variableName, read_variableName, h.tokenOf?_append (by decide), Option.map_map,
    Option.map_map]
  rfl

theorem Bounded.stable_number (h : Bounded pos text) : Stable ('\n' :: q) (number pos) text := by
  rw [Stable, read_number, read_number, h.tokenOf?_append (by decide), Option.map_map,
    Option.map_map]
  apply Option.map_congr
  rintro ⟨c, s⟩ -
  have htake : (c :: s ++ '\n' :: q).takeWhile Char.isDigit = (c :: s).takeWhile Char.isDigit :=
    takeWhile_append_of_neg (by decide)
  have hdrop : (c :: s ++ '\n' :: q).dropWhile Char.isDigit =
      (c :: s).dropWhile Char.isDigit ++ '\n' :: q := dropWhile_append_of_neg (by decide)
  simp only [Function.comp_apply, ← List.cons_append, htake, hdrop]

end Bounded

section Reading

theorem Bounded.of_tokenOf? (h : Bounded pos text) {accepts : Char → Bool}
    (hne : ∀ c, accepts c = true → c ≠ '(' ∧ c ≠ ')')
    (hc : pos.tokenOf? accepts text = some (c, s)) : Bounded pos s ∧ s.length < text.length := by
  obtain ⟨htok, hc⟩ := Position.tokenOf?_eq_some.mp hc
  exact ⟨h.of_eq (unopened_token_char (hne c hc) (.of_token? htok)), pos.length_lt_of_token? htok⟩

theorem Bounded.of_read_lambda (h : Bounded pos text) (hc : (lambda pos).read text = some (c, s)) :
    Bounded pos s ∧ s.length < text.length := by
  rw [read_lambda] at hc
  exact h.of_tokenOf? (fun _ => ne_paren_of_isLambda) hc

theorem Bounded.of_read_variableName (h : Bounded pos text) {x : Name}
    (hx : (variableName pos).read text = some (x, s)) : Bounded pos s ∧ s.length < text.length := by
  rw [read_variableName] at hx
  obtain ⟨step, hc, hstep⟩ := Option.map_eq_some_iff.mp hx
  cases hstep
  exact h.of_tokenOf? (fun _ => ne_paren_of_isVariableChar) hc

theorem Bounded.of_read_symbol (h : Bounded pos text) {expected : Char}
    (hne : expected ≠ '(' ∧ expected ≠ ')') (hc : (symbol pos expected).read text = some (c, s)) :
    Bounded pos s ∧ s.length < text.length := by
  rw [read_symbol] at hc
  refine h.of_tokenOf? (fun d hd => ?_) hc
  rw [beq_iff_eq.mp hd]
  exact hne

theorem Bounded.of_read_open (h : Bounded pos text) (hc : (symbol pos '(').read text = some (c, s)) :
    Bounded .nested s ∧ s.length < text.length := by
  rw [read_symbol] at hc
  obtain ⟨-, htok⟩ := Position.tokenOf?_char_eq_some.mp hc
  exact ⟨(h.of_eq (unopened_token (.of_token? htok))).opened, pos.length_lt_of_token? htok⟩

theorem Bounded.of_read_abstraction (h : Bounded pos text)
    (hf : (abstraction (term pos) pos).read text = some (f, s)) :
    Bounded pos s ∧ s.length < text.length := by
  have hlt := length_lt_of_read_abstraction (local_term pos) hf
  rw [read_abstraction (local_term pos)] at hf
  obtain ⟨⟨l, r⟩, hl, hf⟩ := Option.bind_eq_some_iff.mp hf
  have hr := (h.of_tokenOf? (fun _ => ne_paren_of_isLambda) hl).1
  have hbody := derives_of_read_abstractionBody (fun s _ => sound s) (Nat.lt_succ_self _) hf
  exact ⟨hr.of_eq hbody.unopened_eq, hlt⟩

theorem Bounded.of_read_expression (h : Bounded pos text)
    (ht : (expression pos).read text = some (t, s)) : Bounded pos s :=
  h.of_eq ((sound text pos t s).2 ht).unopened_eq

/-- The text is read in the same way whether or not another line stands behind it. -/
def Steady (q : List Char) (text : List Char) : Prop :=
  ∀ pos, Bounded pos text →
    Stable ('\n' :: q) (term pos) text ∧ Stable ('\n' :: q) (expression pos) text

theorem stable_abstraction (ih : ∀ s, s.length < text.length → Steady q s) (h : Bounded pos text) :
    Stable ('\n' :: q) (abstraction (term pos) pos) text := by
  refine h.stable_lambda.bind (fun _ => local_abstractionBody (local_term pos) pos) ?_
  intro l s₁ hl
  obtain ⟨h₁, hlt₁⟩ := h.of_read_lambda hl
  refine h₁.stable_variableName.bind (fun _ => (local_symbol pos '.').bind fun _ =>
    (local_term pos).bind fun _ => local_pure _) ?_
  intro x s₂ hx
  obtain ⟨h₂, hlt₂⟩ := h₁.of_read_variableName hx
  refine (h₂.stable_symbol (by decide)).bind (fun _ => (local_term pos).bind fun _ =>
    local_pure _) ?_
  intro dot s₃ hdot
  obtain ⟨h₃, hlt₃⟩ := h₂.of_read_symbol (by decide) hdot
  exact (ih s₃ (by omega) pos h₃).1.bind (fun _ => local_pure _) fun _ _ _ => stable_pure _

theorem stable_appliedAbstraction (ih : ∀ s, s.length < text.length → Steady q s)
    (h : Bounded pos text) :
    Stable ('\n' :: q) (appliedAbstraction (term pos) (expression pos) pos) text := by
  refine (stable_abstraction ih h).bind
    (fun _ => ((local_expression pos).map _).orElse (local_pure _)) ?_
  intro f s hf
  obtain ⟨hs, hlt⟩ := h.of_read_abstraction hf
  exact ((ih s hlt pos hs).2.map _).orElse (stable_pure _)

theorem stable_application (ih : ∀ s, s.length ≤ text.length → Steady q s)
    (h : Bounded .nested text) :
    Stable ('\n' :: q) (application (expression .nested)) text := by
  refine (ih text (Nat.le_refl _) .nested h).2.bind
    (fun _ => (local_expression .nested).bind fun _ => local_pure _) ?_
  intro f s hf
  have hs := h.of_read_expression hf
  have hle := (local_expression .nested).length_le hf
  exact (ih s hle .nested hs).2.bind (fun _ => local_pure _) fun _ _ _ => stable_pure _

theorem stable_content (ih : ∀ s, s.length ≤ text.length → Steady q s) (h : Bounded .nested text) :
    Stable ('\n' :: q) (content term expression) text := by
  refine Stable.orElse ?_ ?_
  · refine (stable_appliedAbstraction (fun s hs => ih s hs.le) h).seqLeft
      (local_symbol .nested ')') ?_
    intro t s ht
    have ht := read_expression_of_appliedAbstraction ht
    exact (h.of_read_expression ht).stable_symbol (by decide)
  · refine (stable_application ih h).seqLeft (local_symbol .nested ')') ?_
    intro t s ht
    rw [read_application (local_expression .nested)] at ht
    obtain ⟨⟨f, r⟩, hf, ht⟩ := Option.bind_eq_some_iff.mp ht
    obtain ⟨⟨a, last⟩, ha, hstep⟩ := Option.map_eq_some_iff.mp ht
    cases hstep
    exact ((h.of_read_expression hf).of_read_expression ha).stable_symbol (by decide)

theorem stable_parenthesized (ih : ∀ s, s.length < text.length → Steady q s)
    (h : Bounded pos text) : Stable ('\n' :: q) (parenthesized term expression pos) text := by
  refine (h.stable_symbol (by decide)).seqRight
    (local_content (local_term .nested) (local_expression .nested)) ?_
  intro l s hl
  obtain ⟨hs, hlt⟩ := h.of_read_open hl
  exact stable_content (fun r hr => ih r (by omega)) hs

/-- By induction on the length: all that is read inside a term or an expression stands behind one of
its tokens, where the text is still bounded. -/
theorem steady (q text : List Char) : Steady q text := by
  induction hn : text.length using Nat.strongRecOn generalizing text with
  | _ n ih =>
      have ih : ∀ s, s.length < text.length → Steady q s := fun s hs => ih _ (hn ▸ hs) s rfl
      intro pos h
      have hvar : Stable ('\n' :: q) (variableTerm pos) text := h.stable_variableName.map _
      have hparens := stable_parenthesized ih h
      constructor
      · have hterm : ∀ text, (term pos).read text = (variableTerm pos <|> number pos
            <|> parenthesized term expression pos <|> abstraction (term pos) pos).read text := by
          intro text
          rw [read_term_eq_or, read_orElse, read_orElse, read_orElse]
        rw [Stable, hterm, hterm]
        exact hvar.orElse (h.stable_number.orElse (hparens.orElse (stable_abstraction ih h)))
      · have hexpr : ∀ text, (expression pos).read text = (variableTerm pos <|> number pos
            <|> parenthesized term expression pos
            <|> appliedAbstraction (term pos) (expression pos) pos).read text := by
          intro text
          rw [read_expression_eq_or, read_orElse, read_orElse, read_orElse]
        rw [Stable, hexpr, hexpr]
        exact hvar.orElse
          (h.stable_number.orElse (hparens.orElse (stable_appliedAbstraction ih h)))

end Reading

end NormalOrder.Grammar
