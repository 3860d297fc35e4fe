/- Blanks inside parentheses.

Behind an open parenthesis any blanks may stand before a token. Texts that differ only in such blanks
are therefore read alike, also where a way to read them fails and another one is tried: the digits of
a number alone have to stay together. -/
import NormalOrder.Proofs.Grammar.Acceptance

namespace NormalOrder.Grammar

open NormalOrder.Parser

/-- How many parentheses are open behind a character. -/
def depthAfter (depth : Nat) (c : Char) : Nat :=
  if c = '(' then depth + 1 else if c = ')' then depth - 1 else depth

/-- Where a text stands that has `depth` open parentheses before it. -/
def Position.atDepth : Nat → Position
  | 0 => onLine
  | _ + 1 => nested

/-- The second text is the first one with blanks put in or left out behind open parentheses, where
`depth` of them are open before both. A digit that another one follows keeps it, and a digit that no
other one follows gets none. In a text that is read every parenthesis has its partner, so what is
behind an open one is inside of a pair. -/
inductive Relaid : Nat → List Char → List Char → Prop
  | nil {depth} : Relaid depth [] []
  | keep {depth c s s'} (hdigit : c.isDigit = true → (EndsDigits s ↔ EndsDigits s'))
      (h : Relaid (depthAfter depth c) s s') : Relaid depth (c :: s) (c :: s')
  | insert {depth c s s'} (hc : Text.isBlank c = true) (h : Relaid (depth + 1) s s') :
      Relaid (depth + 1) s (c :: s')
  | delete {depth c s s'} (hc : Text.isBlank c = true) (h : Relaid (depth + 1) s s') :
      Relaid (depth + 1) (c :: s) s'

variable {depth : Nat} {pos : Position} {s s' r r' : List Char} {c : Char}

section Tokens

theorem depthAfter_of_ne (hopen : c ≠ '(') (hclose : c ≠ ')') : depthAfter depth c = depth := by
  rw [depthAfter, if_neg hopen, if_neg hclose]

theorem depthAfter_of_isBlank (h : Text.isBlank c = true) : depthAfter depth c = depth := by
  refine depthAfter_of_ne ?_ ?_ <;> (rintro rfl; exact absurd h (by decide))

theorem depthAfter_of_isDigit (h : c.isDigit = true) : depthAfter depth c = depth := by
  refine depthAfter_of_ne ?_ ?_ <;> (rintro rfl; exact absurd h (by decide))

theorem Position.token?_cons (c : Char) (s : List Char) :
    pos.token? (c :: s) = if pos.isBlank c then pos.token? s else some (c, s) := by
  by_cases hc : pos.isBlank c = true
  · rw [token?, List.dropWhile_cons_of_pos hc, if_pos hc]
    rfl
  · rw [token?, List.dropWhile_cons_of_neg hc, if_neg hc]

/-- The blanks before a token make no difference to it. -/
theorem Relaid.token? (h : Relaid depth s s') :
    ((Position.atDepth depth).token? s = none ∧ (Position.atDepth depth).token? s' = none) ∨
      ∃ c r r', (Position.atDepth depth).token? s = some (c, r) ∧
        (Position.atDepth depth).token? s' = some (c, r') ∧
        (c.isDigit = true → (EndsDigits r ↔ EndsDigits r')) ∧
        Relaid (depthAfter depth c) r r' := by
  induction h with
  | nil => exact .inl ⟨rfl, rfl⟩
  | @keep depth c s s' hdigit h ih =>
      rw [Position.token?_cons, Position.token?_cons]
      by_cases hc : (Position.atDepth depth).isBlank c = true
      · rw [if_pos hc, if_pos hc]
        rw [depthAfter_of_isBlank (Position.isBlank_of_isBlank hc)] at ih
        exact ih
      · rw [if_neg hc, if_neg hc]
        exact .inr ⟨c, s, s', rfl, rfl, hdigit, h⟩
  | @insert depth c s s' hc _ ih =>
      have hnested : (Position.atDepth (depth + 1)).isBlank c = true := hc
      rw [Position.token?_cons c s', if_pos hnested]
      exact ih
  | @delete depth c s s' hc _ ih =>
      have hnested : (Position.atDepth (depth + 1)).isBlank c = true := hc
      rw [Position.token?_cons c s, if_pos hnested]
      exact ih

theorem Relaid.digits_of_endsDigits (h : Relaid depth s s') (hs : EndsDigits s)
    (hs' : EndsDigits s') :
    s.takeWhile Char.isDigit = s'.takeWhile Char.isDigit ∧
      Relaid depth (s.dropWhile Char.isDigit) (s'.dropWhile Char.isDigit) := by
  rw [hs.takeWhile_eq, hs'.takeWhile_eq, hs.dropWhile_eq, hs'.dropWhile_eq]
  exact ⟨rfl, h⟩

/-- Where a run of digits goes on in both texts or in none of them, the same digits follow. -/
theorem Relaid.digits (h : Relaid depth s s') (hends : EndsDigits s ↔ EndsDigits s') :
    s.takeWhile Char.isDigit = s'.takeWhile Char.isDigit ∧
      Relaid depth (s.dropWhile Char.isDigit) (s'.dropWhile Char.isDigit) := by
  induction h with
  | nil => exact ⟨rfl, .nil⟩
  | @keep depth c s s' hdigit h ih =>
      by_cases hc : c.isDigit = true
      · obtain ⟨htake, hdrop⟩ := ih (hdigit hc)
        rw [depthAfter_of_isDigit hc] at hdrop
        rw [List.takeWhile_cons_of_pos hc, List.takeWhile_cons_of_pos hc,
          List.dropWhile_cons_of_pos hc, List.dropWhile_cons_of_pos hc, htake]
        exact ⟨rfl, hdrop⟩
      · have hends : ∀ s, EndsDigits (c :: s) := fun s => endsDigits_cons.mpr (by simpa using hc)
        exact (Relaid.keep hdigit h).digits_of_endsDigits (hends s) (hends s')
  | @insert depth c s s' hc h _ =>
      have hs' : EndsDigits (c :: s') := endsDigits_cons_of_isBlank hc
      exact (Relaid.insert hc h).digits_of_endsDigits (hends.mpr hs') hs'
  | @delete depth c s s' hc h _ =>
      have hs : EndsDigits (c :: s) := endsDigits_cons_of_isBlank hc
      exact (Relaid.delete hc h).digits_of_endsDigits hs (hends.mp hs)

end Tokens

section Combinators

variable {α β : Type} {depth' : Nat} {p q : Parser α}

/-- On both texts the parser fails, or on both it reads the same and leaves the texts with `depth`
open parentheses before what is left. -/
def Alike (depth : Nat) (p : Parser α) (s s' : List Char) : Prop :=
  Option.Rel (fun step step' => step.1 = step'.1 ∧ Relaid depth step.2 step'.2) (p.read s)
    (p.read s')

theorem Alike.some_of_some (h : Alike depth p s s') {value : α} (hp : p.read s = some (value, r)) :
    ∃ r', p.read s' = some (value, r') ∧ Relaid depth r r' := by
  rw [Alike, hp] at h
  generalize p.read s' = x' at h ⊢
  cases h with
  | @some step step' h =>
      obtain ⟨rfl, hr⟩ := h
      exact ⟨step'.2, rfl, hr⟩

theorem Alike.none_of_none (h : Alike depth p s s') (hp : p.read s = none) : p.read s' = none := by
  rw [Alike, hp] at h
  generalize p.read s' = x' at h ⊢
  cases h
  rfl

theorem alike_pure (value : α) (h : Relaid depth s s') : Alike depth (pure value) s s' :=
  .some ⟨rfl, h⟩

theorem Alike.bind {f : α → Parser β} (h : Alike depth p s s') (hlocal : ∀ value, (f value).Local)
    (hf : ∀ value r r', p.read s = some (value, r) → Relaid depth r r' →
      Alike depth' (f value) r r') : Alike depth' (p >>= f) s s' := by
  rw [Alike, read_bind hlocal, read_bind hlocal]
  cases hp : p.read s with
  | none =>
      rw [h.none_of_none hp]
      exact .none
  | some step =>
      obtain ⟨r', hp', hr⟩ := h.some_of_some hp
      rw [hp']
      exact hf step.1 step.2 r' hp hr

theorem Alike.map (h : Alike depth p s s') (f : α → β) : Alike depth (f <$> p) s s' :=
  h.bind (fun value => local_pure (f value)) fun value _ _ _ hr => alike_pure (f value) hr

theorem Alike.seqRight {q : Parser β} (h : Alike depth p s s') (hlocal : q.Local)
    (hq : ∀ value r r', p.read s = some (value, r) → Relaid depth r r' → Alike depth' q r r') :
    Alike depth' (p *> q) s s' :=
  h.bind (fun _ => hlocal) hq

theorem Alike.seqLeft {q : Parser β} (h : Alike depth p s s') (hlocal : q.Local)
    (hq : ∀ value r r', p.read s = some (value, r) → Relaid depth r r' → Alike depth' q r r') :
    Alike depth' (p <* q) s s' :=
  h.bind (fun value => hlocal.bind fun _ => local_pure value) fun value r r' hread hr =>
    (hq value r r' hread hr).bind (fun _ => local_pure value) fun _ _ _ _ hr => alike_pure value hr

theorem Alike.orElse (h : Alike depth p s s') (hq : Alike depth q s s') :
    Alike depth (p <|> q) s s' := by
  rw [Alike, read_orElse, read_orElse]
  cases hp : p.read s with
  | none =>
      rw [h.none_of_none hp]
      exact hq
  | some step =>
      obtain ⟨r', hp', hr⟩ := h.some_of_some hp
      rw [hp']
      exact .some ⟨rfl, hr⟩

end Combinators

section Tokens

variable {depth' : Nat}

/-- A token of a kind that opens or closes as many parentheses as `depth'` says. -/
theorem Relaid.alike_token (h : Relaid depth s s') {accepts : Char → Bool} {p : Parser Char}
    (hp : ∀ text, p.read text = (Position.atDepth depth).tokenOf? accepts text)
    (hdepth : ∀ c, accepts c = true → depthAfter depth c = depth') : Alike depth' p s s' := by
  rw [Alike, hp, hp]
  rcases h.token? with ⟨hs, hs'⟩ | ⟨c, r, r', hs, hs', -, hr⟩
  · rw [Position.tokenOf?_of_none hs, Position.tokenOf?_of_none hs']
    exact .none
  · rw [Position.tokenOf?_of_token? hs, Position.tokenOf?_of_token? hs']
    by_cases hc : accepts c = true
    · rw [hdepth c hc] at hr
      rw [if_pos hc, if_pos hc]
      exact .some ⟨rfl, hr⟩
    · rw [if_neg hc, if_neg hc]
      exact .none

theorem Relaid.alike_symbol (h : Relaid depth s s') {expected : Char}
    (hdepth : depthAfter depth expected = depth') :
    Alike depth' (symbol (.atDepth depth) expected) s s' := by
  refine h.alike_token (read_symbol _ expected) fun c hc => ?_
  rw [beq_iff_eq.mp hc, hdepth]

theorem Relaid.alike_lambda (h : Relaid depth s s') :
    Alike depth (lambda (.atDepth depth)) s s' := by
  refine h.alike_token (read_lambda _) fun c hc => depthAfter_of_ne ?_ ?_ <;>
    (rintro rfl; exact absurd hc (by decide))

theorem Relaid.alike_variableName (h : Relaid depth s s') :
    Alike depth (variableName (.atDepth depth)) s s' := by
  refine Alike.map (h.alike_token (read_token _ isVariableChar) fun c hc => ?_) _
  have hchar := isVariableChar_iff.mp hc
  exact depthAfter_of_ne hchar.2.2.1 hchar.2.2.2.1

theorem Relaid.alike_number (h : Relaid depth s s') :
    Alike depth (number (.atDepth depth)) s s' := by
  rw [Alike, read_number, read_number]
  rcases h.token? with ⟨hs, hs'⟩ | ⟨c, r, r', hs, hs', hends, hr⟩
  · rw [Position.tokenOf?_of_none hs, Position.tokenOf?_of_none hs']
    exact .none
  · rw [Position.tokenOf?_of_token? hs, Position.tokenOf?_of_token? hs']
    by_cases hc : c.isDigit = true
    · obtain ⟨htake, hdrop⟩ :=
        (Relaid.keep hends hr).digits (endsDigits_cons.trans endsDigits_cons.symm)
      rw [if_pos hc, if_pos hc]
      exact .some ⟨congrArg (fun ds => Term.num (Decimal.ofDigits ds)) htake, hdrop⟩
    · rw [if_neg hc, if_neg hc]
      exact .none

end Tokens

section Reading

/-- The text is read in the same way as each text that it is relaid to. -/
def ReadAlike (s : List Char) : Prop :=
  ∀ depth s', Relaid depth s s' →
    Alike depth (term (.atDepth depth)) s s' ∧ Alike depth (expression (.atDepth depth)) s s'

theorem alike_abstraction (ih : ∀ r, r.length < s.length → ReadAlike r) (h : Relaid depth s s') :
    Alike depth (abstraction (term (.atDepth depth)) (.atDepth depth)) s s' := by
  have hterm := local_term (.atDepth depth)
  refine h.alike_lambda.bind (fun _ => local_abstractionBody hterm _) ?_
  intro l r₁ r₁' hl h₁
  rw [read_lambda] at hl
  have hlt := Position.length_lt_of_token? (Position.tokenOf?_eq_some.mp hl).1
  refine h₁.alike_variableName.bind (fun _ => (local_symbol _ '.').bind fun _ =>
    hterm.bind fun _ => local_pure _) ?_
  intro x r₂ r₂' hx h₂
  have hle₂ := (local_variableName _).length_le hx
  refine (h₂.alike_symbol (depthAfter_of_ne (by decide) (by decide))).bind
    (fun _ => hterm.bind fun _ => local_pure _) ?_
  intro dot r₃ r₃' hdot h₃
  have hle₃ := (local_symbol _ '.').length_le hdot
  exact (ih r₃ (by omega) depth r₃' h₃).1.bind (fun _ => local_pure _) fun _ _ _ _ h =>
    alike_pure _ h

theorem alike_appliedAbstraction (ih : ∀ r, r.length < s.length → ReadAlike r)
    (h : Relaid depth s s') :
    Alike depth (appliedAbstraction (term (.atDepth depth)) (expression (.atDepth depth))
      (.atDepth depth)) s s' := by
  refine (alike_abstraction ih h).bind
    (fun _ => ((local_expression _).map _).orElse (local_pure _)) ?_
  intro f r r' hf hr
  have hlt := length_lt_of_read_abstraction (local_term _) hf
  exact ((ih r hlt depth r' hr).2.map _).orElse (alike_pure _ hr)

theorem alike_application (ih : ∀ r, r.length ≤ s.length → ReadAlike r)
    (h : Relaid depth s s') : Alike depth (application (expression (.atDepth depth))) s s' := by
  refine (ih s (Nat.le_refl _) depth s' h).2.bind
    (fun _ => (local_expression _).bind fun _ => local_pure _) ?_
  intro f r r' hf hr
  have hle := (local_expression _).length_le hf
  exact (ih r hle depth r' hr).2.bind (fun _ => local_pure _) fun _ _ _ _ h => alike_pure _ h

theorem alike_content (ih : ∀ r, r.length ≤ s.length → ReadAlike r)
    (h : Relaid (depth + 1) s s') : Alike depth (content term expression) s s' := by
  refine Alike.orElse ?_ ?_
  · exact (alike_appliedAbstraction (fun r hr => ih r hr.le) h).seqLeft (local_symbol _ ')')
      fun _ _ _ _ hr => hr.alike_symbol rfl
  · exact (alike_application ih h).seqLeft (local_symbol _ ')')
      fun _ _ _ _ hr => hr.alike_symbol rfl

theorem alike_parenthesized (ih : ∀ r, r.length < s.length → ReadAlike r)
    (h : Relaid depth s s') : Alike depth (parenthesized term expression (.atDepth depth)) s s' := by
  have hopen : Alike (depth + 1) (symbol (.atDepth depth) '(') s s' := h.alike_symbol rfl
  refine hopen.seqRight (local_content (local_term .nested) (local_expression .nested)) ?_
  intro l r r' hl hr
  rw [read_symbol] at hl
  have hlt := Position.length_lt_of_token? (Position.tokenOf?_eq_some.mp hl).1
  exact alike_content (fun u hu => ih u (by omega)) hr

/-- By induction on the length: whatever stands inside a term or an expression stands behind one of
its tokens, with as many parentheses open before it in both texts. -/
theorem readAlike (s : List Char) : ReadAlike s := by
  induction hn : s.length using Nat.strongRecOn generalizing s with
  | _ n ih =>
      have ih : ∀ r, r.length < s.length → ReadAlike r := fun r hr => ih _ (hn ▸ hr) r rfl
      intro depth s' h
      have hvar : Alike depth (variableTerm (.atDepth depth)) s s' := h.alike_variableName.map _
      have hparens := alike_parenthesized ih h
      constructor
      · rw [Alike, read_term_eq_or, read_term_eq_or]
        have halternatives := hvar.orElse (h.alike_number.orElse
          (hparens.orElse (alike_abstraction ih h)))
        simpa only [Alike, read_orElse] using halternatives
      · rw [Alike, read_expression_eq_or, read_expression_eq_or]
        have halternatives := hvar.orElse (h.alike_number.orElse
          (hparens.orElse (alike_appliedAbstraction ih h)))
        simpa only [Alike, read_orElse] using halternatives

end Reading

section Outside

/-- Outside parentheses nothing is put in or left out. -/
theorem Relaid.dropWhile_isBlank (h : Relaid 0 s s') :
    Relaid 0 (s.dropWhile Text.isBlank) (s'.dropWhile Text.isBlank) := by
  induction s generalizing s' with
  | nil =>
      cases h
      exact .nil
  | cons c s ih =>
      cases h with
      | @keep _ _ _ s' hdigit h =>
          by_cases hc : Text.isBlank c = true
          · rw [depthAfter_of_isBlank hc] at h
            rw [List.dropWhile_cons_of_pos hc, List.dropWhile_cons_of_pos hc]
            exact ih h
          · rw [List.dropWhile_cons_of_neg hc, List.dropWhile_cons_of_neg hc]
            exact .keep hdigit h

theorem Relaid.ne_nil (h : Relaid 0 s s') (hs : s ≠ []) : s' ≠ [] := by
  cases h with
  | nil => exact hs
  | keep _ _ => exact List.cons_ne_nil _ _

theorem Relaid.isBlank_of_isBlank (h : Relaid 0 s s') (hs : ∀ c ∈ s, Text.isBlank c = true) :
    ∀ c ∈ s', Text.isBlank c = true := by
  have hdrop := h.dropWhile_isBlank
  rw [List.dropWhile_eq_nil_iff.mpr hs] at hdrop
  generalize hr : s'.dropWhile Text.isBlank = r at hdrop
  cases hdrop
  exact List.dropWhile_eq_nil_iff.mp hr

end Outside

end NormalOrder.Grammar

namespace NormalOrder.Term

open Grammar

/-- Blanks inside of parentheses, line breaks included, make no difference to the term that a text is
read as. -/
theorem parse_of_relaid {s s' : String} {t : Term} (h : Relaid 0 s.toList s'.toList)
    (hs : parse s = .ok t) : parse s' = .ok t := by
  have hlocal := local_expression .onLine
  obtain ⟨hcontent, rest, hread, hblanks⟩ := (Parser.readAll_eq_ok_iff hlocal).mp hs
  have halike : Alike 0 (expression .onLine) _ _ := (readAlike _ 0 _ h.dropWhile_isBlank).2
  obtain ⟨rest', hread', hrest⟩ := halike.some_of_some hread
  exact (Parser.readAll_eq_ok_iff hlocal).mpr ⟨h.dropWhile_isBlank.ne_nil hcontent, rest', hread',
    hrest.isBlank_of_isBlank hblanks⟩

theorem parse_of_relaid_spacedNumber :
    Relaid 0 "((a 12) 3)".toList "(\n(a12)\u2003 3 )".toList ∧
      parse "((a 12) 3)" = parse "(\n(a12)\u2003 3 )" ∧
      parse "((a 12) 3)" =
        .ok (.app (.app (.var "a") (.num (Decimal.ofDigits ['1', '2'])))
          (.num (Decimal.ofDigits ['3']))) := by
  have hrelaid : Relaid 0 "((a 12) 3)".toList "(\n(a12)\u2003 3 )".toList := by
    change Relaid 0 ['(', '(', 'a', ' ', '1', '2', ')', ' ', '3', ')']
      ['(', '\n', '(', 'a', '1', '2', ')', '\u2003', ' ', '3', ' ', ')']
    refine .keep nofun (.insert (by decide) (.keep nofun (.keep nofun (.delete (by decide) ?_))))
    refine .keep (fun _ => Iff.rfl) (.keep (fun _ => Iff.rfl) (.keep nofun ?_))
    refine .insert (by decide) (.keep nofun (.keep ?_ (.insert (by decide) (.keep nofun .nil))))
    simp [endsDigits_cons]
  have hparse : parse "((a 12) 3)" =
      .ok (.app (.app (.var "a") (.num (Decimal.ofDigits ['1', '2'])))
        (.num (Decimal.ofDigits ['3']))) := by
    decide +kernel
  exact ⟨hrelaid, hparse.trans (parse_of_relaid hrelaid hparse).symm, hparse⟩

end NormalOrder.Term
