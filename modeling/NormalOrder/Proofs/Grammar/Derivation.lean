/- The grammar of terms as a relation: which texts derive which terms.

    expression      ::= term | lambda abstractionBody [expression]
    term            ::= variable | number | lambda abstractionBody
                      | "(" lambda abstractionBody [expression] ")" | "(" expression expression ")"
    abstractionBody ::= variable "." term

What follows a text matters to its derivation only where a run of digits could go on. -/
import Mathlib.Data.List.TakeWhile
import Mathlib.Logic.Relation
import NormalOrder.Proofs.Grammar.Reading

namespace NormalOrder.Grammar

inductive Nonterminal
  | expression
  | term
  | abstractionBody

/-- `text` is blanks, then `lexeme`, then `rest`. -/
def Position.Token (pos : Position) (text lexeme rest : List Char) : Prop :=
  ∃ blanks, (∀ c ∈ blanks, pos.isBlank c = true) ∧ text = blanks ++ (lexeme ++ rest)

/-- A run of digits cannot go on into what follows. -/
def EndsDigits (rest : List Char) : Prop :=
  ∀ c ∈ rest.head?, c.isDigit = false

/-- `text` without `rest` derives a nonterminal, and the term is the tree of the derivation. -/
inductive Derives : Nonterminal → Position → List Char → Term → List Char → Prop
  | var {pos text rest x} (hx : isVariableChar x = true) (h : pos.Token text [x] rest) :
      Derives .term pos text (.var x.toString) rest
  | num {pos text rest ds} (hne : ds ≠ []) (hds : ∀ d ∈ ds, d.isDigit = true)
      (hrest : EndsDigits rest) (h : pos.Token text ds rest) :
      Derives .term pos text (.num (Decimal.ofDigits ds)) rest
  | abstraction {pos text s rest l f} (hl : isLambda l = true) (h : pos.Token text [l] s)
      (hf : Derives .abstractionBody pos s f rest) : Derives .term pos text f rest
  | enclosedAbstraction {pos text s₁ s₂ s₃ rest l f} (hopen : pos.Token text ['('] s₁)
      (hl : isLambda l = true) (h : Position.nested.Token s₁ [l] s₂)
      (hf : Derives .abstractionBody .nested s₂ f s₃)
      (hclose : Position.nested.Token s₃ [')'] rest) : Derives .term pos text f rest
  | enclosedApplied {pos text s₁ s₂ s₃ s₄ rest l f a} (hopen : pos.Token text ['('] s₁)
      (hl : isLambda l = true) (h : Position.nested.Token s₁ [l] s₂)
      (hf : Derives .abstractionBody .nested s₂ f s₃) (ha : Derives .expression .nested s₃ a s₄)
      (hclose : Position.nested.Token s₄ [')'] rest) : Derives .term pos text (.app f a) rest
  | application {pos text s₁ s₂ s₃ rest f a} (hopen : pos.Token text ['('] s₁)
      (hf : Derives .expression .nested s₁ f s₂) (ha : Derives .expression .nested s₂ a s₃)
      (hclose : Position.nested.Token s₃ [')'] rest) : Derives .term pos text (.app f a) rest
  | body {pos text s₁ s₂ rest x b} (hx : isVariableChar x = true) (h : pos.Token text [x] s₁)
      (hdot : pos.Token s₁ ['.'] s₂) (hb : Derives .term pos s₂ b rest) :
      Derives .abstractionBody pos text (.lam x.toString b) rest
  | ofTerm {pos text rest t} (h : Derives .term pos text t rest) :
      Derives .expression pos text t rest
  | ofAbstraction {pos text s rest l f} (hl : isLambda l = true) (h : pos.Token text [l] s)
      (hf : Derives .abstractionBody pos s f rest) : Derives .expression pos text f rest
  | applied {pos text s₁ s₂ rest l f a} (hl : isLambda l = true) (h : pos.Token text [l] s₁)
      (hf : Derives .abstractionBody pos s₁ f s₂) (ha : Derives .expression pos s₂ a rest) :
      Derives .expression pos text (.app f a) rest

variable {pos : Position} {text lexeme rest rest' : List Char} {c : Char}

section Digits

variable {s behind : List Char}

theorem endsDigits_cons : EndsDigits (c :: s) ↔ c.isDigit = false := by
  simp [EndsDigits]

theorem endsDigits_of_append (h : EndsDigits (s ++ behind)) : EndsDigits s := by
  cases s with
  | nil => exact fun _ h => by cases h
  | cons c s => exact h

theorem EndsDigits.append (h : EndsDigits s) (hbehind : EndsDigits behind) :
    EndsDigits (s ++ behind) := by
  cases s with
  | nil => exact hbehind
  | cons c s => exact h

theorem EndsDigits.takeWhile_eq (h : EndsDigits s) : s.takeWhile Char.isDigit = [] := by
  cases s with
  | nil => rfl
  | cons c s => rw [List.takeWhile_cons_of_neg (by simp [endsDigits_cons.mp h])]

theorem EndsDigits.dropWhile_eq (h : EndsDigits s) : s.dropWhile Char.isDigit = s := by
  cases s with
  | nil => rfl
  | cons c s => rw [List.dropWhile_cons_of_neg (by simp [endsDigits_cons.mp h])]

end Digits

section Tokens

/-- A token that begins with no blank is found where the blanks end. -/
theorem Position.Token.token? (h : pos.Token text (c :: lexeme) rest)
    (hc : Text.isBlank c = false) : pos.token? text = some (c, lexeme ++ rest) := by
  obtain ⟨blanks, hblanks, rfl⟩ := h
  have hpos : pos.isBlank c = false := by
    cases hb : pos.isBlank c with
    | false => rfl
    | true => rw [Position.isBlank_of_isBlank hb] at hc; cases hc
  have hdrop : (blanks ++ (c :: lexeme ++ rest)).dropWhile pos.isBlank = c :: (lexeme ++ rest) := by
    rw [List.dropWhile_append_of_pos hblanks, List.cons_append, List.dropWhile_cons_of_neg]
    rw [hpos]
    exact Bool.false_ne_true
  rw [Position.token?, hdrop]

theorem Position.Token.char? (h : pos.Token text [c] rest) (hc : Text.isBlank c = false) :
    pos.token? text = some (c, rest) :=
  h.token? hc

theorem Position.Token.of_token? (h : pos.token? text = some (c, rest)) :
    pos.Token text [c] rest := by
  refine ⟨text.takeWhile pos.isBlank, fun d hd => List.mem_takeWhile_imp hd, ?_⟩
  have happend := List.takeWhile_append_dropWhile (p := pos.isBlank) (l := text)
  rw [Position.token?] at h
  split at h
  · cases h
  · rename_i d more hdrop
    cases h
    rw [hdrop] at happend
    exact happend.symm

theorem isBlank_of_isVariableChar (h : isVariableChar c = true) : Text.isBlank c = false :=
  (isVariableChar_iff.mp h).2.2.2.2.2

theorem isBlank_of_isLambda (h : isLambda c = true) : Text.isBlank c = false := by
  simp only [isLambda, Bool.or_eq_true, beq_iff_eq] at h
  rcases h with rfl | rfl <;> decide

theorem isBlank_of_isDigit (h : c.isDigit = true) : Text.isBlank c = false := by
  simp only [Char.isDigit, Bool.and_eq_true, decide_eq_true_eq, ge_iff_le, UInt32.le_iff_toNat_le]
    at h
  have hlow : 48 ≤ c.toNat := h.1
  have hhigh : c.toNat ≤ 57 := h.2
  rw [← Bool.not_eq_true, Text.isBlank, Text.Ranges.contains_iff]
  simp only [Text.blankRanges, List.mem_cons, List.not_mem_nil, or_false, exists_eq_or_imp,
    exists_eq_left]
  omega

theorem endsDigits_cons_of_isBlank {s : List Char} (h : Text.isBlank c = true) :
    EndsDigits (c :: s) := by
  rw [endsDigits_cons, ← Bool.not_eq_true]
  intro hdigit
  rw [isBlank_of_isDigit hdigit] at h
  cases h

end Tokens

section Used

variable {nt : Nonterminal} {s : List Char} {t : Term}

/-- A text that is not empty and does not end in a blank. -/
def EndsInToken (used : List Char) : Prop :=
  ∃ front c, used = front ++ [c] ∧ Text.isBlank c = false

/-- A relation between a text and what is left of it that goes by what it takes alone, and by
whether a digit follows. What it takes ends in a token. -/
def Takes (relation : List Char → List Char → Prop) (text rest : List Char) : Prop :=
  ∃ used, text = used ++ rest ∧ EndsInToken used ∧
    ∀ rest', (EndsDigits rest → EndsDigits rest') → relation (used ++ rest') rest'

variable {p q : List Char → List Char → Prop}

theorem Takes.mono (h : Takes p text rest) (himp : ∀ text rest, p text rest → q text rest) :
    Takes q text rest := by
  obtain ⟨used, htext, hends, hp⟩ := h
  exact ⟨used, htext, hends, fun rest' hrest => himp _ _ (hp rest' hrest)⟩

/-- What comes second takes something, so the first sees the same character behind it. -/
theorem Takes.andThen (hp : Takes p text s) (hq : Takes q s rest) :
    Takes (Relation.Comp p q) text rest := by
  obtain ⟨used, rfl, -, hp⟩ := hp
  obtain ⟨more, rfl, ⟨front, c, rfl, hc⟩, hq⟩ := hq
  refine ⟨used ++ (front ++ [c]), by simp, ⟨used ++ front, c, by simp, hc⟩, fun rest' hrest => ?_⟩
  have hhead : EndsDigits (front ++ [c] ++ rest) → EndsDigits (front ++ [c] ++ rest') := by
    cases front <;> exact id
  rw [List.append_assoc]
  exact ⟨_, hp _ hhead, hq rest' hrest⟩

theorem takes_token (h : pos.Token text lexeme rest) (hlex : EndsInToken lexeme) :
    Takes (fun text rest => pos.Token text lexeme rest) text rest := by
  obtain ⟨blanks, hblanks, rfl⟩ := h
  obtain ⟨front, c, rfl, hc⟩ := hlex
  refine ⟨blanks ++ (front ++ [c]), by simp, ⟨blanks ++ front, c, by simp, hc⟩, fun rest' _ => ?_⟩
  exact ⟨blanks, hblanks, by simp⟩

theorem takes_char {c : Char} (hc : Text.isBlank c = false) (h : pos.Token text [c] rest) :
    Takes (fun text rest => pos.Token text [c] rest) text rest :=
  takes_token h ⟨[], c, rfl, hc⟩

theorem takes_lambda {l : Char} (hl : isLambda l = true) (h : pos.Token text [l] rest) :
    Takes (fun text rest => pos.Token text [l] rest) text rest :=
  takes_char (isBlank_of_isLambda hl) h

theorem takes_digits {ds : List Char} (hne : ds ≠ []) (hds : ∀ d ∈ ds, d.isDigit = true)
    (hrest : EndsDigits rest) (h : pos.Token text ds rest) :
    Takes (fun text rest => EndsDigits rest ∧ pos.Token text ds rest) text rest := by
  have hlast := isBlank_of_isDigit (hds _ (List.getLast_mem hne))
  obtain ⟨used, htext, hends, htoken⟩ := takes_token h
    ⟨ds.dropLast, ds.getLast hne, (List.dropLast_concat_getLast hne).symm, hlast⟩
  exact ⟨used, htext, hends, fun rest' himp => ⟨himp hrest, htoken rest' himp⟩⟩

/-- The same characters derive the same term in front of anything that does not go on with a number
at their end. -/
theorem Derives.takes (h : Derives nt pos text t rest) :
    Takes (fun text rest => Derives nt pos text t rest) text rest := by
  induction h with
  | var hx h =>
      exact (takes_char (isBlank_of_isVariableChar hx) h).mono fun _ _ h => .var hx h
  | num hne hds hrest h =>
      exact (takes_digits hne hds hrest h).mono fun _ _ h => .num hne hds h.1 h.2
  | abstraction hl h _ ihf =>
      refine ((takes_lambda hl h).andThen ihf).mono ?_
      rintro _ _ ⟨_, h, hf⟩
      exact .abstraction hl h hf
  | enclosedAbstraction hopen hl h _ hclose ihf =>
      refine ((takes_char (by decide) hopen).andThen ((takes_lambda hl h).andThen
        (ihf.andThen (takes_char (by decide) hclose)))).mono ?_
      rintro _ _ ⟨_, hopen, _, h, _, hf, hclose⟩
      exact .enclosedAbstraction hopen hl h hf hclose
  | enclosedApplied hopen hl h _ _ hclose ihf iha =>
      refine ((takes_char (by decide) hopen).andThen ((takes_lambda hl h).andThen
        (ihf.andThen (iha.andThen (takes_char (by decide) hclose))))).mono ?_
      rintro _ _ ⟨_, hopen, _, h, _, hf, _, ha, hclose⟩
      exact .enclosedApplied hopen hl h hf ha hclose
  | application hopen _ _ hclose ihf iha =>
      refine ((takes_char (by decide) hopen).andThen (ihf.andThen
        (iha.andThen (takes_char (by decide) hclose)))).mono ?_
      rintro _ _ ⟨_, hopen, _, hf, _, ha, hclose⟩
      exact .application hopen hf ha hclose
  | body hx h hdot _ ihb =>
      refine ((takes_char (isBlank_of_isVariableChar hx) h).andThen
        ((takes_char (by decide) hdot).andThen ihb)).mono ?_
      rintro _ _ ⟨_, h, _, hdot, hb⟩
      exact .body hx h hdot hb
  | ofTerm _ ih => exact ih.mono fun _ _ h => .ofTerm h
  | ofAbstraction hl h _ ihf =>
      refine ((takes_lambda hl h).andThen ihf).mono ?_
      rintro _ _ ⟨_, h, hf⟩
      exact .ofAbstraction hl h hf
  | applied hl h _ _ ihf iha =>
      refine ((takes_lambda hl h).andThen (ihf.andThen iha)).mono ?_
      rintro _ _ ⟨_, h, _, hf, ha⟩
      exact .applied hl h hf ha

end Used

end NormalOrder.Grammar
