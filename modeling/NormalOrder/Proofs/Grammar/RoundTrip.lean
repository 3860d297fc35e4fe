/- Which terms are read back from what is written for them.

Names of one character that a variable may be are read back, others are not, and no number is: a
numeral always holds a character that belongs to no number in the grammar. -/
import NormalOrder.Proofs.Decimal.Layout
import NormalOrder.Proofs.Grammar.Acceptance

namespace NormalOrder

open Grammar

/-- A name that the grammar has: one character that a variable may be. -/
def Name.IsVariable (x : Name) : Prop :=
  ∃ c, isVariableChar c = true ∧ x = c.toString

namespace Term

/-- How many numbers a term holds. -/
def numbers : Term → Nat
  | var _ => 0
  | lam _ b => b.numbers
  | app f a => f.numbers + a.numbers
  | num _ => 1

/-- How many variables, binders' names included, and points are written for a term without numbers. -/
def marks : Term → Nat
  | var _ => 1
  | lam _ b => b.marks + 2
  | app f a => f.marks + a.marks
  | num _ => 0

end Term

namespace Grammar

open NormalOrder.Parser

variable {pos : Position} {text text' s rest : List Char} {c : Char} {t : Term}

section Written

theorem token?_cons (hc : Text.isBlank c = false) : pos.token? (c :: s) = some (c, s) :=
  Position.Token.char? ⟨[], by simp, rfl⟩ hc

/-- Blanks before the first token make no difference. -/
theorem read_term_congr (h : pos.token? text = pos.token? text') :
    (term pos).read text = (term pos).read text' := by
  cases htok : pos.token? text' with
  | none => rw [read_term_of_none htok, read_term_of_none (h.trans htok)]
  | some step => rw [read_term htok, read_term (h.trans htok)]

theorem read_expression_congr (h : pos.token? text = pos.token? text') :
    (expression pos).read text = (expression pos).read text' := by
  cases htok : pos.token? text' with
  | none => rw [read_expression_of_none htok, read_expression_of_none (h.trans htok)]
  | some step => rw [read_expression htok, read_expression (h.trans htok), read_term_congr h]

theorem read_expression_space :
    (expression pos).read (' ' :: s) = (expression pos).read s := by
  apply read_expression_congr
  have hblank : pos.isBlank ' ' = true := by cases pos <;> decide
  rw [Position.token?, List.dropWhile_cons_of_pos hblank, ← Position.token?]

theorem read_expression_of_read_term (ht : (term pos).read text = some (t, rest))
    (hrest : (expression pos).read rest = none) :
    (expression pos).read text = some (t, rest) := by
  cases htok : pos.token? text with
  | none =>
      rw [read_term_of_none htok] at ht
      cases ht
  | some step =>
      rw [read_expression htok, ht, Option.map_some, withArgument, hrest, ite_self]

/-- A term and an expression between parentheses are read as an application, whether the term is an
abstraction or not. -/
theorem read_content_of_argument {f a : Term} {s₂ s₃ : List Char}
    (hf : (term .nested).read text = some (f, s₂))
    (ha : (expression .nested).read s₂ = some (a, s₃))
    (hclose : Position.nested.token? s₃ = some (')', rest)) :
    (content term expression).read text = some (.app f a, rest) := by
  rw [content, read_orElse]
  cases htok : Position.nested.token? text with
  | none =>
      rw [read_term_of_none htok] at hf
      cases hf
  | some step =>
      obtain ⟨c, s⟩ := step
      by_cases hl : isLambda c = true
      · have happlied : (expression .nested).read text = some (.app f a, s₃) := by
          rw [read_expression htok, if_pos hl, hf, Option.map_some, withArgument, ha]
        rw [← read_appliedAbstraction_of_lambda hl htok] at happlied
        rw [read_closed_eq_some.mpr ⟨s₃, happlied, hclose⟩]
        rfl
      · have hfirst : (appliedAbstraction (term .nested) (expression .nested) .nested
            <* symbol .nested ')').read text = none := by
          rw [read_closed, read_appliedAbstraction (local_expression _),
            read_abstraction (local_term _), Position.tokenOf?_of_token? htok, if_neg hl]
          rfl
        have hexpr : (expression .nested).read text = some (f, s₂) := by
          rw [read_expression htok, if_neg hl, hf]
        have happ : (application (expression .nested)).read text = some (.app f a, s₃) := by
          rw [read_application (local_expression _), hexpr, Option.bind_some]
          dsimp only
          rw [ha]
          rfl
        rw [hfirst, read_closed_eq_some.mpr ⟨s₃, happ, hclose⟩]
        rfl

/-- Written terms are read back, whatever follows them. -/
theorem read_term_write (hnum : t.numbers = 0) (hnames : ∀ x ∈ t.names, x.IsVariable)
    (pos : Position) (rest : List Char) : (term pos).read (t.write rest) = some (t, rest) := by
  induction t generalizing pos rest with
  | var x =>
      obtain ⟨c, hc, rfl⟩ := hnames x (by simp [Term.names])
      have hwrite : (Term.var c.toString).write rest = c :: rest := by
        simp [Term.write, Char.toString]
      rw [hwrite, read_term_of_variable (token?_cons (isBlank_of_isVariableChar hc)) hc]
  | lam x b ih =>
      obtain ⟨c, hc, rfl⟩ := hnames x (by simp [Term.names])
      have hb := ih hnum (fun y hy => hnames y (by simp [Term.names, hy])) pos rest
      have hwrite : (Term.lam c.toString b).write rest = 'λ' :: c :: '.' :: b.write rest := by
        simp [Term.write, Char.toString]
      have hparam : pos.tokenOf? isVariableChar (c :: '.' :: b.write rest) =
          some (c, '.' :: b.write rest) := by
        rw [Position.tokenOf?_of_token? (token?_cons (isBlank_of_isVariableChar hc)), if_pos hc]
      have hdot : pos.tokenOf? (· == '.') ('.' :: b.write rest) = some ('.', b.write rest) := by
        rw [Position.tokenOf?_of_token? (token?_cons (by decide)), if_pos (by decide)]
      rw [hwrite, read_term_of_lambda (token?_cons (by decide)) (by decide),
        read_abstractionBody (local_term pos), hparam, Option.bind_some]
      dsimp only
      rw [hdot, Option.bind_some]
      dsimp only
      rw [hb]
      rfl
  | app f a ihf iha =>
      have hzero : f.numbers = 0 ∧ a.numbers = 0 := by simpa [Term.numbers] using hnum
      have hf := ihf hzero.1 (fun y hy => hnames y (by simp [Term.names, hy])) .nested
        (' ' :: a.write (')' :: rest))
      have ha := iha hzero.2 (fun y hy => hnames y (by simp [Term.names, hy])) .nested (')' :: rest)
      have hclose : Position.nested.token? (')' :: rest) = some (')', rest) :=
        token?_cons (by decide)
      have harg := read_expression_of_read_term ha (read_expression_of_close hclose)
      rw [← read_expression_space] at harg
      rw [Term.write, read_term_of_open (token?_cons (by decide))]
      exact read_content_of_argument hf harg hclose
  | num v => simp [Term.numbers] at hnum

theorem read_expression_write (hnum : t.numbers = 0) (hnames : ∀ x ∈ t.names, x.IsVariable) :
    (expression pos).read (t.write []) = some (t, []) :=
  read_expression_of_read_term (read_term_write hnum hnames pos [])
    (read_expression_of_blanks fun _ h => by cases h)

end Written

section Marks

/-- A character of a term that is part of no number, no parenthesis and no `λ`. -/
def isMark (c : Char) : Bool :=
  isVariableChar c || c == '.'

theorem isMark_eq_false (hvariable : ¬ isVariableChar c = true) (hpoint : c ≠ '.') :
    isMark c = false := by
  simp [isMark, hvariable, hpoint]

theorem isMark_eq_false_of_isBlank (h : Text.isBlank c = true) : isMark c = false := by
  refine isMark_eq_false (by simp [isVariableChar_iff, h]) ?_
  rintro rfl
  exact absurd h (by decide)

theorem isMark_eq_false_of_isDigit (h : c.isDigit = true) : isMark c = false := by
  refine isMark_eq_false (by simp [isVariableChar_iff, h]) ?_
  rintro rfl
  exact absurd h (by decide)

theorem isMark_eq_false_of_isLambda (h : isLambda c = true) : isMark c = false := by
  simp only [isLambda, Bool.or_eq_true, beq_iff_eq] at h
  rcases h with rfl | rfl <;> rfl

theorem countP_eq_zero_of_forall {s : List Char} (h : ∀ c ∈ s, isMark c = false) :
    s.countP isMark = 0 := by
  rw [List.countP_eq_zero]
  intro c hc
  rw [h c hc]
  exact Bool.false_ne_true

theorem countP_token {lexeme : List Char} (h : pos.Token text lexeme rest) :
    text.countP isMark = lexeme.countP isMark + rest.countP isMark := by
  obtain ⟨blanks, hblanks, rfl⟩ := h
  have hzero : blanks.countP isMark = 0 := countP_eq_zero_of_forall fun c hc =>
    isMark_eq_false_of_isBlank (Position.isBlank_of_isBlank (hblanks c hc))
  rw [List.countP_append, List.countP_append, hzero, Nat.zero_add]

theorem countP_mark (hc : isMark c = true) (h : pos.Token text [c] rest) :
    text.countP isMark = rest.countP isMark + 1 := by
  rw [countP_token h, List.countP_singleton, if_pos hc, Nat.add_comm]

theorem countP_of_not_mark (hc : isMark c = false) (h : pos.Token text [c] rest) :
    text.countP isMark = rest.countP isMark := by
  rw [countP_token h, List.countP_singleton, hc, if_neg Bool.false_ne_true, Nat.zero_add]

/-- A derivation takes as many marks as its tree has. -/
theorem Derives.countP {nt : Nonterminal} (h : Derives nt pos text t rest) :
    text.countP isMark = t.marks + rest.countP isMark := by
  have hvar : ∀ {c}, isVariableChar c = true → isMark c = true := fun hc => by simp [isMark, hc]
  induction h with
  | var hx h => rw [countP_mark (hvar hx) h, Term.marks, Nat.add_comm]
  | num _ hds _ h =>
      have hzero := countP_eq_zero_of_forall fun d hd => isMark_eq_false_of_isDigit (hds d hd)
      rw [countP_token h, hzero, Term.marks]
  | abstraction hl h _ ihf =>
      rw [countP_of_not_mark (isMark_eq_false_of_isLambda hl) h, ihf]
  | enclosedAbstraction hopen hl h _ hclose ihf =>
      rw [countP_of_not_mark (by decide) hopen,
        countP_of_not_mark (isMark_eq_false_of_isLambda hl) h, ihf,
        countP_of_not_mark (by decide) hclose]
  | enclosedApplied hopen hl h _ _ hclose ihf iha =>
      rw [countP_of_not_mark (by decide) hopen,
        countP_of_not_mark (isMark_eq_false_of_isLambda hl) h, ihf, iha,
        countP_of_not_mark (by decide) hclose, Term.marks, Nat.add_assoc]
  | application hopen _ _ hclose ihf iha =>
      rw [countP_of_not_mark (by decide) hopen, ihf, iha, countP_of_not_mark (by decide) hclose,
        Term.marks, Nat.add_assoc]
  | body hx h hdot _ ihb =>
      rw [countP_mark (hvar hx) h, countP_mark (by decide) hdot, ihb, Term.marks]
      omega
  | ofTerm _ ih => exact ih
  | ofAbstraction hl h _ ihf =>
      rw [countP_of_not_mark (isMark_eq_false_of_isLambda hl) h, ihf]
  | applied hl h _ _ ihf iha =>
      rw [countP_of_not_mark (isMark_eq_false_of_isLambda hl) h, ihf, iha, Term.marks,
        Nat.add_assoc]

theorem Derives.isVariable_of_mem_names {nt : Nonterminal} (h : Derives nt pos text t rest) :
    ∀ x ∈ t.names, x.IsVariable := by
  induction h with
  | var hx _ =>
      intro y hy
      rw [Term.names, List.mem_singleton] at hy
      exact ⟨_, hx, hy⟩
  | num _ _ _ _ => exact fun _ hy => absurd hy List.not_mem_nil
  | body hx _ _ _ ihb =>
      intro y hy
      rw [Term.names, Names.mem_union, List.mem_singleton] at hy
      exact hy.elim (fun h => ⟨_, hx, h⟩) (ihb y)
  | abstraction _ _ _ ih | enclosedAbstraction _ _ _ _ _ ih | ofTerm _ ih
  | ofAbstraction _ _ _ ih => exact ih
  | enclosedApplied _ _ _ _ _ _ ihf iha | application _ _ _ _ ihf iha | applied _ _ _ _ ihf iha =>
      intro y hy
      rw [Term.names, Names.mem_union] at hy
      exact hy.elim (ihf y) (iha y)

end Marks

end Grammar

namespace Term

open Grammar

theorem names_eq_and_marks_eq_of_agrees {t u : Term} (h : t.agrees u = true) :
    t.names = u.names ∧ t.marks = u.marks := by
  fun_induction agrees t u with
  | case1 x y => simp_all [names, marks]
  | case2 x b y c ih => simp_all [names, marks]
  | case3 f a g b ihf iha => simp_all [names, marks]
  | case4 v w => exact ⟨rfl, rfl⟩
  | case5 t u => cases h

theorem numeral_marks : numeral.Marks isMark fun _ => true where
  digit _ _ := rfl
  minus := rfl
  point := by decide
  wholeMark := by decide
  exponentMark := by decide
  infinite := ⟨by decide, by decide⟩
  notNumber := ⟨by decide, by decide⟩

/-- A written term has a mark for each of its own, and one more in every number. -/
theorem le_countP_write {t : Term} (hnames : ∀ x ∈ t.names, x.IsVariable) (rest : List Char) :
    t.marks + t.numbers + rest.countP isMark ≤ (t.write rest).countP isMark := by
  induction t generalizing rest with
  | var x =>
      obtain ⟨c, hc, rfl⟩ := hnames x (by simp [names])
      have hmark : isMark c = true := by simp [isMark, hc]
      simp [write, marks, numbers, Char.toString, hmark, Nat.add_comm]
  | lam x b ih =>
      obtain ⟨c, hc, rfl⟩ := hnames x (by simp [names])
      have hb := ih (fun y hy => hnames y (by simp [names, hy])) rest
      have hmark : isMark c = true := by simp [isMark, hc]
      have hlambda : isMark 'λ' = false := by decide
      have hpoint : isMark '.' = true := by decide
      simp only [write, marks, numbers, Char.toString, String.toList_singleton, List.cons_append,
        List.nil_append, List.countP_cons, hmark, hlambda, hpoint, if_true]
      omega
  | app f a ihf iha =>
      have hf := ihf (fun y hy => hnames y (by simp [names, hy])) (' ' :: a.write (')' :: rest))
      have ha := iha (fun y hy => hnames y (by simp [names, hy])) (')' :: rest)
      have hopen : isMark '(' = false := by decide
      have hspace : isMark ' ' = false := by decide
      have hclose : isMark ')' = false := by decide
      simp only [List.countP_cons, hspace, hclose] at hf ha
      simp only [write, marks, numbers, List.countP_cons, hopen]
      omega
  | num v =>
      obtain ⟨c, hc, hmark⟩ := List.any_eq_true.mp (numeral_marks.write v).behind
      have hpos : 0 < (numeral.write v).countP isMark :=
        List.countP_pos_iff.mpr ⟨c, List.mem_of_mem_tail hc, hmark⟩
      simp only [write, marks, numbers, List.countP_append]
      omega

theorem agrees_self {t : Term} (h : t.numbers = 0) : t.agrees t = true := by
  induction t with
  | var x => simp [agrees]
  | lam x b ih => simp [agrees, ih h]
  | app f a ihf iha =>
      have hzero : f.numbers = 0 ∧ a.numbers = 0 := by simpa [numbers] using h
      simp [agrees, ihf hzero.1, iha hzero.2]
  | num v => simp [numbers] at h

theorem exists_cons_write {t : Term} (hnum : t.numbers = 0) (hnames : ∀ x ∈ t.names, x.IsVariable) :
    ∃ c s, t.write [] = c :: s ∧ Text.isBlank c = false := by
  cases t with
  | var x =>
      obtain ⟨c, hc, rfl⟩ := hnames x (by simp [names])
      exact ⟨c, [], by simp [write, Char.toString], isBlank_of_isVariableChar hc⟩
  | lam x b => exact ⟨'λ', _, rfl, by decide⟩
  | app f a => exact ⟨'(', _, rfl, by decide⟩
  | num v => simp [numbers] at hnum

theorem parse_inline {t : Term} (hnum : t.numbers = 0) (hnames : ∀ x ∈ t.names, x.IsVariable) :
    parse t.inline = .ok t := by
  obtain ⟨c, s, hwrite, hc⟩ := exists_cons_write hnum hnames
  have hcontent : t.inline.toList.dropWhile Text.isBlank = t.write [] := by
    rw [inline, String.toList_ofList, hwrite, List.dropWhile_cons_of_neg]
    rw [hc]
    exact Bool.false_ne_true
  refine (Parser.readAll_eq_ok_iff (local_expression .onLine)).mpr ⟨?_, [], ?_, ?_⟩
  · rw [hcontent, hwrite]
    exact List.cons_ne_nil _ _
  · rw [hcontent, read_expression_write hnum hnames]
  · exact fun _ h => absurd h List.not_mem_nil

/-- A term read from what is written for another has fewer marks, unless the other has no number. -/
theorem numbers_eq_zero_of_parse_inline {e t : Term} (ht : parse e.inline = .ok t)
    (hnames : t.names = e.names) (hmarks : t.marks = e.marks) :
    e.numbers = 0 ∧ ∀ x ∈ e.names, x.IsVariable := by
  obtain ⟨-, rest, hread, hblanks⟩ := (Parser.readAll_eq_ok_iff (local_expression .onLine)).mp ht
  have hderives := (sound _ .onLine t rest).2 hread
  have hvariable := hderives.isVariable_of_mem_names
  rw [hnames] at hvariable
  refine ⟨?_, hvariable⟩
  have hrest : rest.countP isMark = 0 := countP_eq_zero_of_forall fun c hc =>
    isMark_eq_false_of_isBlank (hblanks c hc)
  have hfront : (e.inline.toList.takeWhile Text.isBlank).countP isMark = 0 :=
    countP_eq_zero_of_forall fun c hc => isMark_eq_false_of_isBlank (List.mem_takeWhile_imp hc)
  have hcount : (e.write []).countP isMark = t.marks := by
    have hsplit := List.takeWhile_append_dropWhile (p := Text.isBlank) (l := e.inline.toList)
    rw [inline, String.toList_ofList] at hsplit hfront hderives
    rw [← hsplit, List.countP_append, hfront, hderives.countP, hrest, Nat.zero_add, Nat.add_zero]
  have hle := le_countP_write hvariable []
  omega

/-- A term is read back from what is written for it if and only if it holds no number and each of
its names, those of binders included, is one character that a variable may be. It is then read back
exactly, and otherwise not even as a term that agrees with it. -/
theorem parse_inline_iff (e : Term) :
    ((∃ t, parse e.inline = .ok t ∧ (t == e) = true) ↔
        e.numbers = 0 ∧ ∀ x ∈ e.names, x.IsVariable) ∧
      (parse e.inline = .ok e ↔ e.numbers = 0 ∧ ∀ x ∈ e.names, x.IsVariable) := by
  refine ⟨⟨?_, ?_⟩, ?_, ?_⟩
  · rintro ⟨t, ht, hagrees⟩
    obtain ⟨hnames, hmarks⟩ := names_eq_and_marks_eq_of_agrees hagrees
    exact numbers_eq_zero_of_parse_inline ht hnames hmarks
  · exact fun h => ⟨e, parse_inline h.1 h.2, agrees_self h.1⟩
  · exact fun h => numbers_eq_zero_of_parse_inline h rfl rfl
  · exact fun h => parse_inline h.1 h.2

end Term

end NormalOrder
