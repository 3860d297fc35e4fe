/- The parser accepts what the grammar derives, and gives the tree of a derivation. -/
import Mathlib.Data.List.DropRight
import NormalOrder.Proofs.Grammar.Derivation
import NormalOrder.Proofs.Parsing.Whole

namespace NormalOrder.Grammar

open NormalOrder.Parser

variable {pos : Position} {text s rest : List Char} {c : Char} {t f : Term} {nt : Nonterminal}

section Sound

variable {n : Nat}

/-- What is read on a text is derived from it. -/
def Sound (text : List Char) : Prop :=
  ∀ pos t rest,
    ((term pos).read text = some (t, rest) → Derives .term pos text t rest) ∧
      ((expression pos).read text = some (t, rest) → Derives .expression pos text t rest)

theorem withArgument_eq {argument : Parser Term} {step : Term × List Char}
    (h : withArgument argument step = (t, rest)) :
    (∃ a, argument.read step.2 = some (a, rest) ∧ t = .app step.1 a) ∨ step = (t, rest) := by
  rw [withArgument] at h
  split at h
  · rename_i a last ha
    cases h
    exact .inl ⟨a, ha, rfl⟩
  · exact .inr h

theorem derives_of_read_abstractionBody (ih : ∀ s, s.length < n → Sound s) (hlen : text.length < n)
    (h : (abstractionBody (term pos) pos).read text = some (f, rest)) :
    Derives .abstractionBody pos text f rest := by
  rw [read_abstractionBody (local_term pos)] at h
  obtain ⟨⟨x, s₁⟩, hx, h⟩ := Option.bind_eq_some_iff.mp h
  obtain ⟨⟨dot, s₂⟩, hdot, h⟩ := Option.bind_eq_some_iff.mp h
  obtain ⟨⟨b, last⟩, hb, hf⟩ := Option.map_eq_some_iff.mp h
  cases hf
  obtain ⟨hx, hvar⟩ := Position.tokenOf?_eq_some.mp hx
  obtain ⟨-, hdot⟩ := Position.tokenOf?_char_eq_some.mp hdot
  have hlt₁ := pos.length_lt_of_token? hx
  have hlt₂ := pos.length_lt_of_token? hdot
  exact .body hvar (.of_token? hx) (.of_token? hdot) ((ih s₂ (by omega) pos b _).1 hb)

theorem derives_of_read_content (ih : ∀ s, s.length < n → Sound s) (hlen : s.length < n)
    (hopen : pos.Token text ['('] s) (h : (content term expression).read s = some (t, rest)) :
    Derives .term pos text t rest := by
  rw [content, read_orElse, Option.or_eq_some_iff] at h
  rcases h with h | ⟨-, h⟩
  · obtain ⟨last, hu, hclose⟩ := read_closed_eq_some.mp h
    rw [read_appliedAbstraction (local_expression _)] at hu
    obtain ⟨⟨f, s₃⟩, hf, hu⟩ := Option.map_eq_some_iff.mp hu
    rw [read_abstraction (local_term _)] at hf
    obtain ⟨⟨l, s₂⟩, hl, hf⟩ := Option.bind_eq_some_iff.mp hf
    obtain ⟨hl, hlam⟩ := Position.tokenOf?_eq_some.mp hl
    have hlt := Position.length_lt_of_token? hl
    have hbody := derives_of_read_abstractionBody ih (by omega) hf
    have hle := (local_abstractionBody (local_term _) _).length_le hf
    rcases withArgument_eq hu with ⟨a, ha, rfl⟩ | hstep
    · have harg := (ih s₃ (by omega) .nested a last).2 ha
      exact .enclosedApplied hopen hlam (.of_token? hl) hbody harg (.of_token? hclose)
    · cases hstep
      exact .enclosedAbstraction hopen hlam (.of_token? hl) hbody (.of_token? hclose)
  · obtain ⟨last, hu, hclose⟩ := read_closed_eq_some.mp h
    rw [read_application (local_expression _)] at hu
    obtain ⟨⟨f, s₂⟩, hf, hu⟩ := Option.bind_eq_some_iff.mp hu
    obtain ⟨⟨a, s₃⟩, ha, hstep⟩ := Option.map_eq_some_iff.mp hu
    cases hstep
    have hle := (local_expression _).length_le hf
    exact .application hopen ((ih s hlen .nested f s₂).2 hf)
      ((ih s₂ (by omega) .nested a last).2 ha) (.of_token? hclose)

/-- The longest run of digits is a number. -/
theorem derives_number (htok : pos.token? text = some (c, s)) (hc : c.isDigit = true) :
    Derives .term pos text (.num (Decimal.ofDigits ((c :: s).takeWhile Char.isDigit)))
      ((c :: s).dropWhile Char.isDigit) := by
  refine .num (by simp [hc]) (fun d hd => List.mem_takeWhile_imp hd) ?_ ?_
  · intro d hd
    have hnot := List.head?_dropWhile_not Char.isDigit (c :: s)
    rw [Option.mem_def.mp hd] at hnot
    exact hnot
  · obtain ⟨blanks, hblanks, htext⟩ := Position.Token.of_token? htok
    refine ⟨blanks, hblanks, ?_⟩
    rw [List.takeWhile_append_dropWhile, htext]
    rfl

theorem derives_of_read_term (ih : ∀ s, s.length < text.length → Sound s)
    (h : (term pos).read text = some (t, rest)) : Derives .term pos text t rest := by
  cases htok : pos.token? text with
  | none =>
      rw [read_term_of_none htok] at h
      cases h
  | some step =>
      obtain ⟨c, s⟩ := step
      have hlt := pos.length_lt_of_token? htok
      rw [read_term htok] at h
      split at h
      · rename_i hvar
        cases h
        exact .var hvar (.of_token? htok)
      · split at h
        · rename_i hdigit
          cases h
          exact derives_number htok hdigit
        · split at h
          · rename_i hchar
            subst hchar
            exact derives_of_read_content ih hlt (.of_token? htok) h
          · split at h
            · rename_i hlam
              exact .abstraction hlam (.of_token? htok) (derives_of_read_abstractionBody ih hlt h)
            · cases h

theorem sound (text : List Char) : Sound text := by
  induction hn : text.length using Nat.strongRecOn generalizing text with
  | _ n ih =>
      have ih : ∀ s, s.length < text.length → Sound s := fun s hs => ih _ (hn ▸ hs) s rfl
      intro pos t rest
      refine ⟨derives_of_read_term ih, fun h => ?_⟩
      cases htok : pos.token? text with
      | none =>
          rw [read_expression_of_none htok] at h
          cases h
      | some step =>
          obtain ⟨c, s⟩ := step
          have hlt := pos.length_lt_of_token? htok
          rw [read_expression htok] at h
          split at h
          · rename_i hlam
            obtain ⟨⟨f, s₂⟩, hf, hu⟩ := Option.map_eq_some_iff.mp h
            rcases withArgument_eq hu with ⟨a, ha, rfl⟩ | hstep
            · rw [read_term_of_lambda htok hlam] at hf
              have hle := (local_abstractionBody (local_term pos) pos).length_le hf
              exact .applied hlam (.of_token? htok) (derives_of_read_abstractionBody ih hlt hf)
                ((ih s₂ (by omega) pos a rest).2 ha)
            · cases hstep
              exact .ofTerm (derives_of_read_term ih hf)
          · exact .ofTerm (derives_of_read_term ih h)

end Sound

section Complete

/-- What the parser does with a text that derives a nonterminal. It reads a term as far as the
derivation goes; an expression may be an abstraction that it goes on to apply. -/
def Reads : Nonterminal → Position → List Char → List Char → Prop
  | .term, pos, text, rest => ∃ t, (term pos).read text = some (t, rest)
  | .abstractionBody, pos, text, rest =>
    ∃ t, (abstractionBody (term pos) pos).read text = some (t, rest)
  | .expression, pos, text, rest => ∃ t last, (expression pos).read text = some (t, last) ∧
    (last = rest ∨ (∃ l s, isLambda l = true ∧ pos.token? text = some (l, s)) ∧
      ∃ a, (expression pos).read rest = some (a, last))

theorem Reads.of_no_expression (h : Reads .expression pos text rest)
    (hrest : (expression pos).read rest = none) :
    ∃ t, (expression pos).read text = some (t, rest) := by
  obtain ⟨t, last, ht, rfl | ⟨-, a, ha⟩⟩ := h
  · exact ⟨t, ht⟩
  · rw [hrest] at ha
    cases ha

theorem read_appliedAbstraction_of_lambda (hl : isLambda c = true)
    (h : pos.token? text = some (c, s)) :
    (appliedAbstraction (term pos) (expression pos) pos).read text = (expression pos).read text := by
  rw [read_expression h, if_pos hl, read_term_of_lambda h hl,
    read_appliedAbstraction (local_expression pos), read_abstraction (local_term pos),
    Position.tokenOf?_of_token? h, if_pos hl]
  rfl

theorem read_expression_of_appliedAbstraction
    (h : (appliedAbstraction (term pos) (expression pos) pos).read text = some (t, rest)) :
    (expression pos).read text = some (t, rest) := by
  have hlam := h
  rw [read_appliedAbstraction (local_expression pos), read_abstraction (local_term pos)] at hlam
  obtain ⟨step, hstep, -⟩ := Option.map_eq_some_iff.mp hlam
  obtain ⟨⟨l, s⟩, hl, -⟩ := Option.bind_eq_some_iff.mp hstep
  obtain ⟨htok, hl⟩ := Position.tokenOf?_eq_some.mp hl
  rw [← read_appliedAbstraction_of_lambda hl htok]
  exact h

theorem reads_expression_of_lambda (hl : isLambda c = true) (h : pos.token? text = some (c, s))
    (hf : Reads .abstractionBody pos s rest) : Reads .expression pos text rest := by
  obtain ⟨f, hf⟩ := hf
  rw [Reads, read_expression h, if_pos hl, read_term_of_lambda h hl, hf, Option.map_some,
    withArgument]
  cases ha : (expression pos).read rest with
  | none => exact ⟨f, rest, rfl, .inl rfl⟩
  | some step => exact ⟨.app f step.1, step.2, rfl, .inr ⟨⟨c, s, hl, h⟩, step.1, rfl⟩⟩

theorem reads_expression_of_term (h : Reads .term pos text rest) :
    Reads .expression pos text rest := by
  obtain ⟨t, ht⟩ := h
  cases htok : pos.token? text with
  | none =>
      rw [read_term_of_none htok] at ht
      cases ht
  | some step =>
      obtain ⟨c, s⟩ := step
      by_cases hl : isLambda c = true
      · rw [read_term_of_lambda htok hl] at ht
        exact reads_expression_of_lambda hl htok ⟨t, ht⟩
      · refine ⟨t, rest, ?_, .inl rfl⟩
        rw [read_expression htok, if_neg hl, ht]

theorem reads_expression_of_applied (hl : isLambda c = true) (h : pos.token? text = some (c, s))
    {s₂ : List Char} (hf : Reads .abstractionBody pos s s₂) (ha : Reads .expression pos s₂ rest) :
    Reads .expression pos text rest := by
  obtain ⟨f, hf⟩ := hf
  obtain ⟨a, last, ha, hlast⟩ := ha
  refine ⟨.app f a, last, ?_, hlast.imp_right fun hmore => ⟨⟨c, s, hl, h⟩, hmore.2⟩⟩
  rw [read_expression h, if_pos hl, read_term_of_lambda h hl, hf, Option.map_some, withArgument, ha]

/-- One expression between the parentheses: it has to be an abstraction, applied or not. -/
theorem reads_content_of_lambda (hl : isLambda c = true)
    (h : Position.nested.token? text = some (c, s)) {s₃ : List Char}
    (ht : Reads .expression .nested text s₃) (hclose : Position.nested.token? s₃ = some (')', rest)) :
    ∃ t, (content term expression).read text = some (t, rest) := by
  obtain ⟨t, ht⟩ := ht.of_no_expression (read_expression_of_close hclose)
  rw [← read_appliedAbstraction_of_lambda hl h] at ht
  refine ⟨t, ?_⟩
  rw [content, read_orElse, read_closed_eq_some.mpr ⟨s₃, ht, hclose⟩]
  rfl

/-- Two expressions between the parentheses. If the parser takes both for one, the first is an
abstraction and the second its argument. -/
theorem reads_content_of_application {s₂ s₃ : List Char} (hf : Reads .expression .nested text s₂)
    (ha : Reads .expression .nested s₂ s₃) (hclose : Position.nested.token? s₃ = some (')', rest)) :
    ∃ t, (content term expression).read text = some (t, rest) := by
  obtain ⟨a, ha⟩ := ha.of_no_expression (read_expression_of_close hclose)
  obtain ⟨f, last, hf, rfl | ⟨⟨c, s, hl, h⟩, a', ha'⟩⟩ := hf
  · have hsecond : (application (expression .nested) <* symbol .nested ')').read text =
        some (.app f a, rest) := by
      refine read_closed_eq_some.mpr ⟨s₃, ?_, hclose⟩
      rw [read_application (local_expression _), hf, Option.bind_some]
      dsimp only
      rw [ha]
      rfl
    rw [content, read_orElse, hsecond]
    cases hfirst : (appliedAbstraction (term .nested) (expression .nested) .nested
        <* symbol .nested ')').read text with
    | none => exact ⟨_, rfl⟩
    | some step =>
        -- The first alternative stops where the argument begins, which is no place to close.
        obtain ⟨u, hu, hclose'⟩ := read_closed_eq_some.mp hfirst
        rw [read_expression_of_appliedAbstraction hu] at hf
        cases hf
        rw [read_expression_of_close hclose'] at ha
        cases ha
  · rw [ha] at ha'
    cases ha'
    exact reads_content_of_lambda hl h ⟨f, s₃, hf, .inl rfl⟩ hclose

theorem reads_of_open (hopen : pos.Token text ['('] s)
    (h : ∃ t, (content term expression).read s = some (t, rest)) : Reads .term pos text rest := by
  obtain ⟨t, ht⟩ := h
  refine ⟨t, ?_⟩
  rw [read_term_of_open (hopen.char? (by decide))]
  exact ht

theorem reads_number {ds : List Char} (hne : ds ≠ []) (hds : ∀ d ∈ ds, d.isDigit = true)
    (hrest : EndsDigits rest) (h : pos.Token text ds rest) : Reads .term pos text rest := by
  cases ds with
  | nil => exact absurd rfl hne
  | cons d ds =>
      have hd := hds d (List.mem_cons_self ..)
      have hdrop : (d :: (ds ++ rest)).dropWhile Char.isDigit = rest := by
        rw [← List.cons_append, List.dropWhile_append_of_pos hds, hrest.dropWhile_eq]
      refine ⟨.num (Decimal.ofDigits ((d :: (ds ++ rest)).takeWhile Char.isDigit)), ?_⟩
      rw [read_term_of_digit (h.token? (isBlank_of_isDigit hd)) hd, hdrop]

/-- The parser reads whatever derives, as far as `Reads` says. -/
theorem Derives.reads (h : Derives nt pos text t rest) :
    Reads nt pos text rest := by
  induction h with
  | var hx h => exact ⟨_, read_term_of_variable (h.char? (isBlank_of_isVariableChar hx)) hx⟩
  | num hne hds hrest h => exact reads_number hne hds hrest h
  | abstraction hl h _ ihf =>
      obtain ⟨f, hf⟩ := ihf
      exact ⟨f, by rw [read_term_of_lambda (h.char? (isBlank_of_isLambda hl)) hl]; exact hf⟩
  | enclosedAbstraction hopen hl h _ hclose ihf =>
      have h := h.char? (isBlank_of_isLambda hl)
      exact reads_of_open hopen (reads_content_of_lambda hl h
        (reads_expression_of_lambda hl h ihf) (hclose.char? (by decide)))
  | enclosedApplied hopen hl h _ _ hclose ihf iha =>
      have h := h.char? (isBlank_of_isLambda hl)
      exact reads_of_open hopen (reads_content_of_lambda hl h
        (reads_expression_of_applied hl h ihf iha) (hclose.char? (by decide)))
  | application hopen _ _ hclose ihf iha =>
      exact reads_of_open hopen (reads_content_of_application ihf iha (hclose.char? (by decide)))
  | @body pos text s₁ s₂ rest x b hx h hdot _ ihb =>
      obtain ⟨b, hb⟩ := ihb
      refine ⟨.lam x.toString b, ?_⟩
      rw [read_abstractionBody (local_term pos),
        Position.tokenOf?_of_token? (h.char? (isBlank_of_isVariableChar hx)), if_pos hx,
        Option.bind_some]
      dsimp only
      rw [Position.tokenOf?_char_eq_some.mpr ⟨rfl, hdot.char? (by decide)⟩, Option.bind_some]
      dsimp only
      rw [hb]
      rfl
  | ofTerm _ ih => exact reads_expression_of_term ih
  | ofAbstraction hl h _ ihf =>
      exact reads_expression_of_lambda hl (h.char? (isBlank_of_isLambda hl)) ihf
  | applied hl h _ _ ihf iha =>
      exact reads_expression_of_applied hl (h.char? (isBlank_of_isLambda hl)) ihf iha

end Complete

section Whole

/-- A text without the blanks around it. -/
def trimmed (text : List Char) : List Char :=
  (text.dropWhile Text.isBlank).rdropWhile Text.isBlank

theorem rdropWhile_isBlank_append {used tail : List Char} (hused : EndsInToken used)
    (htail : ∀ c ∈ tail, Text.isBlank c = true) :
    (used ++ tail).rdropWhile Text.isBlank = used := by
  obtain ⟨front, c, rfl, hc⟩ := hused
  have htail : ∀ d ∈ tail.reverse, Text.isBlank d = true := fun d hd =>
    htail d (List.mem_reverse.mp hd)
  rw [List.rdropWhile, List.reverse_append, List.dropWhile_append_of_pos htail, ← List.rdropWhile,
    List.rdropWhile_concat_neg]
  rw [hc]
  exact Bool.false_ne_true

theorem endsDigits_of_blanks {tail : List Char} (htail : ∀ c ∈ tail, Text.isBlank c = true) :
    EndsDigits tail := by
  cases tail with
  | nil => exact fun _ h => by cases h
  | cons c tail => exact endsDigits_cons_of_isBlank (htail c (List.mem_cons_self ..))

theorem read_expression_of_blanks {tail : List Char} (htail : ∀ c ∈ tail, Text.isBlank c = true) :
    (expression pos).read tail = none := by
  cases htok : pos.token? tail with
  | none => exact read_expression_of_none htok
  | some step =>
      obtain ⟨c, s⟩ := step
      obtain ⟨blanks, -, rfl⟩ := Position.Token.of_token? htok
      have hc : Text.isBlank c = true := htail c (by simp)
      refine read_expression_of_no_start htok ?_ ?_ ?_ ?_
      · simp [isVariableChar_iff, hc]
      · exact fun h => by simp [isBlank_of_isDigit h] at hc
      · rintro rfl
        exact absurd hc (by decide)
      · exact fun h => by simp [isBlank_of_isLambda h] at hc

end Whole

end NormalOrder.Grammar

namespace NormalOrder.Term

open Grammar

variable {text : String} {t : Term}

theorem derives_of_parse (h : parse text = .ok t) :
    Derives .expression .onLine (trimmed text.toList) t [] := by
  obtain ⟨-, rest, hread, hblanks⟩ := (Parser.readAll_eq_ok_iff (local_expression .onLine)).mp h
  obtain ⟨used, hcontent, hused, hderives⟩ := ((sound _ .onLine t rest).2 hread).takes
  rw [trimmed, hcontent, rdropWhile_isBlank_append hused hblanks]
  have hnil : EndsDigits [] := fun _ h => by cases h
  have hderived := hderives [] fun _ => hnil
  rw [List.append_nil] at hderived
  exact hderived

/-- The blanks behind an expression let no number in it and no argument behind it go on. -/
theorem exists_parse_of_derives (h : Derives .expression .onLine (trimmed text.toList) t []) :
    ∃ t, parse text = .ok t := by
  have htrimmed := List.rdropWhile_append_rtakeWhile (p := Text.isBlank)
    (l := text.toList.dropWhile Text.isBlank)
  have hblanks : ∀ c ∈ (text.toList.dropWhile Text.isBlank).rtakeWhile Text.isBlank,
      Text.isBlank c = true := fun c hc => List.mem_rtakeWhile_imp hc
  obtain ⟨used, hused, ⟨front, c, hfront, -⟩, hderives⟩ := h.takes
  rw [List.append_nil] at hused
  have hwhole := (hderives _ fun _ => endsDigits_of_blanks hblanks).reads
  rw [← hused, trimmed, htrimmed] at hwhole
  obtain ⟨t', ht'⟩ := hwhole.of_no_expression (read_expression_of_blanks hblanks)
  refine ⟨t', (Parser.readAll_eq_ok_iff (local_expression .onLine)).mpr ⟨?_, _, ht', hblanks⟩⟩
  rw [← htrimmed, ← trimmed, hused, hfront]
  simp

/-- A text is read as a term if and only if, without the blanks around it, it derives an expression,
and then the term is the tree of such a derivation. -/
theorem parse_iff_derives (text : String) :
    ((∃ t, parse text = .ok t) ↔
        ∃ t, Derives .expression .onLine (trimmed text.toList) t []) ∧
      ∀ t, parse text = .ok t → Derives .expression .onLine (trimmed text.toList) t [] :=
  ⟨⟨fun ⟨t, h⟩ => ⟨t, derives_of_parse h⟩, fun ⟨_, h⟩ => exists_parse_of_derives h⟩,
    fun _ h => derives_of_parse h⟩

end NormalOrder.Term
