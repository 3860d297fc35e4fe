/- Where the errors of the parser point.

Reading stops before a character that begins no line. Nothing that is read before it would go on with
such a character, but for the name of a binding, and a name without its sign is no binding. So what
stands before the place of an error is read alone as far as it was read in front of it. -/
import NormalOrder.Proofs.Program.RoundTrip

namespace NormalOrder

/-- A line is the first one of a text, without what ends it. -/
inductive IsFirstLine (line : List Char) : List Char → Prop
  | last (h : '\n' ∉ line) : IsFirstLine line line
  | lineFeed {more} (h : '\n' ∉ line) (hreturn : line.getLast? ≠ some '\r') :
      IsFirstLine line (line ++ '\n' :: more)
  | carriageReturn {more} (h : '\n' ∉ line) : IsFirstLine line (line ++ '\r' :: '\n' :: more)

theorem Cursor.isFirstLine_restOfLine (c : Cursor) : IsFirstLine c.restOfLine c.rest := by
  obtain ⟨taken, text⟩ := c
  have hsplit := List.takeWhile_append_dropWhile (p := (· ≠ '\n')) (l := text)
  have hline : '\n' ∉ text.takeWhile (· ≠ '\n') := fun h => by
    simpa using List.mem_takeWhile_imp h
  rw [restOfLine]
  dsimp only
  generalize text.takeWhile (· ≠ '\n') = line at hsplit hline
  cases hmore : text.dropWhile (· ≠ '\n') with
  | nil =>
      rw [hmore, List.append_nil] at hsplit
      subst hsplit
      rw [if_neg (by simp)]
      exact .last hline
  | cons d more =>
      have hd : d = '\n' := by
        have hnot := List.head?_dropWhile_not (· ≠ '\n') text
        rw [hmore] at hnot
        simpa using hnot
      subst hd
      rw [hmore] at hsplit
      subst hsplit
      by_cases hreturn : line.getLast? = some '\r'
      · obtain ⟨front, rfl⟩ := List.getLast?_eq_some_iff.mp hreturn
        rw [if_pos (by simp), List.dropLast_concat, List.append_assoc]
        exact .carriageReturn fun h => hline (List.mem_append_left _ h)
      · rw [if_neg (by simp [hreturn])]
        exact .lineFeed hline hreturn

/-- An error is about the place between `front` and `behind`: it has the line of that place and what
is left of the line, and what stands before the place can be read, if it is not blank. -/
structure ParseError.Locates {α : Type} (parse : String → Except ParseError α) (found : String)
    (line : Nat) (front behind : String) : Prop where
  content : ∃ c ∈ behind.toList.head?, Text.isBlank c = false
  number : line = front.toList.count '\n' + 1
  found : IsFirstLine found.toList behind.toList
  before : (∀ c ∈ front.toList, Text.isBlank c = true) ∨ ∃ value, parse front = .ok value

namespace Grammar

open NormalOrder.Parser

variable {text s r rest behind front : List Char} {c : Char} {t : Term} {l : Line}

section Cut

variable {α β : Type} {p q : Parser α}

/-- A text is read as far alone as in front of `behind`, and where the parser fails on both of them
together, it fails on the text alone. -/
structure Cuts (behind : List Char) (p : Parser α) : Prop where
  read : ∀ {s value r}, p.read (s ++ behind) = some (value, r ++ behind) →
    ∃ value, p.read s = some (value, r)
  none : ∀ {s}, p.read (s ++ behind) = none → p.read s = none

theorem Cuts.map (h : Cuts behind p) (f : α → β) : Cuts behind (f <$> p) := by
  constructor
  · intro s value r hread
    rw [read_map] at hread
    obtain ⟨⟨v, last⟩, hp, hstep⟩ := Option.map_eq_some_iff.mp hread
    cases hstep
    obtain ⟨v', hp'⟩ := h.read hp
    exact ⟨f v', by rw [read_map, hp']; rfl⟩
  · intro s hread
    rw [read_map, Option.map_eq_none_iff] at hread
    rw [read_map, h.none hread]
    rfl

/-- Where the first parser fails in front of what is cut off, it fails without it. -/
theorem Cuts.orElse (hp : Cuts behind p) (hq : Cuts behind q) : Cuts behind (p <|> q) := by
  constructor
  · intro s value r hread
    rw [read_orElse, Option.or_eq_some_iff] at hread
    rcases hread with hread | ⟨hnone, hread⟩
    · obtain ⟨v, hv⟩ := hp.read hread
      exact ⟨v, by rw [read_orElse, hv]; rfl⟩
    · obtain ⟨v, hv⟩ := hq.read hread
      exact ⟨v, by rw [read_orElse, hp.none hnone, hv]; rfl⟩
  · intro s hread
    rw [read_orElse, Option.or_eq_none_iff] at hread
    rw [read_orElse, hp.none hread.1, hq.none hread.2]
    rfl

end Cut

section Expressions

/-- What derives behind a text derives without what stands behind. -/
theorem Derives.cut (h : Derives .expression .onLine (s ++ behind) t (r ++ behind)) :
    Derives .expression .onLine s t r := by
  obtain ⟨used, htext, -, hderives⟩ := h.takes
  rw [← List.append_assoc, List.append_cancel_right_eq] at htext
  rw [htext]
  exact hderives r endsDigits_of_append

theorem Derives.append (h : Derives .expression .onLine s t r) (hbehind : EndsDigits behind) :
    Derives .expression .onLine (s ++ behind) t (r ++ behind) := by
  obtain ⟨used, rfl, -, hderives⟩ := h.takes
  rw [List.append_assoc]
  exact hderives (r ++ behind) fun hr => hr.append hbehind

/-- What the parser reads of a text is the longest expression that derives from it. -/
theorem Derives.exists_read (h : Derives .expression .onLine text t rest) :
    ∃ t last, (expression .onLine).read text = some (t, last) ∧
      (last = rest ∨ last.length < rest.length) := by
  obtain ⟨t', last, hread, rfl | ⟨-, a, ha⟩⟩ := h.reads
  · exact ⟨t', last, hread, .inl rfl⟩
  · exact ⟨t', last, hread, .inr (length_lt_of_read_expression ha)⟩

theorem cuts_expression (hbehind : EndsDigits behind) : Cuts behind (expression .onLine) := by
  constructor
  · intro s t r hread
    have hderives := ((sound _ .onLine t _).2 hread).cut
    obtain ⟨t', last, hlast, rfl | hlt⟩ := hderives.exists_read
    · exact ⟨t', hlast⟩
    · -- What goes beyond `r` alone goes beyond it in front of `behind` too.
      have hbeyond := ((sound s .onLine t' last).2 hlast).append hbehind
      obtain ⟨t'', last', hlast', hle⟩ := hbeyond.exists_read
      rw [hread] at hlast'
      cases hlast'
      rcases hle with heq | hle
      · rw [List.append_cancel_right_eq] at heq
        rw [heq] at hlt
        exact absurd hlt (Nat.lt_irrefl _)
      · rw [List.length_append, List.length_append] at hle
        omega
  · intro s hnone
    cases hread : (expression .onLine).read s with
    | none => rfl
    | some step =>
        have hderives := ((sound s .onLine step.1 step.2).2 hread).append hbehind
        obtain ⟨t, last, hsome, -⟩ := hderives.exists_read
        rw [hnone] at hsome
        cases hsome

end Expressions

section Lines

/-- What of a binding stands before its term. -/
inductive Heading : List Char → Prop
  | intro {blank blanks name blanks'} (hblank : Text.isInlineBlank blank = true)
      (hblanks : ∀ c ∈ blanks, Text.isInlineBlank c = true)
      (hname : Name.IsIdentifier (String.ofList name))
      (hblanks' : ∀ c ∈ blanks', Text.isInlineBlank c = true) :
      Heading ('l' :: 'e' :: 't' :: blank :: (blanks ++ (name ++ (blanks' ++ ['=']))))

theorem heading_of_read_bindLine (h : bindLine.read text = some (l, rest)) :
    ∃ used s t, Heading used ∧ text = used ++ s ∧
      (expression .onLine).read s = some (t, rest) := by
  rw [read_bindLine] at h
  obtain ⟨⟨word, s₁⟩, hword, h⟩ := Option.bind_eq_some_iff.mp h
  obtain ⟨⟨name, s₂⟩, hname, h⟩ := Option.bind_eq_some_iff.mp h
  obtain ⟨⟨sign, s₃⟩, hsign, h⟩ := Option.bind_eq_some_iff.mp h
  obtain ⟨⟨t, s₄⟩, ht, hstep⟩ := Option.map_eq_some_iff.mp h
  cases hstep
  obtain ⟨blank, hblank, rfl⟩ := letWord_of_read hword
  obtain ⟨blanks, hblanks, hidentifier, rfl⟩ := identifier_of_read hname
  obtain ⟨blanks', hblanks', rfl⟩ :=
    Position.Token.of_token? (Position.tokenOf?_char_eq_some.mp hsign).2
  exact ⟨_, s₃, t, .intro hblank hblanks hidentifier hblanks', by simp, ht⟩

/-- No letter stands where the name of a binding ends. -/
theorem exists_cons_of_sign {blanks : List Char} (h : ∀ c ∈ blanks, Text.isInlineBlank c = true)
    (s : List Char) :
    ∃ c more, blanks ++ '=' :: s = c :: more ∧ Text.isLetterOrNumeral c = false := by
  cases blanks with
  | nil => exact ⟨'=', s, rfl, by decide +kernel⟩
  | cons c blanks =>
      refine ⟨c, blanks ++ '=' :: s, rfl, ?_⟩
      rw [← Bool.not_eq_true]
      intro hletter
      have hblank := h c (List.mem_cons_self ..)
      rw [isInlineBlank_eq_false_of_isLetterOrNumeral hletter] at hblank
      cases hblank

theorem read_name_append {blanks : List Char}
    (h : ∀ c ∈ blanks, Position.onLine.isBlank c = true) :
    (afterInlineBlanks (pattern identifier)).read (blanks ++ text) =
      (afterInlineBlanks (pattern identifier)).read text := by
  have hread := read_afterBlanks (local_pattern identifier) .onLine
  refine (hread (blanks ++ text)).trans (Eq.trans ?_ (hread text).symm)
  rw [List.dropWhile_append_of_pos h]

theorem read_bindLine_of_heading {used : List Char} (h : Heading used) :
    ∃ name, ∀ s, bindLine.read (used ++ s) =
      ((expression .onLine).read s).map fun (t, rest) => (.bind name t, rest) := by
  obtain @⟨blank, blanks, name, blanks', hblank, hblanks, hname, hblanks'⟩ := h
  refine ⟨String.ofList name, fun s => ?_⟩
  have hne : name ≠ [] := by simpa using hname.nonempty
  have hletters : ∀ c ∈ name, Text.isLetterOrNumeral c = true := by simpa using hname.letters
  have hname : (afterInlineBlanks (pattern identifier)).read
      (blanks ++ (name ++ (blanks' ++ '=' :: s))) = some (name, blanks' ++ '=' :: s) := by
    obtain ⟨c, more, hmore, hc⟩ := exists_cons_of_sign hblanks' s
    rw [read_name_append hblanks, hmore, read_identifier hne hletters hc]
  have hsign : Position.onLine.tokenOf? (· == '=') (blanks' ++ '=' :: s) = some ('=', s) :=
    Position.tokenOf?_char_eq_some.mpr
      ⟨rfl, Position.Token.char? ⟨blanks', hblanks', rfl⟩ (by decide)⟩
  have htext : 'l' :: 'e' :: 't' :: blank :: (blanks ++ (name ++ (blanks' ++ ['=']))) ++ s =
      'l' :: 'e' :: 't' :: blank :: (blanks ++ (name ++ (blanks' ++ '=' :: s))) := by
    simp
  rw [htext, read_bindLine, read_letWord hblank, Option.bind_some]
  dsimp only
  rw [hname, Option.bind_some]
  dsimp only
  rw [hsign, Option.bind_some]

theorem cuts_bindLine (hbehind : EndsDigits behind) : Cuts behind bindLine := by
  have hexpression := cuts_expression hbehind
  constructor
  · intro s l r hread
    obtain ⟨used, s₁, t, hheading, htext, ht⟩ := heading_of_read_bindLine hread
    obtain ⟨taken, rfl, -⟩ := (local_expression .onLine).eq_some ht
    rw [← List.append_assoc, ← List.append_assoc, List.append_cancel_right_eq] at htext
    rw [← List.append_assoc] at ht
    obtain ⟨t', ht'⟩ := hexpression.read ht
    obtain ⟨name, hname⟩ := read_bindLine_of_heading hheading
    rw [htext, List.append_assoc, hname, ht']
    exact ⟨_, rfl⟩
  · intro s hnone
    cases hread : bindLine.read s with
    | none => rfl
    | some step =>
        obtain ⟨used, s₁, t, hheading, rfl, ht⟩ := heading_of_read_bindLine hread
        obtain ⟨name, hname⟩ := read_bindLine_of_heading hheading
        rw [List.append_assoc, hname, Option.map_eq_none_iff] at hnone
        rw [hexpression.none hnone] at ht
        cases ht

/-- What stands where reading stops: no line begins with it. -/
structure EndsLines (behind : List Char) : Prop where
  content : ∃ c more, behind = c :: more ∧ Text.isBlank c = false
  noLine : line.read behind = none

theorem EndsLines.endsDigits (h : EndsLines behind) : EndsDigits behind := by
  obtain ⟨c, more, rfl, hc⟩ := h.content
  have hnone := h.noLine
  rw [read_line, List.dropWhile_cons_of_neg (by rw [hc]; exact Bool.false_ne_true), read_orElse,
    Option.or_eq_none_iff, evalLine, read_map, Option.map_eq_none_iff] at hnone
  rw [endsDigits_cons, ← Bool.not_eq_true]
  intro hdigit
  have htoken : Position.onLine.token? (c :: more) = some (c, more) :=
    Position.Token.char? ⟨[], by simp, rfl⟩ hc
  have hlambda : ¬ isLambda c = true := fun hl => by
    rw [isDigit_eq_false_of_isLambda hl] at hdigit
    cases hdigit
  rw [read_expression htoken, if_neg hlambda, read_term_of_digit htoken hdigit] at hnone
  cases hnone.2

/-- The line in front of the place where reading stops is read alone. -/
theorem EndsLines.exists_read_line (h : EndsLines behind)
    (hread : line.read (s ++ behind) = some (l, r ++ behind)) :
    ∃ l, line.read s = some (l, r) := by
  have hcuts : Cuts behind (bindLine <|> evalLine) :=
    (cuts_bindLine h.endsDigits).orElse ((cuts_expression h.endsDigits).map _)
  by_cases hblank : s.dropWhile Text.isBlank = []
  · have hnone : line.read (s ++ behind) = line.read behind := by
      rw [read_line, read_line, List.dropWhile_append, if_pos (List.isEmpty_iff.mpr hblank)]
    rw [hnone, h.noLine] at hread
    cases hread
  · rw [read_line, dropWhile_append_of_ne_nil hblank] at hread
    rw [read_line]
    exact hcuts.read hread

/-- By induction on the length: each line in front of the place where reading stops is read alone,
and behind the last one only blanks are left. -/
theorem EndsLines.readLines_front (h : EndsLines behind)
    (hleft : (readLines (front ++ behind)).2 = behind) : (readLines front).2 = [] := by
  induction hn : front.length using Nat.strongRecOn generalizing front with
  | _ n ih =>
      cases hline : line.read (front ++ behind) with
      | none =>
          rw [readLines_of_none hline] at hleft
          have hblank : front.dropWhile Text.isBlank = [] := by
            by_contra hne
            rw [dropWhile_append_of_ne_nil hne] at hleft
            exact hne (List.append_left_eq_self.mp hleft)
          rw [Program.readLines_of_blanks hblank]
      | some step =>
          obtain ⟨l, rest⟩ := step
          rw [readLines_of_some hline] at hleft
          obtain ⟨r, hr⟩ := readLines_suffix rest
          rw [hleft] at hr
          subst hr
          obtain ⟨l', hfront⟩ := h.exists_read_line hline
          rw [readLines_of_some hfront]
          exact ih _ (hn ▸ (balance_of_read_line hfront).2.1) hleft rfl

/-- No line begins where the lines of a text end. -/
theorem read_line_readLines (text : List Char) : line.read (readLines text).2 = none := by
  induction hn : text.length using Nat.strongRecOn generalizing text with
  | _ n ih =>
      cases hline : line.read text with
      | none =>
          rw [readLines_of_none hline, read_line, List.dropWhile_idempotent, ← read_line, hline]
      | some step =>
          rw [readLines_of_some hline]
          exact ih _ (hn ▸ (balance_of_read_line hline).2.1) step.2 rfl

theorem exists_cons_of_content (h : text.dropWhile Text.isBlank ≠ []) :
    ∃ c more, text.dropWhile Text.isBlank = c :: more ∧ Text.isBlank c = false := by
  have hnot := List.head?_dropWhile_not Text.isBlank text
  cases hcontent : text.dropWhile Text.isBlank with
  | nil => exact absurd hcontent h
  | cons c more =>
      rw [hcontent] at hnot
      exact ⟨c, more, rfl, hnot⟩

theorem endsLines_readLines (hne : (readLines text).2 ≠ []) : EndsLines (readLines text).2 := by
  have hcontent : (readLines text).2.dropWhile Text.isBlank = (readLines text).2 :=
    List.dropWhile_idempotent _ _
  rw [← hcontent] at hne
  obtain ⟨c, more, hcons, hc⟩ := exists_cons_of_content hne
  exact ⟨⟨c, more, hcontent.symm.trans hcons, hc⟩, read_line_readLines text⟩

end Lines

end Grammar

section Errors

variable {α : Type} {text found : String} {line : Nat}

theorem ParseError.locates_of_leaving {parse : String → Except ParseError α}
    {front behind : List Char} (htext : front ++ behind = text.toList)
    (h : leaving text.toList behind = .unexpected found line)
    (hcontent : ∃ c more, behind = c :: more ∧ Text.isBlank c = false)
    (hbefore : (∀ c ∈ front, Text.isBlank c = true) ∨
      ∃ value, parse (String.ofList front) = .ok value) :
    text = String.ofList front ++ String.ofList behind ∧
      Locates parse found line (String.ofList front) (String.ofList behind) := by
  rw [leaving, ← htext, List.count_append, Nat.add_sub_cancel_right] at h
  cases h
  refine ⟨by rw [← String.ofList_append, htext, String.ofList_toList], ?_, ?_, ?_, ?_⟩
  · obtain ⟨c, more, rfl, hc⟩ := hcontent
    exact ⟨c, by simp, hc⟩
  · rw [String.toList_ofList]
  · rw [String.toList_ofList, String.toList_ofList]
    exact Cursor.isFirstLine_restOfLine ⟨[], behind⟩
  · rw [String.toList_ofList]
    exact hbefore

theorem Parser.readAll_eq_nothing_iff {p : Parser α} (hp : p.Local) (text : String) :
    p.readAll text = .error .nothing ↔ ∀ c ∈ text.toList, Text.isBlank c = true := by
  rw [readAll_eq hp, ← List.dropWhile_eq_nil_iff]
  generalize text.toList.dropWhile Text.isBlank = content
  dsimp only
  cases content with
  | nil => simp
  | cons c content =>
      rw [List.isEmpty_cons, if_neg Bool.false_ne_true]
      constructor
      · intro h
        split at h
        · cases h
        · split at h <;> cases h
      · intro h
        cases h

/-- An expression and the blanks around it are read alone. -/
theorem Term.exists_parse_front {leading content blanks behind : List Char} {t : Term}
    (hleading : ∀ c ∈ leading, Text.isBlank c = true)
    (hcontent : ∃ c more, content = c :: more ∧ Text.isBlank c = false)
    (hread : (Grammar.expression .onLine).read content = some (t, blanks ++ behind))
    (hblanks : ∀ c ∈ blanks, Text.isBlank c = true) :
    ∃ front t, leading ++ content = front ++ behind ∧ parse (String.ofList front) = .ok t := by
  obtain ⟨used, rfl, ⟨initial, last, hused, -⟩, hderives⟩ :=
    ((Grammar.sound content .onLine t _).2 hread).takes
  have hderives := hderives blanks fun _ => Grammar.endsDigits_of_blanks hblanks
  obtain ⟨t', ht'⟩ :=
    hderives.reads.of_no_expression (Grammar.read_expression_of_blanks hblanks)
  have hdrop : (leading ++ (used ++ blanks)).dropWhile Text.isBlank = used ++ blanks := by
    obtain ⟨c, more, hcons, hc⟩ := hcontent
    rw [List.dropWhile_append_of_pos hleading]
    cases used with
    | nil => simp at hused
    | cons d used =>
        cases hcons
        rw [List.cons_append, List.dropWhile_cons_of_neg (by rw [hc]; exact Bool.false_ne_true)]
  refine ⟨leading ++ (used ++ blanks), t', by simp, ?_⟩
  rw [parse, Parser.readAll_eq_ok_iff (Grammar.local_expression .onLine), String.toList_ofList,
    hdrop]
  exact ⟨by simp [hused], blanks, ht', hblanks⟩

theorem Term.locates_of_parse (h : Term.parse text = .error (.unexpected found line)) :
    ∃ front behind, text = front ++ behind ∧
      ParseError.Locates Term.parse found line front behind := by
  have htext := List.takeWhile_append_dropWhile (p := Text.isBlank) (l := text.toList)
  have hleading : ∀ c ∈ text.toList.takeWhile Text.isBlank, Text.isBlank c = true := fun c hc =>
    List.mem_takeWhile_imp hc
  rw [Term.parse, Parser.readAll_eq (Grammar.local_expression .onLine)] at h
  dsimp only at h
  split at h
  · cases h
  · rename_i hne
    rw [List.isEmpty_iff] at hne
    have hcontent := Grammar.exists_cons_of_content hne
    generalize text.toList.takeWhile Text.isBlank = leading at htext hleading
    generalize text.toList.dropWhile Text.isBlank = content at h htext hcontent
    split at h
    · exact ⟨_, _, ParseError.locates_of_leaving htext (Except.error.inj h) hcontent
        (.inl hleading)⟩
    · rename_i t rest hread
      split at h
      · cases h
      · rename_i hlast
        rw [List.isEmpty_iff] at hlast
        rw [← List.takeWhile_append_dropWhile (p := Text.isBlank) (l := rest)] at hread
        obtain ⟨front, t', hfront, ht'⟩ := exists_parse_front hleading hcontent hread
          fun c hc => List.mem_takeWhile_imp hc
        exact ⟨_, _, ParseError.locates_of_leaving (hfront.symm.trans htext) (Except.error.inj h)
          (Grammar.exists_cons_of_content hlast) (.inr ⟨t', ht'⟩)⟩

theorem Program.locates_of_parse (h : Program.parse text = .error (.unexpected found line)) :
    ∃ front behind, text = front ++ behind ∧
      ParseError.Locates Program.parse found line front behind ∧
      ∀ taken, Grammar.line ⟨taken, behind.toList⟩ = none := by
  rw [parse_eq] at h
  split at h
  · cases h
  · split at h
    · cases h
    · rename_i hlast
      rw [List.isEmpty_iff] at hlast
      have hends := Grammar.endsLines_readLines hlast
      obtain ⟨front, htext⟩ := Grammar.readLines_suffix text.toList
      have hfront : (Grammar.readLines front).2 = [] := hends.readLines_front (by rw [htext])
      have hbefore : (∀ c ∈ front, Text.isBlank c = true) ∨
          ∃ program, parse (String.ofList front) = .ok program := by
        by_cases hblank : front.dropWhile Text.isBlank = []
        · exact .inl (List.dropWhile_eq_nil_iff.mp hblank)
        · refine .inr ⟨(Grammar.readLines front).1, parse_eq_ok_iff.mpr ?_⟩
          rw [String.toList_ofList]
          exact ⟨hblank, Prod.ext rfl hfront⟩
      obtain ⟨heq, hlocates⟩ := ParseError.locates_of_leaving htext (Except.error.inj h)
        hends.content hbefore
      refine ⟨_, _, heq, hlocates, ?_⟩
      rw [String.toList_ofList]
      exact Grammar.local_line.eq_none hends.noLine

/-- A text cannot be read at all if and only if it is blank. Each other error is about a place of the
text: it has the number and the rest of the line of that place, where something stands, what stands
before the place is read alone, and no line of a program begins there. -/
theorem parse_errors_locate (text : String) :
    (Term.parse text = .error .nothing ↔ ∀ c ∈ text.toList, Text.isBlank c = true) ∧
      (Program.parse text = .error .nothing ↔ ∀ c ∈ text.toList, Text.isBlank c = true) ∧
      (∀ found line, Term.parse text = .error (.unexpected found line) →
        ∃ front behind, text = front ++ behind ∧
          ParseError.Locates Term.parse found line front behind) ∧
      ∀ found line, Program.parse text = .error (.unexpected found line) →
        ∃ front behind, text = front ++ behind ∧
          ParseError.Locates Program.parse found line front behind ∧
          ∀ taken, Grammar.line ⟨taken, behind.toList⟩ = none :=
  ⟨Parser.readAll_eq_nothing_iff (Grammar.local_expression .onLine) text,
    Parser.readAll_eq_nothing_iff Grammar.local_line.many text,
    fun _ _ => Term.locates_of_parse, fun _ _ => Program.locates_of_parse⟩

/-- The second line begins like a binding, and is read as far as its dot all the same. -/
theorem parse_errors_locate_failedBinding :
    (Term.parse "a\nlet l = .b\r\nc" = .error (.unexpected "let l = .b" 2) ∧
        ∃ front behind, "a\nlet l = .b\r\nc" = front ++ behind ∧
          ParseError.Locates Term.parse "let l = .b" 2 front behind) ∧
      Program.parse "a\nlet l = .b\r\nc" = .error (.unexpected ".b" 2) ∧
        ∃ front behind, "a\nlet l = .b\r\nc" = front ++ behind ∧
          ParseError.Locates Program.parse ".b" 2 front behind ∧
          ∀ taken, Grammar.line ⟨taken, behind.toList⟩ = none := by
  have hterm : Term.parse "a\nlet l = .b\r\nc" = .error (.unexpected "let l = .b" 2) := by
    decide +kernel
  have hprogram : Program.parse "a\nlet l = .b\r\nc" = .error (.unexpected ".b" 2) := by
    decide +kernel
  obtain ⟨-, -, hlocateTerm, hlocateProgram⟩ := parse_errors_locate "a\nlet l = .b\r\nc"
  exact ⟨⟨hterm, hlocateTerm _ _ hterm⟩, hprogram, hlocateProgram _ _ hprogram⟩

end Errors

end NormalOrder
