/- Where the numbers that a run prints come from.

The numbers of a program are runs of digits in its text, and those of its values come from them and
from the operations that its lines reach. A run of digits is read as an infinite double if it is too
long, and an operation on finite doubles gives an infinite one if its exact result is too large.
There is no other way to an infinite double, or to one that is no number. -/
import NormalOrder.Proofs.Program.Results
import NormalOrder.Proofs.Program.RoundTrip
import NormalOrder.Proofs.Reduction.Numbers

namespace NormalOrder

namespace Decimal

variable {ds : List Char}

theorem digitValue_lt {d : Char} (h : d.isDigit = true) : digitValue d < 10 := by
  simp only [Char.isDigit, Bool.and_eq_true, decide_eq_true_eq, UInt32.le_iff_toNat_le] at h
  have hhigh : d.toNat ≤ 57 := h.2
  have hzero : '0'.toNat = 48 := rfl
  rw [digitValue]
  omega

theorem value_lt_pow (hds : ∀ d ∈ ds, d.isDigit = true) : value ds < 10 ^ ds.length := by
  induction ds using List.reverseRecOn with
  | nil => exact Nat.one_pos
  | append_singleton ds d ih =>
      obtain ⟨hds, hd⟩ := List.forall_mem_append.mp hds
      have hdigit := digitValue_lt (hd d (List.mem_singleton_self d))
      have hlt := ih hds
      rw [Name.value_append, List.length_append, List.length_singleton, pow_succ]
      omega

/-- Numbers with fewer digits than the bound are below it. -/
theorem value_lt_bound (hds : ∀ d ∈ ds, d.isDigit = true) (hlength : ds.length ≤ 308) :
    value ds < Number.bound := by
  have hbound : 10 ^ 308 < (2 ^ 54 - 1) * 2 ^ 970 := by decide +kernel
  have hpow : 10 ^ ds.length ≤ 10 ^ 308 := pow_le_pow_right₀ (Nat.succ_pos 9) hlength
  exact Number.natCast_lt_bound_iff.mpr (((value_lt_pow hds).trans_le hpow).trans hbound)

end Decimal

namespace Grammar

variable {pos : Position} {nt : Nonterminal} {text lexeme rest : List Char} {t : Term} {v : Float}

/-- A run of digits in a text is read as this double. -/
def WrittenIn (text : List Char) (v : Float) : Prop :=
  ∃ ds, ds <:+: text ∧ (∀ d ∈ ds, d.isDigit = true) ∧ v = Decimal.ofDigits ds

theorem WrittenIn.of_suffix (hs : rest <:+ text) (h : WrittenIn rest v) : WrittenIn text v := by
  obtain ⟨ds, hinfix, hds, rfl⟩ := h
  exact ⟨ds, hinfix.trans hs.isInfix, hds, rfl⟩

theorem numbered_of_suffix (hs : rest <:+ text) (h : t.Numbered (WrittenIn rest)) :
    t.Numbered (WrittenIn text) :=
  fun v hv => (h v hv).of_suffix hs

theorem Position.Token.suffix (h : pos.Token text lexeme rest) : rest <:+ text := by
  obtain ⟨blanks, -, rfl⟩ := h
  exact ⟨blanks ++ lexeme, List.append_assoc ..⟩

theorem Position.Token.isInfix (h : pos.Token text lexeme rest) : lexeme <:+: text := by
  obtain ⟨blanks, -, rfl⟩ := h
  exact ⟨blanks, rest, List.append_assoc ..⟩

theorem Derives.suffix (h : Derives nt pos text t rest) : rest <:+ text := by
  obtain ⟨used, htext, -⟩ := h.takes
  exact ⟨used, htext.symm⟩

/-- The numbers of a term are runs of digits in the text that it derives from. -/
theorem Derives.numbered (h : Derives nt pos text t rest) : t.Numbered (WrittenIn text) := by
  induction h with
  | var _ _ => exact Term.numbered_var
  | num _ hds _ h => exact Term.numbered_num.mpr ⟨_, h.isInfix, hds, rfl⟩
  | abstraction _ h _ ih | ofAbstraction _ h _ ih => exact numbered_of_suffix h.suffix ih
  | enclosedAbstraction hopen _ h _ _ ih =>
      exact numbered_of_suffix (h.suffix.trans hopen.suffix) ih
  | enclosedApplied hopen _ h hf _ _ ihf iha =>
      have hbody := h.suffix.trans hopen.suffix
      have hargument := hf.suffix.trans hbody
      exact Term.numbered_app.mpr ⟨numbered_of_suffix hbody ihf, numbered_of_suffix hargument iha⟩
  | application hopen hf _ _ ihf iha =>
      have hfunction := hopen.suffix
      have hargument := hf.suffix.trans hfunction
      exact Term.numbered_app.mpr
        ⟨numbered_of_suffix hfunction ihf, numbered_of_suffix hargument iha⟩
  | body _ h hdot _ ih =>
      exact Term.numbered_lam.mpr (numbered_of_suffix (hdot.suffix.trans h.suffix) ih)
  | ofTerm _ ih => exact ih
  | applied _ h hf _ ihf iha =>
      have hbody := h.suffix
      have hargument := hf.suffix.trans hbody
      exact Term.numbered_app.mpr ⟨numbered_of_suffix hbody ihf, numbered_of_suffix hargument iha⟩

/-- The numbers in a line that was read are runs of digits in the text. -/
theorem numbered_of_read_line {l : Line} (h : line.read text = some (l, rest)) :
    l.term.Numbered (WrittenIn text) := by
  have hcontent : text.dropWhile Text.isBlank <:+ text := List.dropWhile_suffix _
  rw [read_line, Parser.read_orElse, Option.or_eq_some_iff] at h
  rcases h with h | ⟨-, h⟩
  · rw [read_bindLine] at h
    obtain ⟨⟨word, s₁⟩, hword, h⟩ := Option.bind_eq_some_iff.mp h
    obtain ⟨⟨name, s₂⟩, hname, h⟩ := Option.bind_eq_some_iff.mp h
    obtain ⟨⟨sign, s₃⟩, hsign, h⟩ := Option.bind_eq_some_iff.mp h
    obtain ⟨⟨t, s₄⟩, ht, h⟩ := Option.map_eq_some_iff.mp h
    cases h
    obtain ⟨-, hsign⟩ := Position.tokenOf?_char_eq_some.mp hsign
    have hs₁ : s₁ <:+ text := ((Parser.local_pattern _).suffix hword).trans hcontent
    have hs₂ : s₂ <:+ text := (local_bindName.suffix hname).trans hs₁
    have hterm : s₃ <:+ text := (Position.Token.of_token? hsign).suffix.trans hs₂
    exact numbered_of_suffix hterm ((sound s₃ .onLine t rest).2 ht).numbered
  · rw [evalLine, Parser.read_map] at h
    obtain ⟨⟨t, s⟩, ht, h⟩ := Option.map_eq_some_iff.mp h
    cases h
    exact numbered_of_suffix hcontent ((sound _ .onLine t rest).2 ht).numbered

/-- Digits alone are read as a number. -/
theorem read_expression_digits {ds : List Char} (hne : ds ≠ [])
    (hds : ∀ d ∈ ds, d.isDigit = true) :
    (expression pos).read ds = some (.num (Decimal.ofDigits ds), []) := by
  obtain ⟨d, more, rfl⟩ := List.exists_cons_of_ne_nil hne
  have hd := hds d (List.mem_cons_self ..)
  have hblank : ¬ pos.isBlank d = true := fun h => by
    have hdigit := isBlank_of_isDigit hd
    rw [Position.isBlank_of_isBlank h] at hdigit
    cases hdigit
  have htok : pos.token? (d :: more) = some (d, more) := by
    rw [Position.token?, List.dropWhile_cons_of_neg hblank]
  have hlambda : ¬ isLambda d = true := fun h => by
    rw [isDigit_eq_false_of_isLambda h] at hd
    cases hd
  rw [read_expression htok, if_neg hlambda, read_term_of_digit htok hd,
    List.takeWhile_eq_self_iff.mpr hds, List.dropWhile_eq_nil_iff.mpr hds]

end Grammar

namespace Program

open Grammar

variable {text : String} {program : Program} {fuel : Nat} {limits : Limits} {line : Nat} {env : Env}

theorem numbered_of_parse (h : parse text = .ok program) :
    ∀ l ∈ program, l.term.Numbered (WrittenIn text.toList) := by
  have hall := forall_mem_readLines text.toList fun hs hline =>
    numbered_of_suffix hs (numbered_of_read_line hline)
  rw [(parse_eq_ok_iff.mp h).2] at hall
  exact hall

/-- A run of digits alone is a program that prints it. -/
theorem parse_digits {ds : List Char} (hne : ds ≠ []) (hds : ∀ d ∈ ds, d.isDigit = true) :
    parse (String.ofList ds) = .ok [.eval (.num (Decimal.ofDigits ds))] := by
  have hcontent : ds.dropWhile Text.isBlank = ds := by
    obtain ⟨d, more, rfl⟩ := List.exists_cons_of_ne_nil hne
    rw [List.dropWhile_cons_of_neg]
    simp [isBlank_of_isDigit (hds d (List.mem_cons_self ..))]
  rw [parse_eq_ok_iff, String.toList_ofList, hcontent]
  refine ⟨hne, readLines_of_read_expression ?_ fun _ hc => absurd hc List.not_mem_nil⟩
  rw [hcontent]
  exact read_expression_digits hne hds

/-- A run goes beyond the doubles at one of its lines. -/
def Exceeds (fuel : Nat) (limits : Limits) (line : Nat) (env : Env) (program : Program) : Prop :=
  ∃ above l below values between, program = above ++ l :: below ∧
    runFrom fuel limits line env above = .ok (values, between) ∧ l.term.Exceeds fuel limits between

theorem run_finite {l : Line} {own : List Term} {last : Env}
    (hwithin : ¬ l.term.Exceeds fuel limits env) (hl : l.term.Finite) (henv : env.Finite)
    (h : l.run fuel limits line env = .ok (own, last)) : (∀ v ∈ own, v.Finite) ∧ last.Finite := by
  obtain ⟨value, tally, hr, hends⟩ := value_of_run h
  have hvalue := Term.finite_of_reduceWithin hwithin hl henv hr
  rcases hends with ⟨rfl, rfl⟩ | ⟨rfl, x, rfl⟩
  · exact ⟨List.forall_mem_singleton.mpr hvalue, henv⟩
  · exact ⟨fun _ hv => absurd hv List.not_mem_nil, henv.resolved hvalue Env.numbered_empty x⟩

theorem Exceeds.head {l : Line} {rest : Program} (h : l.term.Exceeds fuel limits env) :
    Exceeds fuel limits line env (l :: rest) :=
  ⟨[], l, rest, [], env, rfl, rfl, h⟩

theorem Exceeds.tail {l : Line} {rest : Program} {own : List Term} {between : Env}
    (hrun : l.run fuel limits line env = .ok (own, between))
    (h : Exceeds fuel limits (line + 1) between rest) :
    Exceeds fuel limits line env (l :: rest) := by
  obtain ⟨above, l', below, values, last, rfl, habove, hexceeds⟩ := h
  exact ⟨l :: above, l', below, own ++ values, last, rfl, runFrom_cons_of_ok hrun habove,
    hexceeds⟩

/-- By induction on the lines: finite numbers lead to finite numbers, unless a line goes beyond the
doubles. -/
theorem runFrom_finite {values : List Term} {last : Env}
    (hwithin : ¬ Exceeds fuel limits line env program) (hprogram : ∀ l ∈ program, l.term.Finite)
    (henv : env.Finite) (h : runFrom fuel limits line env program = .ok (values, last)) :
    ∀ v ∈ values, v.Finite := by
  induction program generalizing line env values last with
  | nil =>
      cases h
      exact fun _ hv => absurd hv List.not_mem_nil
  | cons l rest ih =>
      obtain ⟨hl, hrest⟩ := List.forall_mem_cons.mp hprogram
      obtain ⟨own, between, more, hrun, hbelow, rfl⟩ := runFrom_cons_eq_ok h
      obtain ⟨hown, hbetween⟩ := run_finite (fun hl => hwithin (.head hl)) hl henv hrun
      have hmore := ih (fun hrest => hwithin (.tail hrun hrest)) hrest hbetween hbelow
      exact List.forall_mem_append.mpr ⟨hown, hmore⟩

/-- All numbers that a program prints are finite, unless one of its own is a run of digits in its
text that writes a number not below the bound, or a line reaches an operation on finite numbers
whose exact result is not below it. -/
theorem finite_values_unless_exceeds (hparse : parse text = .ok program)
    {events after : List Event} {values : List Term}
    (hrun : execute fuel limits program events = .ok values after) :
    (∀ v ∈ values, v.Finite) ∨
      (∃ l ∈ program, ∃ ds, Decimal.ofDigits ds ∈ l.term.constants ∧ ds <:+: text.toList ∧
        (∀ d ∈ ds, d.isDigit = true) ∧ Number.bound ≤ Decimal.value ds) ∨
      Exceeds fuel limits 0 .empty program := by
  by_cases hprogram : ∀ l ∈ program, l.term.Finite
  · by_cases hexceeds : Exceeds fuel limits 0 .empty program
    · exact .inr (.inr hexceeds)
    · obtain ⟨last, hfrom⟩ := exists_runFrom_of_execute hrun
      exact .inl (runFrom_finite hexceeds hprogram Env.numbered_empty hfrom)
  · simp only [Term.Finite, Term.Numbered, not_forall] at hprogram
    obtain ⟨l, hl, v, hv, hinfinite⟩ := hprogram
    obtain ⟨ds, hinfix, hds, rfl⟩ := numbered_of_parse hparse l hl v hv
    rw [Number.isFinite_ofDigits_iff, not_lt] at hinfinite
    exact .inr (.inl ⟨l, hl, ds, hv, hinfix, hds, hinfinite⟩)

/-- Squares of squares: the fourth is beyond the doubles. -/
def squaresText : String :=
  "let s = \\x.((* x) x)\n(s (s (s (s 100000000000000000000))))"

def squares : Program :=
  [.bind "s" (.lam "x" (.app (.app (.var "*") (.var "x")) (.var "x"))),
    .eval (.app (.var "s") (.app (.var "s") (.app (.var "s") (.app (.var "s")
      (.num (Decimal.ofDigits ('1' :: List.replicate 20 '0')))))))]

/-- The digits of the text are too few to write an infinite number, so an operation is reached that
gives one. -/
theorem exceeds_squares :
    parse squaresText = .ok squares ∧
      (∃ after, execute 40 {} squares [] = .ok [.num (1.0 / 0.0)] after) ∧
      Exceeds 40 {} 0 .empty squares := by
  have hparse : parse squaresText = .ok squares := by decide +kernel
  have hresults : results 40 {} squares = .ok [.num (1.0 / 0.0)] := by decide +kernel
  obtain ⟨after, hrun⟩ := exists_execute_of_results hresults
  refine ⟨hparse, ⟨after, hrun⟩, ?_⟩
  rcases finite_values_unless_exceeds hparse hrun with hfinite | hdigits | hexceeds
  · exact absurd (hfinite _ (List.mem_singleton.mpr rfl)) (by decide)
  · obtain ⟨l, -, ds, -, hinfix, hds, hbound⟩ := hdigits
    have hshort : ds.length ≤ 308 := hinfix.length_le.trans (by decide)
    exact absurd hbound (not_le.mpr (Decimal.value_lt_bound hds hshort))
  · exact hexceeds

/-- A one with 309 zeros is printed as an infinite number. -/
theorem infinite_of_long_digits :
    ∃ program values after,
      parse (String.ofList ('1' :: List.replicate 309 '0')) = .ok program ∧
        execute ampleFuel {} program [] = .ok values after ∧ ¬ ∀ v ∈ values, v.Finite := by
  have hds : ∀ d ∈ '1' :: List.replicate 309 '0', d.isDigit = true :=
    List.forall_mem_cons.mpr ⟨rfl, fun d hd => List.eq_of_mem_replicate hd ▸ rfl⟩
  have hparse := parse_digits (List.cons_ne_nil '1' (List.replicate 309 '0')) hds
  refine ⟨_, _, _, hparse, rfl, fun hfinite => ?_⟩
  have hnumber := Term.numbered_num.mp (hfinite _ (List.mem_singleton.mpr rfl))
  have hlt := (Number.isFinite_ofDigits_iff _).mp hnumber
  exact absurd (Number.natCast_lt_bound_iff.mp hlt) (by decide +kernel)

end Program

end NormalOrder
