/- The printed values of a program determine the values.

No line break stands in the lines of a term, so a printed text has the lines that it was made of,
and each line, or each stretch of lines at its level, determines a value. -/
import Mathlib.Data.List.Forall2
import NormalOrder.Program.Basic
import NormalOrder.Proofs.Program.Results
import NormalOrder.Proofs.Program.RoundTrip
import NormalOrder.Proofs.Term.Outline

namespace NormalOrder

section Lines

variable {sep : List Char} {ls ms : List (List Char)}

theorem intercalate_cons (sep l : List Char) (ls : List (List Char)) :
    sep.intercalate (l :: ls) = l ++ ls.flatMap (sep ++ ·) := by
  induction ls generalizing l with
  | nil => rw [List.intercalate_singleton, List.flatMap_nil, List.append_nil]
  | cons m ls ih =>
      rw [List.intercalate_cons_cons, ih, List.flatMap_cons]
      simp only [List.append_assoc]

theorem intercalate_append (hls : ls ≠ []) :
    sep.intercalate (ls ++ ms) = sep.intercalate ls ++ ms.flatMap (sep ++ ·) := by
  obtain ⟨l, ls, rfl⟩ := List.exists_cons_of_ne_nil hls
  rw [List.cons_append, intercalate_cons, intercalate_cons, List.flatMap_append, List.append_assoc]

/-- A text begins with its first line. -/
theorem intercalate_eq_nil (hls : ∀ l ∈ ls.head?, l ≠ []) (h : sep.intercalate ls = []) :
    ls = [] := by
  cases ls with
  | nil => rfl
  | cons l ls =>
      rw [intercalate_cons, List.append_eq_nil_iff] at h
      exact absurd h.1 (hls l rfl)

/-- A text of which the first line is not empty has the lines that it was made of. -/
theorem intercalate_newline_inj (hls : ∀ l ∈ ls, '\n' ∉ l) (hms : ∀ l ∈ ms, '\n' ∉ l)
    (hls' : ∀ l ∈ ls.head?, l ≠ []) (hms' : ∀ l ∈ ms.head?, l ≠ [])
    (h : ['\n'].intercalate ls = ['\n'].intercalate ms) : ls = ms := by
  by_cases hnil : ls = []
  · subst hnil
    exact (intercalate_eq_nil hms' h.symm).symm
  · have hne : ms ≠ [] := by
      rintro rfl
      exact hnil (intercalate_eq_nil hls' h)
    rw [← List.splitOn_intercalate '\n' hls hnil, h, List.splitOn_intercalate '\n' hms hne]

end Lines

namespace Term

variable {t : Term} {w : List Char}

theorem newline_not_mem_of_isWord (h : IsWord w) : '\n' ∉ w :=
  fun hmem => absurd (h.unseparated '\n' hmem) (by decide)

theorem newline_not_mem_write (ht : t.Legible) {rest : List Char} (hrest : '\n' ∉ rest) :
    '\n' ∉ t.write rest := by
  induction t generalizing rest with
  | var x => simp [write, newline_not_mem_of_isWord (named_var.mp ht).isWord, hrest]
  | num v => simp [write, newline_not_mem_of_isWord (isWord_numeral v), hrest]
  | lam x b ih =>
      obtain ⟨hx, hb⟩ := named_lam.mp ht
      simp [write, newline_not_mem_of_isWord hx.isWord, ih hb hrest]
  | app f a ihf iha =>
      obtain ⟨hf, ha⟩ := named_app.mp ht
      have hargument : '\n' ∉ a.write (')' :: rest) := iha ha (by simp [hrest])
      have hfunction : '\n' ∉ f.write (' ' :: a.write (')' :: rest)) :=
        ihf hf (by simp [hargument])
      simp [write, hfunction]

theorem write_ne_nil (ht : t.Legible) (rest : List Char) : t.write rest ≠ [] := by
  cases t with
  | var x => simp [write, (named_var.mp ht).isWord.nonempty]
  | num v => simp [write, (isWord_numeral v).nonempty]
  | lam x b => simp [write]
  | app f a => simp [write]

theorem newline_not_mem_head (ht : t.Legible) : '\n' ∉ t.head := by
  cases t with
  | var x => exact newline_not_mem_of_isWord (named_var.mp ht).isWord
  | num v => exact newline_not_mem_of_isWord (isWord_numeral v)
  | lam x b => simp [head, newline_not_mem_of_isWord (named_lam.mp ht).1.isWord]
  | app f a => simp [head]

theorem newline_not_mem_outlineLine (level : Nat) (hw : '\n' ∉ w) : '\n' ∉ outlineLine level w := by
  simp [outlineLine, hw]

theorem newline_not_mem_writeOutline (ht : t.Legible) {level : Nat} {rest : List (List Char)}
    (hrest : ∀ l ∈ rest, '\n' ∉ l) : ∀ l ∈ t.writeOutline level rest, '\n' ∉ l := by
  have hline := newline_not_mem_outlineLine level (newline_not_mem_head ht)
  induction t generalizing level rest with
  | var x => exact List.forall_mem_cons.mpr ⟨hline, hrest⟩
  | num v => exact List.forall_mem_cons.mpr ⟨hline, hrest⟩
  | lam x b ih =>
      obtain ⟨-, hb⟩ := named_lam.mp ht
      have hbody := newline_not_mem_outlineLine (level + 1) (newline_not_mem_head hb)
      exact List.forall_mem_cons.mpr ⟨hline, ih hb hrest hbody⟩
  | app f a ihf iha =>
      obtain ⟨hf, ha⟩ := named_app.mp ht
      have hfunction := newline_not_mem_outlineLine (level + 1) (newline_not_mem_head hf)
      have hargument := newline_not_mem_outlineLine (level + 1) (newline_not_mem_head ha)
      exact List.forall_mem_cons.mpr ⟨hline, ihf hf (iha ha hrest hargument) hfunction⟩

theorem writeOutline_append (t : Term) (level : Nat) (rest : List (List Char)) :
    t.writeOutline level rest = t.writeOutline level [] ++ rest := by
  induction t generalizing level rest with
  | var x => rfl
  | num v => rfl
  | lam x b ih => rw [writeOutline, writeOutline, ih (level + 1) rest, ← List.cons_append]
  | app f a ihf iha =>
      rw [writeOutline, writeOutline, ihf (level + 1) (a.writeOutline (level + 1) rest),
        iha (level + 1) rest, ihf (level + 1) (a.writeOutline (level + 1) []), List.cons_append,
        List.append_assoc]

theorem writeOutline_ne_nil (t : Term) (level : Nat) (rest : List (List Char)) :
    t.writeOutline level rest ≠ [] := by
  cases t <;> exact List.cons_ne_nil _ _

theorem outlineLines_ne_nil (t : Term) : t.outlineLines ≠ [] :=
  t.writeOutline_ne_nil 0 []

theorem head_ne_nil (ht : t.Legible) : t.head ≠ [] := by
  cases t with
  | var x => exact (named_var.mp ht).isWord.nonempty
  | num v => exact (isWord_numeral v).nonempty
  | lam x b => exact List.cons_ne_nil _ _
  | app f a => exact List.cons_ne_nil _ _

end Term

namespace Program

open Term

variable {ts us : List Term}

section Inline

theorem inline_looksAlike (hts : ∀ t ∈ ts, t.Legible) (hus : ∀ u ∈ us, u.Legible)
    (h : ts.map (·.write []) = us.map (·.write [])) : List.Forall₂ LooksAlike ts us := by
  induction ts generalizing us with
  | nil =>
      rw [List.map_nil, eq_comm, List.map_eq_nil_iff] at h
      subst h
      exact .nil
  | cons t ts ih =>
      cases us with
      | nil => cases h
      | cons u us =>
          obtain ⟨ht, hts⟩ := List.forall_mem_cons.mp hts
          obtain ⟨hu, hus⟩ := List.forall_mem_cons.mp hus
          obtain ⟨hwrite, hmap⟩ := List.cons.inj h
          exact .cons (LooksAlike.of_write ht hu endsWord_nil endsWord_nil hwrite).1
            (ih hts hus hmap)

theorem inlineValues_inj (hts : ∀ t ∈ ts, t.Legible) (hus : ∀ u ∈ us, u.Legible)
    (h : inlineValues ts = inlineValues us) : List.Forall₂ LooksAlike ts us := by
  have hnewline : ∀ {ts : List Term}, (∀ t ∈ ts, t.Legible) →
      ∀ l ∈ ts.map (·.write []), '\n' ∉ l := by
    intro ts hts l hl
    obtain ⟨t, ht, rfl⟩ := List.mem_map.mp hl
    exact newline_not_mem_write (hts t ht) List.not_mem_nil
  have hfirst : ∀ {ts : List Term}, (∀ t ∈ ts, t.Legible) →
      ∀ l ∈ (ts.map (·.write [])).head?, l ≠ [] := by
    intro ts hts l hl
    obtain ⟨t, ht, rfl⟩ := List.mem_map.mp (List.mem_of_mem_head? hl)
    exact write_ne_nil (hts t ht) []
  exact inline_looksAlike hts hus (intercalate_newline_inj (hnewline hts) (hnewline hus)
    (hfirst hts) (hfirst hus) (String.ofList_injective h))

end Inline

section Outline

/-- The lines of the outlines of values below another value, with an empty line above each. -/
def linesBelow : List Term → List (List Char)
  | [] => []
  | t :: ts => [] :: t.writeOutline 0 (linesBelow ts)

/-- The lines of the outlines of values. -/
def outlinesLines : List Term → List (List Char)
  | [] => []
  | t :: ts => t.writeOutline 0 (linesBelow ts)

theorem flatMap_linesBelow (ts : List Term) :
    (linesBelow ts).flatMap (['\n'] ++ ·) =
      (ts.map fun t => ['\n'].intercalate t.outlineLines).flatMap (['\n', '\n'] ++ ·) := by
  induction ts with
  | nil => rfl
  | cons t ts ih =>
      have hlines : t.outlineLines.flatMap (['\n'] ++ ·) =
          '\n' :: ['\n'].intercalate t.outlineLines := by
        obtain ⟨l, ls, hls⟩ := List.exists_cons_of_ne_nil t.outlineLines_ne_nil
        rw [hls, intercalate_cons]
        rfl
      have hbelow : linesBelow (t :: ts) = [] :: (t.outlineLines ++ linesBelow ts) := by
        rw [linesBelow, writeOutline_append, outlineLines]
      rw [hbelow, List.flatMap_cons, List.flatMap_append, hlines, ih, List.map_cons,
        List.flatMap_cons]
      rfl

theorem intercalate_outlinesLines (ts : List Term) :
    ['\n'].intercalate (outlinesLines ts) =
      ['\n', '\n'].intercalate (ts.map fun t => ['\n'].intercalate t.outlineLines) := by
  cases ts with
  | nil => rfl
  | cons t ts =>
      rw [outlinesLines, writeOutline_append, ← outlineLines,
        intercalate_append t.outlineLines_ne_nil, flatMap_linesBelow, List.map_cons,
        intercalate_cons]

/-- An empty line ends a level, and so does the end. -/
theorem endsLevel_linesBelow (ts : List Term) : EndsLevel 0 (linesBelow ts) := by
  cases ts with
  | nil => rintro l ⟨⟩
  | cons t ts =>
      rintro l ⟨⟩
      exact Nat.zero_le _

theorem linesBelow_inj (hts : ∀ t ∈ ts, t.Legible) (hus : ∀ u ∈ us, u.Legible)
    (h : linesBelow ts = linesBelow us) : List.Forall₂ LooksAlike ts us := by
  induction ts generalizing us with
  | nil =>
      cases us with
      | nil => exact .nil
      | cons u us => cases h
  | cons t ts ih =>
      cases us with
      | nil => cases h
      | cons u us =>
          obtain ⟨ht, hts⟩ := List.forall_mem_cons.mp hts
          obtain ⟨hu, hus⟩ := List.forall_mem_cons.mp hus
          obtain ⟨htu, hbelow⟩ := LooksAlike.of_writeOutline ht hu (endsLevel_linesBelow ts)
            (endsLevel_linesBelow us) (List.cons.inj h).2
          exact .cons htu (ih hts hus hbelow)

theorem newline_not_mem_linesBelow (hts : ∀ t ∈ ts, t.Legible) :
    ∀ l ∈ linesBelow ts, '\n' ∉ l := by
  induction ts with
  | nil => exact fun l hl => absurd hl List.not_mem_nil
  | cons t ts ih =>
      obtain ⟨ht, hts⟩ := List.forall_mem_cons.mp hts
      exact List.forall_mem_cons.mpr ⟨List.not_mem_nil, newline_not_mem_writeOutline ht (ih hts)⟩

theorem newline_not_mem_outlinesLines (hts : ∀ t ∈ ts, t.Legible) :
    ∀ l ∈ outlinesLines ts, '\n' ∉ l := by
  cases ts with
  | nil => exact fun l hl => absurd hl List.not_mem_nil
  | cons t ts =>
      obtain ⟨ht, hts⟩ := List.forall_mem_cons.mp hts
      exact newline_not_mem_writeOutline ht (newline_not_mem_linesBelow hts)

theorem head_outlinesLines_ne_nil (hts : ∀ t ∈ ts, t.Legible) :
    ∀ l ∈ (outlinesLines ts).head?, l ≠ [] := by
  cases ts with
  | nil => exact fun l hl => absurd hl (by simp [outlinesLines])
  | cons t ts =>
      obtain ⟨ht, -⟩ := List.forall_mem_cons.mp hts
      obtain ⟨lines, hlines⟩ := exists_cons_writeOutline t 0 (linesBelow ts)
      rw [outlinesLines, hlines]
      rintro l ⟨⟩
      simp [outlineLine, head_ne_nil ht]

theorem outlinesLines_inj (hts : ∀ t ∈ ts, t.Legible) (hus : ∀ u ∈ us, u.Legible)
    (h : outlinesLines ts = outlinesLines us) : List.Forall₂ LooksAlike ts us := by
  cases ts with
  | nil =>
      cases us with
      | nil => exact .nil
      | cons u us => exact absurd h.symm (writeOutline_ne_nil u 0 _)
  | cons t ts =>
      cases us with
      | nil => exact absurd h (writeOutline_ne_nil t 0 _)
      | cons u us => exact linesBelow_inj hts hus (congrArg ([] :: ·) h)

theorem outlineValues_inj (hts : ∀ t ∈ ts, t.Legible) (hus : ∀ u ∈ us, u.Legible)
    (h : outlineValues ts = outlineValues us) : List.Forall₂ LooksAlike ts us := by
  have htext := String.ofList_injective h
  rw [← intercalate_outlinesLines, ← intercalate_outlinesLines] at htext
  exact outlinesLines_inj hts hus (intercalate_newline_inj (newline_not_mem_outlinesLines hts)
    (newline_not_mem_outlinesLines hus) (head_outlinesLines_ne_nil hts)
    (head_outlinesLines_ne_nil hus) htext)

end Outline

/-- Printed values determine how many values there are and each of them, up to numbers with the
same numeral, whether they are printed inline or as outlines. This needs names of the shapes that
come up, which the values of all programs have. -/
theorem values_of_printed_eq :
    (∀ text program fuel limits values, parse text = .ok program →
      results fuel limits program = .ok values → ∀ v ∈ values, v.Legible) ∧
    ∀ ts us : List Term, (∀ t ∈ ts, t.Legible) → (∀ u ∈ us, u.Legible) →
      inlineValues ts = inlineValues us ∨ outlineValues ts = outlineValues us →
        ts.length = us.length ∧ List.Forall₂ LooksAlike ts us := by
  refine ⟨?_, ?_⟩
  · intro text program fuel limits values hp hvalues
    refine results_named Name.legible_closed (fun l hl x hx => ?_) hvalues
    exact ((names_of_parse hp l hl).2 x hx).legible
  · intro ts us hts hus h
    have hlike : List.Forall₂ LooksAlike ts us :=
      h.elim (inlineValues_inj hts hus) (outlineValues_inj hts hus)
    exact ⟨hlike.length_eq, hlike⟩

/-- A variable that is printed like an application, between an application and a truth value. -/
def lookalikes : List Term :=
  [.app (.var "β") (.var "x1"), .var "β", truth true]

theorem values_of_printed_eq_lookalikes :
    outlineValues lookalikes = "β\n  β\n  x1\n\nβ\n\nλ1.\n  λ2.\n    1" ∧
      lookalikes.length = 3 ∧ List.Forall₂ LooksAlike lookalikes lookalikes := by
  have hlegible : ∀ t ∈ lookalikes, t.Legible := by decide
  obtain ⟨hlength, hlike⟩ := values_of_printed_eq.2 lookalikes lookalikes hlegible hlegible
    (.inr rfl)
  exact ⟨by decide, hlength, hlike⟩

end Program

end NormalOrder
