/- What is written for a term as an outline determines it.

The head of a term and its level make its line. An application and the variable `β` have the same
line, but below an application a line stands further in, and below a leaf none does. -/
import NormalOrder.Proofs.Term.Inline

namespace NormalOrder.Term

/-- How many spaces a line begins with. -/
def indentation (line : List Char) : Nat :=
  (line.takeWhile (· == ' ')).length

/-- No line further in than a level comes next. -/
def EndsLevel (level : Nat) (lines : List (List Char)) : Prop :=
  ∀ l ∈ lines.head?, indentation l ≤ 2 * level

/-- What the line of a term says. -/
def head : Term → List Char
  | var x => x.toList
  | lam x _ => 'λ' :: x.toList ++ ['.']
  | app _ _ => ['β']
  | num v => numeral.write v

variable {t u : Term} {level : Nat} {w w' : List Char} {rest rest' : List (List Char)}

theorem EndsLevel.mono {deeper : Nat} (h : EndsLevel level rest) (hle : level ≤ deeper) :
    EndsLevel deeper rest :=
  fun l hl => Nat.le_trans (h l hl) (Nat.mul_le_mul_left 2 hle)

section Lines

theorem indentation_outlineLine (hw : ∀ c ∈ w.head?, c ≠ ' ') :
    indentation (outlineLine level w) = 2 * level := by
  have hspaces : ∀ c ∈ List.replicate (2 * level) ' ', (c == ' ') = true := by
    intro c hc
    rw [List.eq_of_mem_replicate hc]
    rfl
  rw [indentation, outlineLine, takeWhile_append_of_head hspaces, List.length_replicate]
  exact fun c hc => by simpa using hw c hc

theorem head_ne_space (ht : t.Legible) : ∀ c ∈ t.head.head?, c ≠ ' ' := by
  have hword : ∀ {w}, IsWord w → ∀ c ∈ w.head?, c ≠ ' ' := by
    rintro w hw c hc rfl
    exact absurd (hw.unseparated ' ' (List.mem_of_mem_head? hc)) (by decide)
  cases t with
  | var x => exact hword (named_var.mp ht).isWord
  | num v => exact hword (isWord_numeral v)
  | lam x b =>
      rintro c ⟨⟩
      decide
  | app f a =>
      rintro c ⟨⟩
      decide

/-- The first line of an outline stands at its level. -/
theorem exists_cons_writeOutline (t : Term) (level : Nat) (rest : List (List Char)) :
    ∃ lines, t.writeOutline level rest = outlineLine level t.head :: lines := by
  cases t <;> exact ⟨_, rfl⟩

theorem indentation_writeOutline (ht : t.Legible) (level : Nat) (rest : List (List Char)) :
    ∀ l ∈ (t.writeOutline level rest).head?, indentation l = 2 * level := by
  obtain ⟨lines, hlines⟩ := exists_cons_writeOutline t level rest
  rw [hlines]
  rintro l ⟨⟩
  exact indentation_outlineLine (head_ne_space ht)

theorem endsLevel_writeOutline (ht : t.Legible) (level : Nat) (rest : List (List Char)) :
    EndsLevel level (t.writeOutline level rest) :=
  fun l hl => Nat.le_of_eq (indentation_writeOutline ht level rest l hl)

/-- What stands one level further in does not end a level. -/
theorem not_endsLevel_succ (ht : t.Legible) (level : Nat) (rest : List (List Char)) :
    ¬ EndsLevel level (t.writeOutline (level + 1) rest) := by
  intro h
  obtain ⟨lines, hlines⟩ := exists_cons_writeOutline t (level + 1) rest
  have hin := indentation_writeOutline ht (level + 1) rest
  rw [hlines] at h hin
  have hle := h _ rfl
  have heq := hin _ rfl
  omega

theorem outlineLine_inj : outlineLine level w = outlineLine level w' ↔ w = w' :=
  List.append_right_inj _

end Lines

section Outlines

theorem writeOutline_of_leaf (hw : t.leaf? = some w) (level : Nat) (rest : List (List Char)) :
    t.writeOutline level rest = outlineLine level w :: rest := by
  cases t with
  | var x =>
      cases hw
      rfl
  | num v =>
      cases hw
      rfl
  | lam x b => cases hw
  | app f a => cases hw

/-- The outline of a leaf is that of leaves only: a word is not the line of an abstraction, and the
line of an application does not end its level. -/
theorem exists_leaf_of_writeOutline (ht : t.Legible) (hu : u.Legible) (hrest : EndsLevel level rest)
    (hw : t.leaf? = some w) (h : t.writeOutline level rest = u.writeOutline level rest') :
    ∃ w', u.leaf? = some w' := by
  rw [writeOutline_of_leaf hw] at h
  cases u with
  | var y => exact ⟨_, rfl⟩
  | num v => exact ⟨_, rfl⟩
  | lam y c =>
      have hline := outlineLine_inj.mp (List.cons.inj h).1
      rw [← List.append_nil w] at hline
      exact absurd hline ((isWord_leaf ht hw).ne_cons (by decide))
  | app g b =>
      rw [(List.cons.inj h).2] at hrest
      exact absurd hrest (not_endsLevel_succ (named_app.mp hu).1 level _)

theorem LooksAlike.of_writeOutline_leaf (ht : t.Legible) (hu : u.Legible)
    (hrest : EndsLevel level rest) (hw : t.leaf? = some w)
    (h : t.writeOutline level rest = u.writeOutline level rest') :
    t.LooksAlike u ∧ rest = rest' := by
  obtain ⟨w', hw'⟩ := exists_leaf_of_writeOutline ht hu hrest hw h
  rw [writeOutline_of_leaf hw, writeOutline_of_leaf hw'] at h
  obtain ⟨hline, rfl⟩ := List.cons.inj h
  obtain rfl := outlineLine_inj.mp hline
  exact ⟨.of_leaf ht hu hw hw', rfl⟩

/-- What is written for a term as an outline, in front of lines that are not further in, determines
the term, and where it ends. -/
theorem LooksAlike.of_writeOutline (ht : t.Legible) (hu : u.Legible) (hrest : EndsLevel level rest)
    (hrest' : EndsLevel level rest') (h : t.writeOutline level rest = u.writeOutline level rest') :
    t.LooksAlike u ∧ rest = rest' := by
  induction t generalizing u level rest rest' with
  | var x => exact of_writeOutline_leaf ht hu hrest rfl h
  | num v => exact of_writeOutline_leaf ht hu hrest rfl h
  | lam x b ih =>
      cases u with
      | var y => obtain ⟨_, ⟨⟩⟩ := exists_leaf_of_writeOutline hu ht hrest' rfl h.symm
      | num v => obtain ⟨_, ⟨⟩⟩ := exists_leaf_of_writeOutline hu ht hrest' rfl h.symm
      | app g a => cases outlineLine_inj.mp (List.cons.inj h).1
      | lam y c =>
          obtain ⟨hx, hb⟩ := named_lam.mp ht
          obtain ⟨hy, hc⟩ := named_lam.mp hu
          obtain ⟨hline, hbody⟩ := List.cons.inj h
          obtain ⟨rfl, -⟩ := hx.eq_of_append_point hy (List.cons.inj (outlineLine_inj.mp hline)).2
          obtain ⟨hbc, hends⟩ := ih hb hc (hrest.mono (Nat.le_succ _)) (hrest'.mono (Nat.le_succ _))
            hbody
          exact ⟨.lam hbc, hends⟩
  | app f a ihf iha =>
      cases u with
      | var y => obtain ⟨_, ⟨⟩⟩ := exists_leaf_of_writeOutline hu ht hrest' rfl h.symm
      | num v => obtain ⟨_, ⟨⟩⟩ := exists_leaf_of_writeOutline hu ht hrest' rfl h.symm
      | lam y c => cases outlineLine_inj.mp (List.cons.inj h).1
      | app g b =>
          obtain ⟨hf, ha⟩ := named_app.mp ht
          obtain ⟨hg, hb⟩ := named_app.mp hu
          obtain ⟨hfg, hargs⟩ := ihf hf hg (endsLevel_writeOutline ha _ _)
            (endsLevel_writeOutline hb _ _) (List.cons.inj h).2
          obtain ⟨hab, hends⟩ := iha ha hb (hrest.mono (Nat.le_succ _))
            (hrest'.mono (Nat.le_succ _)) hargs
          exact ⟨.app hfg hab, hends⟩

end Outlines

end NormalOrder.Term
