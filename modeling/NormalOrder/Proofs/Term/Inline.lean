/- What is written for a term determines it.

Names and numerals are words: they are not empty, and no parenthesis, `λ`, blank or line break
stands in them. A written term is a word or begins with a `λ` or a parenthesis, and behind every
word in it a parenthesis or a blank tells where the word ends. -/
import NormalOrder.Proofs.Name.Shapes

namespace NormalOrder

open Grammar

/-- The characters that stand between the words of a written term. -/
def isSeparator (c : Char) : Bool :=
  c == '(' || c == ')' || c == 'λ' || c == ' ' || c == '\n'

structure IsWord (w : List Char) : Prop where
  nonempty : w ≠ []
  unseparated : ∀ c ∈ w, isSeparator c = false

/-- What is left of a text where a word has ended. -/
def EndsWord (rest : List Char) : Prop :=
  ∀ c ∈ rest.head?, isSeparator c = true

section Words

variable {c : Char} {w w' s s' rest rest' : List Char}

theorem endsWord_nil : EndsWord [] := by
  rintro c ⟨⟩

theorem endsWord_cons (hc : isSeparator c = true) : EndsWord (c :: rest) := by
  rintro d ⟨⟩
  exact hc

theorem IsWord.ne_cons (hw : IsWord w) (hc : isSeparator c = true) : w ++ rest ≠ c :: s := by
  intro h
  obtain ⟨d, w, rfl⟩ := List.exists_cons_of_ne_nil hw.nonempty
  have hd := hw.unseparated d (List.mem_cons_self ..)
  cases h
  exact Bool.false_ne_true (hd.symm.trans hc)

theorem takeWhile_append_of_head {p : Char → Bool} (hw : ∀ c ∈ w, p c = true)
    (hrest : ∀ c ∈ rest.head?, p c = false) : (w ++ rest).takeWhile p = w := by
  rw [List.takeWhile_append_of_pos hw]
  cases rest with
  | nil => exact List.append_nil w
  | cons c rest => rw [List.takeWhile_cons_of_neg (by simp [hrest c rfl]), List.append_nil]

/-- The longest runs of characters of a kind in front of two equal texts are the same. -/
theorem append_inj_of_head {p : Char → Bool} (hw : ∀ c ∈ w, p c = true)
    (hw' : ∀ c ∈ w', p c = true) (hrest : ∀ c ∈ rest.head?, p c = false)
    (hrest' : ∀ c ∈ rest'.head?, p c = false) (h : w ++ rest = w' ++ rest') :
    w = w' ∧ rest = rest' := by
  have heq : w = w' := by
    rw [← takeWhile_append_of_head hw hrest, h, takeWhile_append_of_head hw' hrest']
  subst heq
  exact ⟨rfl, List.append_cancel_left h⟩

/-- The end of a word can be told. -/
theorem IsWord.append_inj (hw : IsWord w) (hw' : IsWord w') (hrest : EndsWord rest)
    (hrest' : EndsWord rest') (h : w ++ rest = w' ++ rest') : w = w' ∧ rest = rest' := by
  refine append_inj_of_head (p := (!isSeparator ·)) ?_ ?_ ?_ ?_ h
  · exact fun c hc => by rw [hw.unseparated c hc]; rfl
  · exact fun c hc => by rw [hw'.unseparated c hc]; rfl
  · exact fun c hc => by rw [hrest c hc]; rfl
  · exact fun c hc => by rw [hrest' c hc]; rfl

theorem isSeparator_eq_false_of_isDigit (h : c.isDigit = true) : isSeparator c = false := by
  simp only [isSeparator, Bool.or_eq_false_iff, beq_eq_false_iff_ne, and_assoc]
  refine ⟨?_, ?_, ?_, ?_, ?_⟩ <;> (rintro rfl; exact absurd h (by decide))

theorem isSeparator_eq_false_of_isVariableChar (h : isVariableChar c = true) :
    isSeparator c = false := by
  simp only [isSeparator, Bool.or_eq_false_iff, beq_eq_false_iff_ne, and_assoc]
  refine ⟨?_, ?_, ?_, ?_, ?_⟩ <;> (rintro rfl; exact absurd h (by decide))

end Words

namespace Name.Legible

variable {x : Name}

theorem isWord (h : x.Legible) : IsWord x.toList where
  nonempty := h.toList_ne_nil
  unseparated := h.forall_mem (fun _ => isSeparator_eq_false_of_isVariableChar)
    fun _ => isSeparator_eq_false_of_isDigit

theorem ne_point (h : x.Legible) : ∀ c ∈ x.toList, (c != '.') = true := by
  refine h.forall_mem ?_ ?_
  · intro c hc
    rw [bne_iff_ne]
    rintro rfl
    exact absurd hc (by decide)
  · intro d hd
    rw [bne_iff_ne]
    rintro rfl
    exact absurd hd (by decide)

/-- The name of a binder ends at the point behind it. -/
theorem eq_of_append_point {y : Name} {rest rest' : List Char} (hx : x.Legible) (hy : y.Legible)
    (h : x.toList ++ '.' :: rest = y.toList ++ '.' :: rest') : x = y ∧ rest = rest' := by
  have hpoint : ∀ s : List Char, ∀ c ∈ ('.' :: s).head?, (c != '.') = false := by
    rintro s c ⟨⟩
    rfl
  obtain ⟨hname, hrest⟩ := append_inj_of_head hx.ne_point hy.ne_point (hpoint _) (hpoint _) h
  exact ⟨String.toList_injective hname, (List.cons.inj hrest).2⟩

end Name.Legible

namespace Term

/-- Two terms that are equal up to numbers with the same numeral. -/
inductive LooksAlike : Term → Term → Prop
  | var (x : Name) : LooksAlike (var x) (var x)
  | lam {x : Name} {b c : Term} (body : LooksAlike b c) : LooksAlike (lam x b) (lam x c)
  | app {f g a b : Term} (function : LooksAlike f g) (argument : LooksAlike a b) :
      LooksAlike (app f a) (app g b)
  | num {v w : Float} (numerals : numeral.write v = numeral.write w) : LooksAlike (num v) (num w)

/-- What is written for a leaf. -/
def leaf? : Term → Option (List Char)
  | var x => some x.toList
  | num v => some (numeral.write v)
  | _ => none

variable {t u b f a : Term} {x : Name} {w w' rest rest' : List Char}

section Leaves

theorem numeral_separates : numeral.Marks (!Char.isDigit ·) (!isSeparator ·) where
  digit c hc := by rw [isSeparator_eq_false_of_isDigit hc]; rfl
  minus := by decide
  point := by decide
  wholeMark := by decide
  exponentMark := by decide
  infinite := ⟨by decide, by decide⟩
  notNumber := ⟨by decide, by decide⟩

theorem isWord_numeral (v : Float) : IsWord (numeral.write v) where
  nonempty := (numeral_separates.write v).ne_nil
  unseparated c hc := by simpa using List.all_eq_true.mp (numeral_separates.write v).spelling c hc

/-- Behind the first character of a numeral there is more than digits. -/
theorem numeral_ne_name (hx : x.Legible) (v : Float) : numeral.write v ≠ x.toList := by
  intro h
  obtain ⟨c, hc, hmark⟩ := List.any_eq_true.mp (numeral_separates.write v).behind
  rw [h] at hc
  rw [hx.tail_isDigit c hc] at hmark
  cases hmark

theorem isWord_leaf (ht : t.Legible) (hw : t.leaf? = some w) : IsWord w := by
  cases t with
  | var x =>
      cases hw
      exact (named_var.mp ht).isWord
  | num v =>
      cases hw
      exact isWord_numeral v
  | lam x b => cases hw
  | app f a => cases hw

theorem LooksAlike.of_leaf (ht : t.Legible) (hu : u.Legible) (htw : t.leaf? = some w)
    (huw : u.leaf? = some w) : t.LooksAlike u := by
  cases t with
  | var x =>
      cases htw
      cases u with
      | var y =>
          obtain rfl : y = x := String.toList_injective (Option.some.inj huw)
          exact .var _
      | num v => exact absurd (Option.some.inj huw) (numeral_ne_name (named_var.mp ht) v)
      | lam y c => cases huw
      | app g b => cases huw
  | num v =>
      cases htw
      cases u with
      | var y => exact absurd (Option.some.inj huw).symm (numeral_ne_name (named_var.mp hu) v)
      | num w => exact .num (Option.some.inj huw).symm
      | lam y c => cases huw
      | app g b => cases huw
  | lam x b => cases htw
  | app f a => cases htw

end Leaves

section Write

theorem write_of_leaf (hw : t.leaf? = some w) (rest : List Char) : t.write rest = w ++ rest := by
  cases t with
  | var x =>
      cases hw
      rfl
  | num v =>
      cases hw
      rfl
  | lam x b => cases hw
  | app f a => cases hw

/-- Only for a leaf the text begins with a word. -/
theorem exists_leaf_of_write (hw : IsWord w) (h : w ++ rest = u.write rest') :
    ∃ w', u.leaf? = some w' := by
  cases u with
  | var y => exact ⟨_, rfl⟩
  | num v => exact ⟨_, rfl⟩
  | lam y c => exact absurd h (hw.ne_cons (by decide))
  | app g b => exact absurd h (hw.ne_cons (by decide))

theorem LooksAlike.of_write_leaf (ht : t.Legible) (hu : u.Legible) (hrest : EndsWord rest)
    (hrest' : EndsWord rest') (hw : t.leaf? = some w) (h : t.write rest = u.write rest') :
    t.LooksAlike u ∧ rest = rest' := by
  rw [write_of_leaf hw] at h
  obtain ⟨w', hw'⟩ := exists_leaf_of_write (isWord_leaf ht hw) h
  rw [write_of_leaf hw'] at h
  obtain ⟨rfl, rfl⟩ := (isWord_leaf ht hw).append_inj (isWord_leaf hu hw') hrest hrest' h
  exact ⟨.of_leaf ht hu hw hw', rfl⟩

/-- What is written for a term in front of the end of a word determines the term, and where it
ends. -/
theorem LooksAlike.of_write (ht : t.Legible) (hu : u.Legible) (hrest : EndsWord rest)
    (hrest' : EndsWord rest') (h : t.write rest = u.write rest') :
    t.LooksAlike u ∧ rest = rest' := by
  induction t generalizing u rest rest' with
  | var x => exact of_write_leaf ht hu hrest hrest' rfl h
  | num v => exact of_write_leaf ht hu hrest hrest' rfl h
  | lam x b ih =>
      cases u with
      | var y => exact absurd h.symm ((named_var.mp hu).isWord.ne_cons (by decide))
      | num v => exact absurd h.symm ((isWord_numeral v).ne_cons (by decide))
      | app g a => cases h
      | lam y c =>
          obtain ⟨hx, hb⟩ := named_lam.mp ht
          obtain ⟨hy, hc⟩ := named_lam.mp hu
          obtain ⟨rfl, hbody⟩ := hx.eq_of_append_point hy (List.cons.inj h).2
          obtain ⟨hbc, hends⟩ := ih hb hc hrest hrest' hbody
          exact ⟨.lam hbc, hends⟩
  | app f a ihf iha =>
      cases u with
      | var y => exact absurd h.symm ((named_var.mp hu).isWord.ne_cons (by decide))
      | num v => exact absurd h.symm ((isWord_numeral v).ne_cons (by decide))
      | lam y c => cases h
      | app g b =>
          obtain ⟨hf, ha⟩ := named_app.mp ht
          obtain ⟨hg, hb⟩ := named_app.mp hu
          obtain ⟨hfg, hargs⟩ := ihf hf hg (endsWord_cons (by decide)) (endsWord_cons (by decide))
            (List.cons.inj h).2
          obtain ⟨hab, hends⟩ := iha ha hb (endsWord_cons (by decide)) (endsWord_cons (by decide))
            (List.cons.inj hargs).2
          exact ⟨.app hfg hab, (List.cons.inj hends).2⟩

end Write

end Term

end NormalOrder
