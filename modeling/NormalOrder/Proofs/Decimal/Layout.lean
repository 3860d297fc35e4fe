/- What every numeral holds.

A numeral has a point, an exponent or a word for a number that has no digits, and never as its first
character. This tells it from a name that ends in digits, and the characters that it may have tell
where it ends. -/
import NormalOrder.Decimal.Layout

namespace NormalOrder.Decimal

theorem isDigit_of_mem_digits {n : Nat} {c : Char} (h : c ∈ digits n) : c.isDigit = true :=
  Nat.isDigit_of_mem_toDigits (by decide) (by decide) h

variable {mark spelled : Char → Bool} {w : List Char}

/-- A text with a mark behind its first character, spelled in characters of a kind. -/
structure Marked (mark spelled : Char → Bool) (w : List Char) : Prop where
  behind : w.tail.any mark = true
  spelling : w.all spelled = true

theorem Marked.ne_nil (h : Marked mark spelled w) : w ≠ [] := by
  rintro rfl
  cases h.behind

theorem Marked.append {front : List Char} (hfront : front.all spelled = true)
    (h : Marked mark spelled w) : Marked mark spelled (front ++ w) := by
  refine ⟨?_, by rw [List.all_append, hfront, h.spelling]; rfl⟩
  cases front with
  | nil => exact h.behind
  | cons c front =>
      obtain ⟨d, hd, hmark⟩ := List.any_eq_true.mp h.behind
      exact List.any_eq_true.mpr ⟨d, List.mem_append_right _ (List.mem_of_mem_tail hd), hmark⟩

/-- A mark behind a text that is not empty stands behind its first character. -/
theorem Marked.of_append {front back : List Char} (hne : front ≠ [])
    (hfront : front.all spelled = true) (hback : back.all spelled = true)
    (hmark : back.any mark = true) : Marked mark spelled (front ++ back) := by
  constructor
  · rw [List.tail_append_of_ne_nil hne, List.any_append, hmark, Bool.or_true]
  · rw [List.all_append, hfront, hback]
    rfl

theorem Marked.of_cons {c : Char} {back : List Char} (hc : spelled c = true)
    (hback : back.all spelled = true) (hmark : back.any mark = true) :
    Marked mark spelled (c :: back) :=
  of_append (List.cons_ne_nil c []) (by simp [hc]) hback hmark

/-- Whatever a format writes besides digits has a mark, and all is spelled in characters of a
kind. -/
structure Layout.Marks (layout : Layout) (mark spelled : Char → Bool) : Prop where
  digit : ∀ c : Char, c.isDigit = true → spelled c = true
  minus : spelled '-' = true
  point : mark '.' = true ∧ spelled '.' = true
  wholeMark : layout.wholeMark.any mark = true ∧ layout.wholeMark.all spelled = true
  exponentMark : layout.exponentMark.any mark = true ∧ layout.exponentMark.all spelled = true
  infinite : Marked mark spelled layout.infinite
  notNumber : Marked mark spelled layout.notNumber

namespace Layout

variable {layout : Layout}

theorem Marks.digits (h : layout.Marks mark spelled) (n : Nat) :
    (Decimal.digits n).all spelled = true :=
  List.all_eq_true.mpr fun c hc => h.digit c (isDigit_of_mem_digits hc)

theorem Marks.zeros (h : layout.Marks mark spelled) (n : Nat) :
    (List.replicate n '0').all spelled = true := by
  rw [List.all_eq_true]
  intro c hc
  rw [List.eq_of_mem_replicate hc]
  exact h.digit '0' rfl

theorem Marks.signed (h : layout.Marks mark spelled) (e : Int) :
    (Decimal.signed e).all spelled = true := by
  cases e with
  | ofNat n => exact h.digits n
  | negSucc n => rw [Decimal.signed, List.all_cons, h.minus, h.digits, Bool.true_and]

theorem all_take {ds : List Char} (hds : ds.all spelled = true) (n : Nat) :
    (ds.take n).all spelled = true :=
  List.all_eq_true.mpr fun c hc => List.all_eq_true.mp hds c (List.mem_of_mem_take hc)

theorem all_drop {ds : List Char} (hds : ds.all spelled = true) (n : Nat) :
    (ds.drop n).all spelled = true :=
  List.all_eq_true.mpr fun c hc => List.all_eq_true.mp hds c (List.mem_of_mem_drop hc)

theorem Marks.plain (h : layout.Marks mark spelled) {ds : List Char} (hne : ds ≠ [])
    (hds : ds.all spelled = true) (k : Int) : Marked mark spelled (layout.plain ds k) := by
  have hpoint : ∀ s, ('.' :: s).any mark = true := fun s => by simp [h.point.1]
  rw [Layout.plain]
  by_cases hk : 0 ≤ k
  · rw [if_pos hk]
    refine .of_append (by simp [hne]) ?_ h.wholeMark.2 h.wholeMark.1
    rw [List.all_append, hds, h.zeros, Bool.true_and]
  · rw [if_neg hk]
    dsimp only
    by_cases hplaces : (-k).toNat < ds.length
    · rw [if_pos hplaces]
      refine .of_append ?_ (all_take hds _) ?_ (hpoint _)
      · rw [Ne, List.take_eq_nil_iff, not_or]
        exact ⟨by omega, hne⟩
      · rw [List.all_cons, h.point.2, all_drop hds, Bool.true_and]
    · rw [if_neg hplaces]
      have hback :
          ('.' :: List.replicate ((-k).toNat - ds.length) '0' ++ ds).all spelled = true := by
        rw [List.all_append, List.all_cons, h.point.2, h.zeros, hds]
        rfl
      exact .of_cons (h.digit '0' rfl) hback (hpoint _)

theorem Marks.scientific (h : layout.Marks mark spelled) {ds : List Char} (hne : ds ≠ [])
    (hds : ds.all spelled = true) (e : Int) : Marked mark spelled (layout.scientific ds e) := by
  have hfraction : (if ds.length = 1 then [] else '.' :: ds.drop 1).all spelled = true := by
    split
    · rfl
    · rw [List.all_cons, h.point.2, all_drop hds, Bool.true_and]
  rw [Layout.scientific, List.append_assoc, List.append_assoc]
  refine .of_append (by simp [hne]) (all_take hds 1) ?_ ?_
  · rw [List.all_append, List.all_append, hfraction, h.exponentMark.2, h.signed]
    rfl
  · rw [List.any_append, List.any_append, h.exponentMark.1, Bool.true_or, Bool.or_true]

theorem Marks.positive (h : layout.Marks mark spelled) (n : Nat) (k : Int) :
    Marked mark spelled (layout.positive n k) := by
  rw [Layout.positive]
  split
  · exact h.plain Nat.toDigits_ne_nil (h.digits n) k
  · exact h.scientific Nat.toDigits_ne_nil (h.digits n) _

theorem Marks.writeParts (h : layout.Marks mark spelled) (negative : Bool)
    (exponent fraction : Nat) :
    Marked mark spelled (layout.writeParts negative exponent fraction) := by
  have hsign : (if negative then ['-'] else []).all spelled = true := by
    cases negative with
    | false => rfl
    | true => simp [h.minus]
  have hzero : Marked mark spelled ('0' :: layout.wholeMark) :=
    .of_cons (h.digit '0' rfl) h.wholeMark.2 h.wholeMark.1
  rw [Layout.writeParts]
  dsimp only
  split
  · split
    · exact h.infinite.append hsign
    · exact h.notNumber
  · split
    · split
      · exact hzero.append hsign
      · exact (h.positive _ _).append hsign
    · exact (h.positive _ _).append hsign

/-- Every numeral of a format has a mark behind its first character. -/
theorem Marks.write (h : layout.Marks mark spelled) (x : Float) :
    Marked mark spelled (layout.write x) :=
  h.writeParts _ _ _

end Layout

end NormalOrder.Decimal
