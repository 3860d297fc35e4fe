/- The shapes of names that come up in results.

The grammar has names of one character, a fresh name is a name with another number at its end, and
the binders of truth values are numbers. All of these are one character that a variable may be, or
no such character, and then digits. -/
import NormalOrder.Proofs.Decimal.Layout
import NormalOrder.Proofs.Grammar.RoundTrip
import NormalOrder.Proofs.Reduction.Names

namespace NormalOrder

open Grammar

/-- A name of the shapes that come up in results: a character that a variable may be, with or
without digits behind it, or digits alone. -/
inductive Name.Legible : Name → Prop
  | char {c : Char} {ds : List Char} (hc : isVariableChar c = true)
      (hds : ∀ d ∈ ds, d.isDigit = true) : Legible (String.ofList (c :: ds))
  | digits {ds : List Char} (hne : ds ≠ []) (hds : ∀ d ∈ ds, d.isDigit = true) :
      Legible (String.ofList ds)

namespace Name

variable {x following : Name}

/-- In both shapes only digits follow the first character. -/
theorem legible_iff :
    x.Legible ↔ (∃ c ∈ x.toList.head?, isVariableChar c = true ∨ c.isDigit = true) ∧
      ∀ d ∈ x.toList.tail, d.isDigit = true := by
  constructor
  · intro h
    cases h with
    | @char c ds hc hds =>
        rw [String.toList_ofList]
        exact ⟨⟨c, rfl, .inl hc⟩, hds⟩
    | digits hne hds =>
        rw [String.toList_ofList]
        obtain ⟨c, ds, rfl⟩ := List.exists_cons_of_ne_nil hne
        obtain ⟨hc, hds⟩ := List.forall_mem_cons.mp hds
        exact ⟨⟨c, rfl, .inr hc⟩, hds⟩
  · rintro ⟨⟨c, hhead, hc⟩, hds⟩
    obtain ⟨ds, hx⟩ := List.head?_eq_some_iff.mp hhead
    rw [hx] at hds
    have hname : x = String.ofList (c :: ds) := by rw [← hx, String.ofList_toList]
    subst hname
    rcases hc with hc | hc
    · exact .char hc hds
    · exact .digits (List.cons_ne_nil c ds) (List.forall_mem_cons.mpr ⟨hc, hds⟩)

instance (x : Name) : Decidable x.Legible :=
  decidable_of_iff
    ((x.toList.head?.any (fun c => isVariableChar c || c.isDigit) &&
      x.toList.tail.all Char.isDigit) = true) <| by
    simp only [legible_iff, Bool.and_eq_true, Option.any_eq_true, List.all_eq_true,
      Bool.or_eq_true, Option.mem_def]

theorem IsVariable.legible (h : x.IsVariable) : x.Legible := by
  obtain ⟨c, hc, rfl⟩ := h
  have hname : Legible (String.ofList [c]) := .char hc fun _ hd => absurd hd List.not_mem_nil
  exact hname

namespace Legible

theorem tail_isDigit (h : x.Legible) : ∀ d ∈ x.toList.tail, d.isDigit = true :=
  (legible_iff.mp h).2

theorem toList_ne_nil (h : x.Legible) : x.toList ≠ [] := by
  obtain ⟨⟨c, hhead, -⟩, -⟩ := legible_iff.mp h
  intro hnil
  rw [hnil] at hhead
  cases hhead

/-- What holds of the characters that a variable may be and of digits holds of all characters of a
name. -/
theorem forall_mem {p : Char → Prop} (h : x.Legible)
    (hvariable : ∀ c, isVariableChar c = true → p c) (hdigit : ∀ d, d.isDigit = true → p d) : ∀ c ∈ x.toList, p c := by
  obtain ⟨⟨c, hhead, hc⟩, hds⟩ := legible_iff.mp h
  obtain ⟨ds, hx⟩ := List.head?_eq_some_iff.mp hhead
  rw [hx] at hds ⊢
  exact List.forall_mem_cons.mpr ⟨hc.elim (hvariable c) (hdigit c), fun d hd => hdigit d (hds d hd)⟩

/-- Other digits may be put at the end of a name. -/
theorem append_digits {front back ds : List Char} (h : x.Legible) (hx : front ++ back = x.toList)
    (hne : ds ≠ []) (hds : ∀ d ∈ ds, d.isDigit = true) :
    Legible (String.ofList (front ++ ds)) := by
  cases front with
  | nil => exact .digits hne hds
  | cons c front =>
      obtain ⟨⟨c', hhead, hc⟩, htail⟩ := legible_iff.mp h
      rw [← hx] at hhead htail
      cases hhead
      refine legible_iff.mpr ⟨⟨c, by simp, hc⟩, ?_⟩
      rw [String.toList_ofList]
      exact List.forall_mem_append.mpr ⟨fun d hd => htail d (List.mem_append_left _ hd), hds⟩

theorem next (h : x.Legible) (hnext : x.next = .ok following) : following.Legible := by
  rw [Name.next] at hnext
  split at hnext
  · cases hnext
  · split at hnext
    · cases hnext
      have hone : ∀ d ∈ ['1'], d.isDigit = true := List.forall_mem_singleton.mpr rfl
      have hname : x ++ "1" = String.ofList (x.toList ++ ['1']) := by simp
      rw [hname]
      exact h.append_digits (List.append_nil _) (List.cons_ne_nil _ _) hone
    · split at hnext
      · cases hnext
      · cases hnext
        exact h.append_digits (stem_append_suffix x) Nat.toDigits_ne_nil
          fun d hd => Decimal.isDigit_of_mem_digits hd

theorem fresh {taken : List Name} (h : x.Legible) (hfresh : x.fresh taken = .ok following) :
    following.Legible := by
  obtain ⟨calls, hs⟩ := exists_seeks_of_fresh hfresh
  exact hs.of_next (fun _ => h.next) fun _ _ => next

end Legible

end Name

namespace Term

/-- A term with names of such shapes only, those of binders included. -/
abbrev Legible (t : Term) : Prop :=
  t.Named Name.Legible

instance (t : Term) : Decidable t.Legible :=
  inferInstanceAs (Decidable (∀ x ∈ t.names, x.Legible))

end Term

/-- No reduction leaves these shapes. -/
theorem Name.legible_closed : Name.Closed Name.Legible where
  fresh := Legible.fresh
  one := by decide
  two := by decide

end NormalOrder
