/- Successors of names: the number at the end grows, so none repeats and a fresh name is free. -/
import Mathlib.Data.Finset.Card
import Mathlib.Logic.Relation
import NormalOrder.Name

namespace NormalOrder.Name

/-- The number that the digits at the end of a name write; none counts as zero. -/
def number (name : Name) : Nat :=
  Decimal.value name.suffix

theorem value_append (ds : List Char) (c : Char) :
    Decimal.value (ds ++ [c]) = 10 * Decimal.value ds + Decimal.digitValue c := by
  simp [Decimal.value]

theorem value_digits (n : Nat) : Decimal.value (Decimal.digits n) = n := by
  have h : Decimal.value (Decimal.digits n) = Nat.ofDigitChars 10 (Nat.toDigits 10 n) 0 := by
    rw [Nat.ofDigitChars_eq_foldl]
    rfl
  rw [h, Nat.ofDigitChars_ten_toDigits]

theorem suffix_ofList_append (front ds : List Char) (h : ∀ c ∈ ds, c.isDigit = true) :
    suffix (String.ofList (front ++ ds)) = suffix (String.ofList front) ++ ds := by
  have hr : ∀ c ∈ ds.reverse, c.isDigit = true := fun c hc => h c (List.mem_reverse.mp hc)
  simp only [suffix, String.toList_ofList, List.reverse_append]
  rw [List.takeWhile_append_of_pos hr]
  simp

theorem suffix_ofList_stem (name : Name) : suffix (String.ofList name.stem) = [] := by
  simp only [suffix, stem, String.toList_ofList, List.reverse_reverse, List.reverse_eq_nil_iff]
  cases h : name.toList.reverse.dropWhile Char.isDigit with
  | nil => rfl
  | cons c cs =>
      have hc : c.isDigit = false := by
        have := List.head?_dropWhile_not Char.isDigit name.toList.reverse
        rw [h] at this
        simpa using this
      simp [hc]

theorem number_append_one (name : Name) : number (name ++ "1") = 10 * name.number + 1 := by
  have hd : ∀ c ∈ ['1'], c.isDigit = true := by
    intro c hc
    rw [List.mem_singleton.mp hc]
    rfl
  have hs : suffix (name ++ "1") = name.suffix ++ ['1'] := by
    simpa using suffix_ofList_append name.toList ['1'] hd
  have h1 : Decimal.digitValue '1' = 1 := rfl
  rw [number, number, hs, value_append, h1]

theorem number_counted (name : Name) (n : Nat) :
    number (String.ofList (name.stem ++ Decimal.digits n)) = n := by
  have hd : ∀ c ∈ Decimal.digits n, c.isDigit = true :=
    fun c hc => Nat.isDigit_of_mem_toDigits (by decide) (by decide) hc
  rw [number, suffix_ofList_append _ _ hd, suffix_ofList_stem, List.nil_append, value_digits]

/-- What comes after a name goes by the number at its end. It is counted up, unless it is the largest
or too large to count. -/
theorem next_cases (name : Name) :
    (name = "" ∧ name.next = .error .empty) ∨
      (name.number < largestSuffix ∧
        ∃ following, name.next = .ok following ∧ following.number = name.number + 1) ∨
      (name.number = largestSuffix ∧ name.next = .error .suffixOverflow) ∨
      largestSuffix < name.number ∧ name.next = .ok (name ++ "1") := by
  by_cases hempty : name = ""
  · exact .inl ⟨hempty, by rw [next, if_pos hempty]⟩
  by_cases hsuffix : name.suffix = []
  · -- A name without a number is counted up to the first one.
    have hzero : name.number = 0 := by
      rw [number, hsuffix]
      rfl
    have hnext : name.next = .ok (name ++ "1") := by simp [next, hempty, hsuffix]
    refine .inr (.inl ⟨by rw [hzero]; decide, _, hnext, ?_⟩)
    rw [number_append_one, hzero]
  rcases Nat.lt_trichotomy name.number largestSuffix with hless | heq | hmore
  · have hnext : name.next = .ok (String.ofList (name.stem ++ Decimal.digits (name.number + 1))) := by
      have hle := Nat.not_lt_of_le hless.le
      simp only [number] at hless hle
      simp [next, hempty, hsuffix, number, hle, hless.ne]
    exact .inr (.inl ⟨hless, _, hnext, number_counted ..⟩)
  · have hnext : name.next = .error .suffixOverflow := by
      simp only [number] at heq
      simp [next, hempty, hsuffix, heq]
    exact .inr (.inr (.inl ⟨heq, hnext⟩))
  · have hnext : name.next = .ok (name ++ "1") := by
      simp only [number] at hmore
      simp [next, hempty, hmore]
    exact .inr (.inr (.inr ⟨hmore, hnext⟩))

/-- The number at the end of a successor is one more, and if it is too large to count, a `1` is put
behind it. -/
theorem number_of_next {name following : Name} (h : name.next = .ok following) :
    name.number < largestSuffix ∧ following.number = name.number + 1 ∨
      largestSuffix < name.number ∧ following.number = 10 * name.number + 1 := by
  rcases name.next_cases with ⟨-, hn⟩ | ⟨hless, _, hn, hnumber⟩ | ⟨-, hn⟩ | ⟨hmore, hn⟩
  · cases hn.symm.trans h
  · cases hn.symm.trans h
    exact .inl ⟨hless, hnumber⟩
  · cases hn.symm.trans h
  · cases hn.symm.trans h
    exact .inr ⟨hmore, number_append_one name⟩

/-- The number at the end of a successor is larger, also when a `1` is put after a number too large
to count. -/
theorem number_lt_of_next {name following : Name} (h : name.next = .ok following) :
    name.number < following.number := by
  rcases number_of_next h with ⟨-, hn⟩ | ⟨-, hn⟩ <;> omega

/-- What cannot be counted up is the largest number, and no other. -/
theorem next_eq_error_suffixOverflow_iff {name : Name} :
    name.next = .error .suffixOverflow ↔ name.number = largestSuffix := by
  rcases name.next_cases with ⟨rfl, hn⟩ | ⟨hless, _, hn, -⟩ | ⟨heq, hn⟩ | ⟨hmore, hn⟩
  · exact iff_of_false (fun h => nomatch hn.symm.trans h) (by decide)
  · exact iff_of_false (fun h => nomatch hn.symm.trans h) hless.ne
  · exact iff_of_true hn heq
  · exact iff_of_false (fun h => nomatch hn.symm.trans h) hmore.ne'

theorem next_eq_error_empty_iff {name : Name} : name.next = .error .empty ↔ name = "" := by
  constructor
  · intro h
    rcases name.next_cases with ⟨hempty, -⟩ | ⟨-, _, hn, -⟩ | ⟨-, hn⟩ | ⟨-, hn⟩
    · exact hempty
    · cases hn.symm.trans h
    · cases hn.symm.trans h
    · cases hn.symm.trans h
  · rintro rfl
    rfl

/-- A number too large to count is extended. -/
theorem next_of_largestSuffix_lt {name : Name} (h : largestSuffix < name.number) :
    name.next = .ok (name ++ "1") := by
  rcases name.next_cases with ⟨rfl, -⟩ | ⟨hless, -⟩ | ⟨heq, -⟩ | ⟨-, hn⟩
  · exact absurd h (by decide)
  · exact absurd h (Nat.lt_asymm hless)
  · exact absurd h (heq ▸ Nat.lt_irrefl _)
  · exact hn

/-- The search for a fresh name, and how often it asks for a successor: it takes the successors of a
name one after the other, up to the first that is not taken, or until a name has none. -/
inductive Seeks (taken : List Name) : Name → Nat → Except NameError Name → Prop
  | found {name new : Name} (h : name.next = .ok new) (free : new ∉ taken) :
      Seeks taken name 1 (.ok new)
  | failed {name : Name} {e : NameError} (h : name.next = .error e) : Seeks taken name 1 (.error e)
  | more {name following : Name} {calls : Nat} {found : Except NameError Name}
      (h : name.next = .ok following) (hm : following ∈ taken)
      (rest : Seeks taken following calls found) : Seeks taken name (calls + 1) found

section Seeks

variable {taken : List Name} {name new : Name} {calls n : Nat} {found : Except NameError Name}

/-- The taken names with a number above that of a name: the only ones that its search can meet. -/
def takenAbove (taken : List Name) (name : Name) : Finset Name :=
  taken.toFinset.filter fun x => name.number < x.number

/-- The next name is met once, since numbers grow. -/
theorem card_takenAbove_lt {following : Name} (h : name.next = .ok following)
    (hm : following ∈ taken) : (takenAbove taken following).card < (takenAbove taken name).card := by
  have hlt := number_lt_of_next h
  apply Finset.card_lt_card
  refine (Finset.ssubset_iff_of_subset fun x hx => ?_).mpr ⟨following, ?_, ?_⟩
  · obtain ⟨hx, hnumber⟩ := Finset.mem_filter.mp hx
    exact Finset.mem_filter.mpr ⟨hx, Nat.lt_trans hlt hnumber⟩
  · exact Finset.mem_filter.mpr ⟨List.mem_toFinset.mpr hm, hlt⟩
  · exact fun hself => Nat.lt_irrefl _ (Finset.mem_filter.mp hself).2

theorem Seeks.calls_le (h : Seeks taken name calls found) :
    calls ≤ (takenAbove taken name).card + 1 := by
  induction h with
  | found h free => exact Nat.le_add_left 1 _
  | failed h => exact Nat.le_add_left 1 _
  | more h hm rest ih =>
      have hless := card_takenAbove_lt h hm
      omega

theorem Seeks.calls_le_card (h : Seeks taken name calls found) : calls ≤ taken.toFinset.card + 1 :=
  h.calls_le.trans (Nat.succ_le_succ (Finset.card_filter_le _ _))

/-- A search with a step for each taken name that it can meet is the whole search. -/
theorem exists_seeks (hn : (takenAbove taken name).card ≤ n) :
    ∃ calls, Seeks taken name calls (name.next >>= firstFree taken n) := by
  induction n generalizing name with
  | zero =>
      cases h : name.next with
      | error e => exact ⟨1, .failed h⟩
      | ok following =>
          refine ⟨1, .found h fun hm => ?_⟩
          have hless := card_takenAbove_lt h hm
          omega
  | succ n ih =>
      cases h : name.next with
      | error e => exact ⟨1, .failed h⟩
      | ok following =>
          change ∃ calls, Seeks taken name calls (firstFree taken (n + 1) following)
          rw [firstFree]
          split
          next hm =>
            have hless : (takenAbove taken following).card ≤ n :=
              Nat.le_of_lt_succ (Nat.lt_of_lt_of_le (card_takenAbove_lt h hm) hn)
            obtain ⟨calls, rest⟩ := ih hless
            exact ⟨calls + 1, .more h hm rest⟩
          next hm => exact ⟨1, .found h hm⟩

theorem exists_seeks_of_fresh (h : name.fresh taken = found) :
    ∃ calls, Seeks taken name calls found :=
  h ▸ exists_seeks ((Finset.card_filter_le _ _).trans (List.toFinset_card_le taken))

theorem Seeks.not_mem (h : Seeks taken name calls (.ok new)) : new ∉ taken := by
  generalize hf : (Except.ok new : Except NameError Name) = found at h
  induction h with
  | found h free => exact Except.ok.inj hf ▸ free
  | failed h => cases hf
  | more h hm rest ih => exact ih hf

/-- What is found is of a kind that the first successor is of, if successors stay within it. -/
theorem Seeks.of_next {kind : Name → Prop} (h : Seeks taken name calls (.ok new))
    (hfirst : ∀ x, name.next = .ok x → kind x)
    (hnext : ∀ x y, kind x → x.next = .ok y → kind y) : kind new := by
  generalize hf : (Except.ok new : Except NameError Name) = found at h
  induction h with
  | found h free => exact Except.ok.inj hf ▸ hfirst _ h
  | failed h => cases hf
  | more h hm rest ih => exact ih (fun x hx => hnext _ x (hfirst _ h) hx) hf

theorem Seeks.number_lt (h : Seeks taken name calls (.ok new)) : name.number < new.number :=
  h.of_next (fun _ => number_lt_of_next) fun _ _ hlt hx => Nat.lt_trans hlt (number_lt_of_next hx)

/-- A search from the first name comes to the second: it has asked for each successor between them,
and all were taken. -/
def Comes (taken : List Name) : Name → Name → Prop :=
  Relation.ReflTransGen fun x y => x.next = .ok y ∧ y ∈ taken

theorem Comes.eq_or_mem {reached : Name} (h : Comes taken name reached) :
    reached = name ∨ reached ∈ taken := by
  cases h with
  | refl => exact .inl rfl
  | tail _ hstep => exact .inr hstep.2

/-- What a search ends in is the successor of the last name it comes to, or the lack of one. -/
theorem Seeks.exists_last (h : Seeks taken name calls found) :
    ∃ reached, Comes taken name reached ∧ reached.next = found := by
  induction h with
  | @found name _ h free => exact ⟨name, .refl, h⟩
  | @failed name _ h => exact ⟨name, .refl, h⟩
  | more h hm rest ih =>
      obtain ⟨reached, hcomes, hnext⟩ := ih
      exact ⟨reached, .head ⟨h, hm⟩ hcomes, hnext⟩

/-- A search has one end only: that of the first name without a successor, once it comes to it. -/
theorem Seeks.of_comes {reached : Name} {e : NameError} (hcomes : Comes taken name reached)
    (hnext : reached.next = .error e) (h : Seeks taken name calls found) : found = .error e := by
  induction hcomes using Relation.ReflTransGen.head_induction_on generalizing calls with
  | refl =>
      cases h with
      | found h free => cases hnext.symm.trans h
      | failed h =>
          cases hnext.symm.trans h
          rfl
      | more h hm rest => cases hnext.symm.trans h
  | head hstep _ ih =>
      cases h with
      | found h free =>
          cases hstep.1.symm.trans h
          exact absurd hstep.2 free
      | failed h => cases hstep.1.symm.trans h
      | more h hm rest =>
          cases hstep.1.symm.trans h
          exact ih rest

end Seeks

/-- A search fails if and only if it comes to a name that has no successor. -/
theorem fresh_eq_error_iff {name : Name} {taken : List Name} {e : NameError} :
    name.fresh taken = .error e ↔
      ∃ reached, Comes taken name reached ∧ reached.next = .error e := by
  constructor
  · intro h
    obtain ⟨calls, hs⟩ := exists_seeks_of_fresh h
    exact hs.exists_last
  · rintro ⟨reached, hcomes, hnext⟩
    obtain ⟨calls, hs⟩ := exists_seeks_of_fresh (Eq.refl (name.fresh taken))
    exact hs.of_comes hcomes hnext

theorem fresh_not_mem {name new : Name} {taken : List Name} (h : name.fresh taken = .ok new) :
    new ∉ taken := by
  obtain ⟨calls, hs⟩ := exists_seeks_of_fresh h
  exact hs.not_mem

theorem number_lt_of_fresh {name new : Name} {taken : List Name}
    (h : name.fresh taken = .ok new) : name.number < new.number := by
  obtain ⟨calls, hs⟩ := exists_seeks_of_fresh h
  exact hs.number_lt

theorem number_pos_of_fresh {name new : Name} {taken : List Name}
    (h : name.fresh taken = .ok new) : 0 < new.number :=
  Nat.zero_lt_of_lt (number_lt_of_fresh h)

theorem ne_empty_of_number_pos {name : Name} (h : 0 < name.number) : name ≠ "" := by
  rintro rfl
  revert h
  decide

/-- A name that is not empty never fails to have a fresh one for being empty. -/
theorem fresh_ne_error_empty {name : Name} {taken : List Name} (h : name ≠ "") :
    name.fresh taken ≠ .error .empty := by
  intro hf
  obtain ⟨reached, hcomes, hnext⟩ := fresh_eq_error_iff.mp hf
  obtain rfl := next_eq_error_empty_iff.mp hnext
  cases hcomes with
  | refl => exact h rfl
  | tail _ hstep =>
      exact ne_empty_of_number_pos (Nat.zero_lt_of_lt (number_lt_of_next hstep.1)) rfl

end NormalOrder.Name
