/- The chain of the names that follow a name.

The number at the end grows from name to name, also where a step drops zeros before it or puts a `1`
behind a number too large to count. So no name comes back, and what stands before the number
stays. -/
import Mathlib.Logic.Function.Iterate
import NormalOrder.Proofs.Name.Fresh

namespace NormalOrder.Name

/-- The name `n` places after a name. Where a name has no successor, neither has the rest. -/
def after (n : Nat) (name : Name) : Except NameError Name :=
  (· >>= next)^[n] (.ok name)

section Stem

theorem stem_ofList_append (front ds : List Char) (h : ∀ c ∈ ds, c.isDigit = true) :
    stem (String.ofList (front ++ ds)) = stem (String.ofList front) := by
  have hr : ∀ c ∈ ds.reverse, c.isDigit = true := fun c hc => h c (List.mem_reverse.mp hc)
  simp only [stem, String.toList_ofList, List.reverse_append]
  rw [List.dropWhile_append_of_pos hr]

theorem stem_ofList_stem (name : Name) : stem (String.ofList name.stem) = name.stem := by
  have hsuffix := suffix_ofList_stem name
  have happend := stem_append_suffix (String.ofList name.stem)
  rw [hsuffix, List.append_nil, String.toList_ofList] at happend
  exact happend

/-- A successor differs in the digits at the end alone. -/
theorem stem_of_next {name following : Name} (h : name.next = .ok following) :
    following.stem = name.stem := by
  rw [next] at h
  split at h
  · cases h
  split at h
  · cases h
    have hname : name ++ "1" = String.ofList (name.toList ++ ['1']) := by simp
    rw [hname, stem_ofList_append _ _ (List.forall_mem_singleton.mpr rfl), String.ofList_toList]
  split at h
  · cases h
  · cases h
    have hdigits : ∀ c ∈ Decimal.digits (Decimal.value name.suffix + 1), c.isDigit = true :=
      fun c hc => Nat.isDigit_of_mem_toDigits (by decide) (by decide) hc
    rw [stem_ofList_append _ _ hdigits, stem_ofList_stem]

end Stem

section Chain

variable {name x y : Name} {i j n : Nat}

theorem after_succ (n : Nat) (name : Name) : after (n + 1) name = after n name >>= next :=
  Function.iterate_succ_apply' ..

/-- To go on from a name is to go on along its chain. -/
theorem after_add (n i : Nat) (name : Name) : after (n + i) name = after i name >>= after n := by
  induction n with
  | zero =>
      rw [Nat.zero_add]
      cases after i name <;> rfl
  | succ n ih =>
      rw [Nat.succ_add, after_succ, ih]
      cases after i name with
      | error e => rfl
      | ok x => exact (after_succ n x).symm

/-- One step of a chain keeps what stands before the number, and enlarges the number. -/
theorem after_eq_ok (h : after n name = .ok x) :
    x.stem = name.stem ∧ name.number + n ≤ x.number := by
  induction n generalizing x with
  | zero =>
      cases h
      exact ⟨rfl, Nat.le_refl _⟩
  | succ n ih =>
      rw [after_succ] at h
      cases hn : after n name with
      | error e =>
          rw [hn] at h
          cases h
      | ok y =>
          rw [hn] at h
          obtain ⟨hstem, hnumber⟩ := ih hn
          have hlt : y.number < x.number := number_lt_of_next h
          exact ⟨(stem_of_next h).trans hstem, by omega⟩

theorem ne_empty_of_after (hname : name ≠ "") (h : after n name = .ok x) : x ≠ "" := by
  cases n with
  | zero =>
      cases h
      exact hname
  | succ n =>
      have hle := (after_eq_ok h).2
      exact ne_empty_of_number_pos (by omega)

/-- A chain that begins with a name that is not empty ends at the largest number only. -/
theorem after_eq_ok_or_overflow (hname : name ≠ "") (n : Nat) :
    (∃ x, after n name = .ok x) ∨ after n name = .error .suffixOverflow := by
  induction n with
  | zero => exact .inl ⟨name, rfl⟩
  | succ n ih =>
      rw [after_succ]
      rcases ih with ⟨x, hx⟩ | hoverflow
      · rw [hx]
        change (∃ y, x.next = .ok y) ∨ x.next = .error .suffixOverflow
        cases hnext : x.next with
        | ok y => exact .inl ⟨y, rfl⟩
        | error e =>
            cases e with
            | suffixOverflow => exact .inr rfl
            | empty =>
                exact absurd (next_eq_error_empty_iff.mp hnext) (ne_empty_of_after hname hx)
      · rw [hoverflow]
        exact .inr rfl

/-- Two places of a chain hold different names, none of them empty, that differ in the digits at
their end alone. -/
theorem after_never_repeats (hname : name ≠ "") (hij : i < j)
    (hj : after j name ≠ .error .suffixOverflow) :
    ∃ x y, after i name = .ok x ∧ after j name = .ok y ∧
      x ≠ y ∧ x ≠ "" ∧ y ≠ "" ∧ x.stem = y.stem := by
  obtain ⟨n, rfl⟩ := Nat.exists_eq_add_of_lt hij
  obtain ⟨y, hy⟩ := (after_eq_ok_or_overflow hname (i + n + 1)).resolve_right hj
  have hsplit : after i name >>= after (n + 1) = .ok y := by
    rw [← after_add, ← hy]
    congr 1
    omega
  cases hx : after i name with
  | error e =>
      rw [hx] at hsplit
      cases hsplit
  | ok x =>
      rw [hx] at hsplit
      have hsplit : after (n + 1) x = .ok y := hsplit
      obtain ⟨hstem, hnumber⟩ := after_eq_ok hsplit
      refine ⟨x, y, rfl, hy, ?_, ne_empty_of_after hname hx, ne_empty_of_after hname hy, hstem.symm⟩
      rintro rfl
      omega

/-- The first step drops a zero, so that the second has to carry. -/
theorem after_never_repeats_leadingZero :
    "x0098" ≠ "" ∧ 0 < 2 ∧ after 2 "x0098" ≠ .error .suffixOverflow ∧
      ∃ x y, after 0 "x0098" = .ok x ∧ after 2 "x0098" = .ok y ∧
        x ≠ y ∧ x ≠ "" ∧ y ≠ "" ∧ x.stem = y.stem := by
  have hj : after 2 "x0098" ≠ .error .suffixOverflow := by decide
  exact ⟨by decide, by decide, hj, after_never_repeats (by decide) (by decide) hj⟩

end Chain

end NormalOrder.Name
