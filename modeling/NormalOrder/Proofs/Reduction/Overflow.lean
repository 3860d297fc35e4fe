/- Reductions that cannot be carried to an end by the numbers they are counted with.

Contractions and depth stay below their limits. The number at the end of a name is counted up where a
binder gets another name, and there it may be the largest one. That is the only way in which a
reduction under a limit of contractions has neither a value nor an error. -/
import NormalOrder.Proofs.Reduction.Reached
import NormalOrder.Proofs.Reduction.Termination

namespace NormalOrder

/-- The number at the end of a name is so far from the largest that it may be counted up `n` times, or
it is larger still, and never counted up. -/
def Name.Clear (n : Nat) (x : Name) : Prop :=
  x.number + n < largestSuffix ∨ largestSuffix < x.number

namespace Name

variable {n : Nat} {x y : Name} {taken : List Name}

instance (n : Nat) (x : Name) : Decidable (x.Clear n) :=
  inferInstanceAs (Decidable (_ ∨ _))

theorem Clear.number_ne (h : x.Clear n) : x.number ≠ largestSuffix := by
  rcases h with hless | hmore <;> omega

theorem Clear.next (h : x.Clear (n + 1)) (hy : x.next = .ok y) : y.Clear n := by
  rcases number_of_next hy with ⟨hless, hnumber⟩ | ⟨hmore, hnumber⟩
  · rcases h with hx | hx
    · exact .inl (by omega)
    · exact absurd hx (Nat.lt_asymm hless)
  · exact .inr (by omega)

/-- The names that a search goes past are taken, and only the last of them is counted up to a name
that is new. -/
theorem Clear.fresh (hx : x.Clear (n + 1)) (htaken : ∀ z ∈ taken, z.Clear (n + 1))
    (hy : x.fresh taken = .ok y) : y.Clear n := by
  obtain ⟨calls, hs⟩ := exists_seeks_of_fresh hy
  obtain ⟨z, hcomes, hnext⟩ := hs.exists_last
  rcases hcomes.eq_or_mem with rfl | hm
  · exact hx.next hnext
  · exact (htaken z hm).next hnext

theorem passed_clear {most : Nat} (h : most + 2 < largestSuffix) : Name.Passed Clear most where
  weaken hx := hx.imp (fun h => by omega) id
  fresh := Clear.fresh
  one hn := .inl (by rw [show number "1" = 1 from by decide]; omega)
  two hn := .inl (by rw [show number "2" = 2 from by decide]; omega)

end Name

namespace Reducing

section Counted

variable {α β : Type} {n : Nat}

/-- A computation that begins with no more than `n` contractions ends with no more, and halts with
one more at most. -/
def Counts (n : Nat) (_ x : Reducing α) : Prop :=
  ∀ tally, tally.steps ≤ n → match x tally with
    | .ok _ after => after.steps ≤ n
    | .error _ last => last.steps ≤ n + 1

theorem Counts.of_uncounted {x : Reducing α} (h : x.Uncounted) : Counts n x x := by
  intro tally hn
  have hsteps := h tally
  cases hx : x tally with
  | ok a after =>
      rw [hx] at hsteps
      exact Nat.le_trans (Nat.le_of_eq hsteps) hn
  | error halt last =>
      rw [hx] at hsteps
      exact Nat.le_succ_of_le (Nat.le_trans (Nat.le_of_eq hsteps) hn)

theorem Counts.bind {x y : Reducing α} {f g : α → Reducing β} (h : Counts n x y)
    (hf : ∀ a, Counts n (f a) (g a)) : Counts n (x >>= f) (y >>= g) := by
  intro tally hn
  have hy := h tally hn
  rw [bind_apply]
  cases hr : y tally with
  | error halt last =>
      rw [hr] at hy
      exact hy
  | ok a after =>
      rw [hr] at hy
      exact hf a after hy

theorem countStep_counts (maxDepth : Nat) (x : Reducing Unit) :
    Counts n x (countStep ⟨some n, maxDepth⟩) := by
  intro tally hn
  rw [countStep_of_some rfl]
  by_cases hlimit : n < tally.steps + 1
  · rw [if_pos hlimit]
    exact Nat.succ_le_succ hn
  · rw [if_neg hlimit]
    exact Nat.le_of_not_lt hlimit

theorem comparison_counts (n maxDepth : Nat) :
    Comparison ⟨some n, maxDepth⟩ ⟨some n, maxDepth⟩ (Counts n) where
  uncounted := .of_uncounted
  bind := .bind
  countStep := countStep_counts maxDepth _
  depth_le := Nat.le_refl _
  deep hlt := absurd hlt (Nat.lt_irrefl _)

end Counted

/-- A call comes to an abstraction whose binder must have another name, and the search for one comes
to a name that ends in the largest number. -/
inductive Call.Overflows (limits : Limits) : Call → Prop
  | intro {fuel depth t env tally x body home mid z}
      (hr : head limits fuel depth t env tally = .ok (.closure x body home) mid)
      (hx : x ∈ home.broughtUnder x body)
      (hcomes : Name.Comes ((home.broughtUnder x body).union body.names) x z)
      (hz : z.number = Name.largestSuffix) :
      Overflows limits ⟨.value, fuel + 1, depth, t, env, tally⟩

theorem Call.overflows_iff {limits : Limits} {c : Call} :
    c.Overflows limits ↔ c.Stalls limits .suffixOverflow := by
  constructor
  · rintro ⟨hr, hx, hcomes, hz⟩
    have hnext := Name.next_eq_error_suffixOverflow_iff.mpr hz
    exact .intro hr hx (Name.fresh_eq_error_iff.mpr ⟨_, hcomes, hnext⟩)
  · rintro ⟨hr, hx, hf⟩
    obtain ⟨z, hcomes, hnext⟩ := Name.fresh_eq_error_iff.mp hf
    exact .intro hr hx hcomes (Name.next_eq_error_suffixOverflow_iff.mp hnext)

end Reducing

namespace Term

open Reducing

variable {t : Term} {env : Env} {n fuel : Nat}

/-- A run counts one contraction more than its limit allows, at most. -/
theorem steps_reduceWithin_le (t : Term) (env : Env) (n fuel maxDepth : Nat) :
    (lastTally (t.reduceWithin fuel ⟨some n, maxDepth⟩ env)).steps ≤ n + 1 := by
  have hwhole := (comparison_counts n maxDepth).whole (Nat.le_refl fuel)
    (fun hlt => absurd hlt (Nat.lt_irrefl _)) t env
  have hrun := hwhole {} (Nat.zero_le n)
  rw [reduceWithin]
  cases hr : whole ⟨some n, maxDepth⟩ fuel t env {} with
  | ok v tally =>
      rw [hr] at hrun
      exact Nat.le_succ_of_le hrun
  | error halt tally =>
      rw [hr] at hrun
      exact hrun

/-- A run overflows if and only if it reaches a call that does. -/
theorem reduceWithin_eq_overflow_iff {limits : Limits} :
    (∃ tally, t.reduceWithin fuel limits env = .error .suffixOverflow tally) ↔
      ∃ c, (Call.start fuel t env).Reaches limits c ∧ c.Overflows limits := by
  simp only [Call.overflows_iff]
  exact reduceWithin_eq_nameError_iff (e := .suffixOverflow)

/-- Names that are clear of the largest number stay so, whatever is renamed. -/
theorem not_overflows_of_clear (hfuel : fuel + 2 < Name.largestSuffix)
    (ht : t.Named (Name.Clear fuel)) (henv : env.Named (Name.Clear fuel)) {limits : Limits}
    {c : Call} (hc : (Call.start fuel t env).Reaches limits c) : ¬ c.Overflows limits := by
  intro hoverflows
  have hclear := Name.passed_clear hfuel
  have hnamed := hc.named hclear (Nat.le_refl fuel) ⟨ht, henv⟩
  have hle : c.fuel ≤ fuel := hc.fuel_le
  obtain ⟨z, hz, hnext⟩ := (Call.overflows_iff.mp hoverflows).exists_name (hclear.one hle)
    (hclear.two hle) hnamed
  exact hz.number_ne (Name.next_eq_error_suffixOverflow_iff.mp hnext)

/-- Names that are clear of the largest number for as many calls as a run needs inside one another
are clear of it however many calls it is given. -/
theorem not_overflows_of_nesting {nesting : Nat} {limits : Limits}
    (hnesting : nesting + 2 < Name.largestSuffix) (ht : t.Named (Name.Clear nesting))
    (henv : env.Named (Name.Clear nesting))
    (hends : ∀ tally, t.reduceWithin nesting limits env ≠ .error .outOfFuel tally) {c : Call}
    (hc : (Call.start fuel t env).Reaches limits c) : ¬ c.Overflows limits := by
  intro hoverflows
  obtain ⟨tally, hrun⟩ := reduceWithin_eq_overflow_iff.mpr ⟨c, hc, hoverflows⟩
  have hsame := reduceWithin_fuel hends fun _ hspent => nomatch hrun.symm.trans hspent
  obtain ⟨c', hc', hoverflows'⟩ := reduceWithin_eq_overflow_iff.mp ⟨tally, hsame.trans hrun⟩
  exact not_overflows_of_clear hnesting ht henv hc' hoverflows'

/-- A reduction under a limit of contractions below the largest number, with the recursion that it
needs, counts its contractions and its depth in numbers of 64 bits. A name that ends in a larger
number than these is extended. So the reduction has a value or one of the errors, unless it must give
a binder another name and comes to a name with the largest number on the search for one. Where all
names are clear of that number for as many calls as the run comes to inside one another, it does
not. -/
theorem reduceWithin_ends_unless_overflow (hn : n < UInt64.size - 1)
    (hroom : room n (env.weight t) ≤ fuel) (maxDepth : Nat) :
    (lastTally (t.reduceWithin fuel ⟨some n, maxDepth⟩ env)).steps < UInt64.size ∧
      (∀ c, (Call.start fuel t env).Reaches ⟨some n, maxDepth⟩ c → c.depth ≤ maxDepth) ∧
      (∀ x : Name, Name.largestSuffix < x.number → x.next = .ok (x ++ "1")) ∧
      (((∃ v tally, t.reduceWithin fuel ⟨some n, maxDepth⟩ env = .ok v tally) ∨
          ∃ cause tally, t.reduceWithin fuel ⟨some n, maxDepth⟩ env = .error (.error cause) tally) ↔
        ¬ ∃ c, (Call.start fuel t env).Reaches ⟨some n, maxDepth⟩ c ∧
          c.Overflows ⟨some n, maxDepth⟩) ∧
      ∀ nesting, nesting + 2 < Name.largestSuffix → t.Named (Name.Clear nesting) →
        env.Named (Name.Clear nesting) →
        (∀ tally, t.reduceWithin nesting ⟨some n, maxDepth⟩ env ≠ .error .outOfFuel tally) →
        ∀ c, (Call.start fuel t env).Reaches ⟨some n, maxDepth⟩ c →
          ¬ c.Overflows ⟨some n, maxDepth⟩ := by
  refine ⟨?_, fun c hc => hc.depth_le (Nat.zero_le _), fun _ => Name.next_of_largestSuffix_lt, ?_,
    fun nesting hnesting ht henv hends c hc => not_overflows_of_nesting hnesting ht henv hends hc⟩
  · have hsteps := steps_reduceWithin_le t env n fuel maxDepth
    exact Nat.lt_of_le_of_lt hsteps (Nat.add_lt_of_lt_sub hn)
  · rw [← reduceWithin_eq_overflow_iff]
    have hends := reduceWithin_ne_outOfFuel hroom maxDepth
    cases hr : t.reduceWithin fuel ⟨some n, maxDepth⟩ env with
    | ok v tally => simp
    | error halt tally =>
        rw [hr] at hends
        cases halt with
        | error cause => simp
        | suffixOverflow => simp
        | outOfFuel => exact absurd rfl (hends tally)

/-- The binder `x` must give way to the free `x`, and becomes `x1`. -/
def takenBinder : Term :=
  app (lam "y" (lam "x" (var "y"))) (var "x")

/-- Five calls inside one another are enough, whatever room a million contractions need. -/
theorem reduceWithin_ends_renamed :
    1000000 < UInt64.size - 1 ∧ ∀ maxDepth,
      (∃ v tally, takenBinder.reduceWithin (room 1000000 (Env.empty.weight takenBinder))
          ⟨some 1000000, maxDepth⟩ .empty = .ok v tally) ∨
        ∃ cause tally, takenBinder.reduceWithin (room 1000000 (Env.empty.weight takenBinder))
          ⟨some 1000000, maxDepth⟩ .empty = .error (.error cause) tally := by
  have hn : 1000000 < UInt64.size - 1 := by decide
  refine ⟨hn, fun maxDepth => ?_⟩
  obtain ⟨-, -, -, hends, hclear⟩ :=
    reduceWithin_ends_unless_overflow hn (Nat.le_refl (room _ (Env.empty.weight takenBinder)))
      maxDepth
  rw [hends]
  rintro ⟨c, hc, hoverflows⟩
  have ht : takenBinder.Named (Name.Clear 5) := by
    intro x hx
    revert x
    decide
  have hrun : takenBinder.reduceWithin 5 ⟨none, 5⟩ .empty = .ok (lam "x1" (var "x")) _ := rfl
  have hends := ne_outOfFuel_of_within (.of_eq_ok hrun) ⟨some 1000000, maxDepth⟩
  exact hclear 5 (by decide) ht Env.named_empty hends c hc hoverflows

/-- The largest number is not counted up, and a larger one is; so the free name `x` with the largest
number behind it cannot be put under a binder of that name. -/
theorem largest_suffix_overflows :
    Name.next "x18446744073709551616" = .ok "x184467440737095516161" ∧
      ∃ tally, (app (lam "y" (lam "x18446744073709551615" (var "y")))
        (var "x18446744073709551615")).reduce {} .empty = .error .suffixOverflow tally := by
  refine ⟨by decide +kernel, ?_⟩
  exact ⟨_, rfl⟩

end Term

end NormalOrder
