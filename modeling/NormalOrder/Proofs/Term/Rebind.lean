/- Choosing another binder for an abstraction.

The search for a fresh name ends soon, and what it finds is no name of the body. So the abstraction
stays the same up to the name of its binder, and renaming can be undone. -/
import NormalOrder.Proofs.Name.Fresh
import NormalOrder.Proofs.Nameless.Basic

namespace NormalOrder

theorem Names.toFinset_union (xs ys : Names) :
    (union xs ys).toFinset = xs.toFinset ∪ ys.toFinset := by
  ext x
  simp

namespace Term

theorem rebind_eq (param : Name) (body : Term) (avoid : Names) :
    body.rebind param avoid =
      (param.fresh (avoid.union body.names)).map fun new => (new, body.rename param new) := by
  rw [rebind]
  cases param.fresh (avoid.union body.names) <;> rfl

theorem rebind_eq_ok {param : Name} {body : Term} {avoid : Names} {opened : Name × Term}
    (h : body.rebind param avoid = .ok opened) :
    ∃ new, param.fresh (avoid.union body.names) = .ok new ∧
      opened = (new, body.rename param new) := by
  rw [rebind_eq] at h
  cases hf : param.fresh (avoid.union body.names) with
  | error e =>
      rw [hf] at h
      cases h
  | ok new =>
      rw [hf] at h
      exact ⟨new, rfl, (Except.ok.inj h).symm⟩

/-- A renaming to a name that the term does not have can be undone. -/
theorem rename_rename {t : Term} {x y : Name} (h : y ∉ t.names) :
    (t.rename x y).rename y x = t := by
  induction t with
  | var z =>
      have hz : z ≠ y := fun e => h (List.mem_singleton.mpr e.symm)
      by_cases hzx : z = x
      · rw [rename, if_pos hzx, rename, if_pos rfl, hzx]
      · rw [rename, if_neg hzx, rename, if_neg hz]
  | lam z b ih =>
      rw [names, Names.mem_union, List.mem_singleton, not_or] at h
      by_cases hzx : z = x
      · -- Nothing below this binder was renamed, and `y` does not occur there.
        rw [rename, if_pos hzx, rename, if_neg (Ne.symm h.1),
          rename_of_not_mem fun hy => h.2 (b.freeNames_subset_names hy)]
      · rw [rename, if_neg hzx, rename, if_neg (Ne.symm h.1), ih h.2]
  | app f a hf ha =>
      rw [names, Names.mem_union, not_or] at h
      rw [rename, rename, hf h.1, ha h.2]
  | num v => rfl

theorem alphaEq_lam_rename {b : Term} {x y : Name} (h : y ∉ b.names) :
    (lam y (b.rename x y)).AlphaEq (lam x b) :=
  congrArg Nameless.lam (nameless_rename_binder h [])

/-- The search for another binder asks for no more successors than there are names to be avoided or
in the body, and one more. Unless it comes to the largest number, it gives a binder that is new and
not to be avoided, under which the abstraction is the same up to its name; and to put the old name
for the new one gives the body back. -/
theorem rebind_captures_nothing {param : Name} (hne : param ≠ "") (body : Term) (avoid : Names) :
    ∃ calls found, Name.Seeks (avoid.union body.names) param calls found ∧
      calls ≤ (avoid.toFinset ∪ body.names.toFinset).card + 1 ∧
      (found = .error .suffixOverflow ∧ body.rebind param avoid = .error .suffixOverflow ∨
        ∃ new renamed, found = .ok new ∧ body.rebind param avoid = .ok (new, renamed) ∧
          new ≠ param ∧ new ∉ avoid ∧ new ∉ body.names ∧
          (lam new renamed).AlphaEq (lam param body) ∧ renamed.rename new param = body) := by
  rw [rebind_eq, ← Names.toFinset_union]
  cases hf : param.fresh (avoid.union body.names) with
  | error e =>
      obtain ⟨calls, hs⟩ := Name.exists_seeks_of_fresh hf
      cases e with
      | empty => exact absurd hf (Name.fresh_ne_error_empty hne)
      | suffixOverflow => exact ⟨calls, _, hs, hs.calls_le_card, .inl ⟨rfl, rfl⟩⟩
  | ok new =>
      obtain ⟨calls, hs⟩ := Name.exists_seeks_of_fresh hf
      obtain ⟨havoid, hnames⟩ := not_or.mp fun h => hs.not_mem (Names.mem_union.mpr h)
      have hnew : new ≠ param := by
        rintro rfl
        exact Nat.lt_irrefl _ hs.number_lt
      exact ⟨calls, _, hs, hs.calls_le_card, .inr ⟨new, _, rfl, rfl, hnew, havoid, hnames,
        alphaEq_lam_rename hnames, rename_rename hnames⟩⟩

/-- `x1` is in the body, as a binder, and `x2` is to be avoided. -/
theorem rebind_captures_nothing_pastTaken : "x" ≠ "" ∧ ∃ calls,
    Name.Seeks ["x2", "x1", "x"] "x" calls (.ok "x3") ∧ calls ≤ 4 ∧
      (lam "x1" (.var "x")).rebind "x" ["x2"] = .ok ("x3", lam "x1" (.var "x3")) ∧
      (lam "x3" (lam "x1" (.var "x3"))).AlphaEq (lam "x" (lam "x1" (.var "x"))) ∧
      (lam "x1" (.var "x3")).rename "x3" "x" = lam "x1" (.var "x") := by
  have hr : (lam "x1" (.var "x")).rebind "x" ["x2"] = .ok ("x3", lam "x1" (.var "x3")) := by
    decide
  have hne : "x" ≠ "" := by decide
  refine ⟨hne, ?_⟩
  obtain ⟨calls, found, hs, hcalls, ⟨-, he⟩ | ⟨new, renamed, rfl, hok, -, -, -, halpha, hback⟩⟩ :=
    rebind_captures_nothing hne (lam "x1" (.var "x")) ["x2"]
  · exact nomatch hr.symm.trans he
  · cases hr.symm.trans hok
    exact ⟨calls, hs, hcalls, hr, halpha, hback⟩

end Term

end NormalOrder
