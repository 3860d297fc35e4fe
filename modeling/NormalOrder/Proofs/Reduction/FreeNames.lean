/- A reduction invents no free name.

What is free in a result is free in what the term stands for: in the term itself, or in the values
of the names that its environment resolves. Names of operators are no exception. -/
import NormalOrder.Proofs.Reduction.Invariant
import NormalOrder.Proofs.Term.Rebind

namespace NormalOrder

namespace Env

variable {env : Env} {t body : Term} {x y z : Name}

theorem mem_freeNames_suspend :
    x ∈ (env.suspend t).freeNames ↔ ∃ y ∈ t.freeNames, x ∈ env.freeNamesAt y :=
  Suspension.mem_freeNames

/-- Below a binder without a value a term mentions the binder, and what it mentioned without it. -/
theorem mem_freeNames_suspend_unresolved (h : z ∈ ((env.unresolved y).suspend t).freeNames)
    (hz : z ≠ y) : ∃ w ∈ t.freeNames, w ≠ y ∧ z ∈ env.freeNamesAt w := by
  obtain ⟨w, hw, hzw⟩ := mem_freeNames_suspend.mp h
  rw [freeNamesAt_unresolved] at hzw
  split at hzw
  next hyw => exact absurd ((List.mem_singleton.mp hzw).trans hyw.symm) hz
  next hyw => exact ⟨w, hw, Ne.symm hyw, hzw⟩

/-- The body of an abstraction mentions what its argument does, and what the abstraction does. -/
theorem mem_freeNames_suspend_resolved {s : Suspension}
    (h : z ∈ ((env.resolved x s).suspend body).freeNames) :
    z ∈ s.freeNames ∨ z ∈ (env.suspend (.lam x body)).freeNames := by
  obtain ⟨w, hw, hzw⟩ := mem_freeNames_suspend.mp h
  rw [freeNamesAt_resolved] at hzw
  split at hzw
  next => exact .inl hzw
  next hxw =>
    exact .inr (mem_freeNames_suspend.mpr ⟨w, Names.mem_without.mpr ⟨hw, Ne.symm hxw⟩, hzw⟩)

/-- Under the binder that is chosen only names are free that were before. -/
theorem Opens.mem_freeNames {home : Env} {opened : Name × Term} (h : home.Opens x body opened)
    (hz : z ∈ opened.2.freeNames) (hne : z ≠ opened.1) : z ∈ (Term.lam x body).freeNames := by
  cases h with
  | kept _ => exact Names.mem_without.mpr ⟨hz, hne⟩
  | renamed _ hr =>
      obtain ⟨new, -, rfl⟩ := Term.rebind_eq_ok hr
      exact Names.mem_without.mpr (Term.mem_freeNames_rename hz hne)

end Env

/-- The free names of what a result of head reduction stands for. -/
def Head.freeNames : Head → Names
  | .closure x body home => (home.suspend (.lam x body)).freeNames
  | .stuck t => t.freeNames

/-- The rules of the reducer bring in no free name. -/
theorem Reducing.invariant_freeNames :
    Invariant (fun t env r => r.freeNames ⊆ (env.suspend t).freeNames)
      (fun t env v => v.freeNames ⊆ (env.suspend t).freeNames) where
  free := by
    intro x env hx z hz
    refine Env.mem_freeNames_suspend.mpr ⟨x, List.mem_singleton.mpr rfl, ?_⟩
    rw [Env.freeNamesAt]
    split
    · rename_i s hs
      exact absurd hs (hx s)
    · exact hz
  follow := by
    intro x env s r hx hr z hz
    refine Env.mem_freeNames_suspend.mpr ⟨x, List.mem_singleton.mpr rfl, ?_⟩
    rw [Env.freeNamesAt, hx]
    change z ∈ s.freeNames
    rw [s.eq_suspend]
    exact hr hz
  num _ _ := List.nil_subset _
  lam _ _ _ := List.Subset.refl _
  enter := by
    intro f a env x body home r hf hr z hz
    rcases Env.mem_freeNames_suspend_resolved (hr hz) with ha | hbody
    · obtain ⟨w, hw, hzw⟩ := Env.mem_freeNames_suspend.mp ha
      exact Env.mem_freeNames_suspend.mpr ⟨w, Names.mem_union.mpr (.inr hw), hzw⟩
    · obtain ⟨w, hw, hzw⟩ := Env.mem_freeNames_suspend.mp (hf hbody)
      exact Env.mem_freeNames_suspend.mpr ⟨w, Names.mem_union.mpr (.inl hw), hzw⟩
  stuck := by
    intro f a env g v hf hv z hz
    rcases Names.mem_union.mp hz with hg | ha
    · obtain ⟨w, hw, hzw⟩ := Env.mem_freeNames_suspend.mp (hf hg)
      exact Env.mem_freeNames_suspend.mpr ⟨w, Names.mem_union.mpr (.inl hw), hzw⟩
    · obtain ⟨w, hw, hzw⟩ := Env.mem_freeNames_suspend.mp (hv ha)
      exact Env.mem_freeNames_suspend.mpr ⟨w, Names.mem_union.mpr (.inr hw), hzw⟩
  operate := by
    intro f a env g v t r _ _ ht hr z hz
    obtain ⟨op, left, right, hop⟩ := Operator.apply_of_contract? ht
    obtain ⟨w, hw, -⟩ := Env.mem_freeNames_suspend.mp (hr hz)
    rw [Operator.freeNames_apply hop] at hw
    cases hw
  under := by
    intro t env x body home opened v hr ho hv z hz
    -- The binder may be new, and it is not free in the abstraction.
    obtain ⟨hzv, hne⟩ := Names.mem_without.mp hz
    obtain ⟨w, hw, hwy, hzw⟩ := Env.mem_freeNames_suspend_unresolved (hv hzv) hne
    exact hr (Env.mem_freeNames_suspend.mpr ⟨w, ho.mem_freeNames hw hwy, hzw⟩)
  value hr := hr

namespace Term

/-- What is free in the value of a term is free in what the term stands for in its environment. So
the value of a closed term is closed, where no name has an entry. -/
theorem freeNames_of_reduceWithin (t : Term) (fuel : Nat) (limits : Limits) :
    (∀ env v tally, t.reduceWithin fuel limits env = .ok v tally →
      v.freeNames ⊆ (env.suspend t).freeNames) ∧
    (t.freeNames = [] → ∀ v tally, t.reduceWithin fuel limits .empty = .ok v tally →
      v.freeNames = []) := by
  have hsubset : ∀ env v tally, t.reduceWithin fuel limits env = .ok v tally →
      v.freeNames ⊆ (env.suspend t).freeNames :=
    fun env v tally hv => Reducing.invariant_freeNames.of_reduceWithin hv
  refine ⟨hsubset, ?_⟩
  intro ht v tally hv
  refine List.eq_nil_iff_forall_not_mem.mpr fun z hz => ?_
  obtain ⟨w, hw, -⟩ := Env.mem_freeNames_suspend.mp (hsubset .empty v tally hv hz)
  rw [ht] at hw
  cases hw

/-- The binder `y` gives way to the name that `x` stands for. -/
theorem freeNames_of_reduceWithin_renamedBinder :
    (∃ tally, (lam "y" (app (var "x") (var "y"))).reduceWithin 9 {}
      (Env.empty.resolved "x" (Env.empty.suspend (var "y"))) =
        .ok (lam "y1" (app (var "y") (var "y1"))) tally) ∧
    (lam "y1" (app (var "y") (var "y1"))).freeNames ⊆
      ((Env.empty.resolved "x" (Env.empty.suspend (var "y"))).suspend
        (lam "y" (app (var "x") (var "y")))).freeNames ∧
    (app (lam "x" (lam "y" (app (var "x") (var "y")))) (lam "y" (var "y"))).freeNames = [] ∧
    (∃ tally, (app (lam "x" (lam "y" (app (var "x") (var "y")))) (lam "y" (var "y"))).reduceWithin
      9 {} .empty = .ok (lam "y" (var "y")) tally) ∧
    (lam "y" (var "y")).freeNames = [] := by
  have hopen := freeNames_of_reduceWithin (lam "y" (app (var "x") (var "y"))) 9 {}
  have hclosed := freeNames_of_reduceWithin
    (app (lam "x" (lam "y" (app (var "x") (var "y")))) (lam "y" (var "y"))) 9 {}
  exact ⟨⟨_, rfl⟩, hopen.1 _ _ _ rfl, rfl, ⟨_, rfl⟩, hclosed.2 rfl _ _ rfl⟩

end Term

end NormalOrder
