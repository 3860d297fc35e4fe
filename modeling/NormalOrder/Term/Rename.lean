/- Renaming free occurrences, and choosing another binder for an abstraction. -/
import NormalOrder.Term.Basic

namespace NormalOrder.Term

/-- Puts `new` for the free occurrences of `old`. Under a binder `old` the name means something
else and stays. -/
def rename (old new : Name) : Term → Term
  | var x => var (if x = old then new else x)
  | lam x b => lam x (if x = old then b else b.rename old new)
  | app f a => app (f.rename old new) (a.rename old new)
  | num v => num v

/-- Another binder for the abstraction of `param` over `body`, with the body renamed to match. The
new binder is not to be avoided and not among the names of the body, so it captures nothing. -/
def rebind (param : Name) (body : Term) (avoid : Names) : Except NameError (Name × Term) := do
  let new ← param.fresh (avoid.union body.names)
  return (new, body.rename param new)

/-- Renaming a name that does not occur free changes nothing. -/
theorem rename_of_not_mem {old new : Name} {t : Term} (h : old ∉ t.freeNames) :
    t.rename old new = t := by
  induction t with
  | var x =>
    have hx : x ≠ old := fun e => h (by simp [freeNames, e])
    rw [rename, if_neg hx]
  | lam x b ih =>
    by_cases hx : x = old
    · rw [rename, if_pos hx]
    · rw [rename, if_neg hx, ih fun hb => h (Names.mem_without.mpr ⟨hb, Ne.symm hx⟩)]
  | app f a hf ha =>
    rw [rename, hf fun h' => h (Names.mem_union.mpr (.inl h')),
      ha fun h' => h (Names.mem_union.mpr (.inr h'))]
  | num v => rfl

end NormalOrder.Term
