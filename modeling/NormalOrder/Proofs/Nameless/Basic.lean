/- Terms without the names of their binders, and equality of terms up to those names. -/
import Mathlib.Logic.Basic
import NormalOrder.Env
import NormalOrder.Term.Rename

namespace NormalOrder

/-- A term in which a bound variable is the number of binders between it and its own. An index that
passes all binders refers to one outside. -/
inductive Nameless
  | bound (index : Nat)
  | free (name : Name)
  | lam (body : Nameless)
  | app (function argument : Nameless)
  | num (value : Float)

namespace Nameless

/-- What a name stands for below the binders of a scope, the innermost first: the nearest binder of
that name, and without one what `value` says. -/
def ofName (value : Name → Nameless) (scope : List Name) (x : Name) : Nameless :=
  match scope.idxOf? x with
  | some i => bound i
  | none => value x

/-- Raises the indices that refer to a binder outside, below `depth` binders, by `by'`. -/
def shift (d : Nat) : Nat → Nameless → Nameless
  | depth, bound i => if i < depth then bound i else bound (i + d)
  | _, free x => free x
  | depth, lam b => lam (b.shift d (depth + 1))
  | depth, app f a => app (f.shift d depth) (a.shift d depth)
  | _, num v => num v

end Nameless

namespace Term

/-- A term below the binders of a scope, without names: bound names become indices, and a name that
nothing binds becomes its value. Values refer to no binder, so none is captured. -/
def namelessWith (value : Name → Nameless) : List Name → Term → Nameless
  | scope, var x => Nameless.ofName value scope x
  | scope, lam x b => .lam (b.namelessWith value (x :: scope))
  | scope, app f a => .app (f.namelessWith value scope) (a.namelessWith value scope)
  | _, num v => .num v

/-- A term below the binders of a scope, without the names of binders. -/
abbrev nameless (scope : List Name) (t : Term) : Nameless :=
  t.namelessWith .free scope

/-- Terms that differ only in the names of their binders. -/
def AlphaEq (t u : Term) : Prop :=
  t.nameless [] = u.nameless []

/-- Each binder of a term has a name of the given kind. -/
def Binders (kind : Name → Prop) : Term → Prop
  | var _ => True
  | lam x b => kind x ∧ b.Binders kind
  | app f a => f.Binders kind ∧ a.Binders kind
  | num _ => True

end Term

namespace Nameless

@[simp] theorem ofName_cons_self (value : Name → Nameless) (scope : List Name) (x : Name) :
    ofName value (x :: scope) x = bound 0 := by
  simp [ofName, List.idxOf?_cons]

theorem ofName_cons_ne {scope : List Name} {x y : Name} (h : y ≠ x) :
    ofName .free (y :: scope) x = (ofName .free scope x).shift 1 0 := by
  have hb : (y == x) = false := beq_false_of_ne h
  simp only [ofName, List.idxOf?_cons, hb]
  cases scope.idxOf? x <;> simp [shift]

end Nameless

namespace Nameless

theorem ofName_eq_free_iff {scope : List Name} {x y : Name} :
    ofName .free scope x = free y ↔ x = y ∧ x ∉ scope := by
  unfold ofName
  cases h : scope.idxOf? x with
  | some i => simp [List.isSome_idxOf?.mp (Option.isSome_of_eq_some h)]
  | none => simp [List.idxOf?_eq_none_iff.mp h]

theorem ofName_cases (scope : List Name) (x : Name) :
    (∃ i, ofName .free scope x = bound i) ∨ ofName .free scope x = free x := by
  unfold ofName
  cases scope.idxOf? x with
  | some i => exact .inl ⟨i, rfl⟩
  | none => exact .inr rfl

end Nameless

namespace Term

theorem nameless_eq_free {scope : List Name} {t : Term} {x : Name}
    (h : t.nameless scope = .free x) : t = .var x ∧ x ∉ scope := by
  cases t with
  | var y =>
      obtain ⟨rfl, hy⟩ := Nameless.ofName_eq_free_iff.mp h
      exact ⟨rfl, hy⟩
  | lam y b => cases h
  | app f a => cases h
  | num v => cases h

theorem nameless_eq_num {scope : List Name} {t : Term} {v : Float}
    (h : t.nameless scope = .num v) : t = .num v := by
  cases t with
  | var y => rcases Nameless.ofName_cases scope y with ⟨i, hy⟩ | hy <;> cases hy.symm.trans h
  | lam y b => cases h
  | app f a => cases h
  | num w =>
      cases h
      rfl

theorem nameless_eq_app {scope : List Name} {t : Term} {n m : Nameless}
    (h : t.nameless scope = .app n m) :
    ∃ f a, t = .app f a ∧ f.nameless scope = n ∧ a.nameless scope = m := by
  cases t with
  | var y => rcases Nameless.ofName_cases scope y with ⟨i, hy⟩ | hy <;> cases hy.symm.trans h
  | lam y b => cases h
  | app f a =>
      obtain ⟨hf, ha⟩ := Nameless.app.inj h
      exact ⟨f, a, rfl, hf, ha⟩
  | num v => cases h

/-- Two scopes give a term the same form if they agree on its free names. -/
theorem nameless_congr {t : Term} {c d : List Name}
    (h : ∀ z ∈ t.freeNames, Nameless.ofName .free c z = Nameless.ofName .free d z) :
    t.nameless c = t.nameless d := by
  induction t generalizing c d with
  | var x => exact h x (by simp [freeNames])
  | lam x b ih =>
      refine congrArg Nameless.lam (ih fun z hz => ?_)
      by_cases hx : x = z
      · subst hx
        simp
      · rw [Nameless.ofName_cons_ne hx, Nameless.ofName_cons_ne hx,
          h z (Names.mem_without.mpr ⟨hz, Ne.symm hx⟩)]
  | app f a hf ha =>
      exact congrArg₂ Nameless.app (hf fun z hz => h z (Names.mem_union.mpr (.inl hz)))
        (ha fun z hz => h z (Names.mem_union.mpr (.inr hz)))
  | num v => rfl

/-- Renaming free occurrences to a name that the term does not have, in scopes that send the two
names to the same place. -/
theorem nameless_rename {t : Term} {x y : Name} (hy : y ∉ t.names) {c d : List Name}
    (hxy : Nameless.ofName .free c y = Nameless.ofName .free d x)
    (h : ∀ z ∈ t.freeNames, z ≠ x → Nameless.ofName .free c z = Nameless.ofName .free d z) :
    (t.rename x y).nameless c = t.nameless d := by
  induction t generalizing c d with
  | var z =>
      by_cases hz : z = x
      · subst hz
        simpa [rename, namelessWith] using hxy
      · simpa [rename, namelessWith, hz] using h z (by simp [freeNames]) hz
  | lam z b ih =>
      rw [names, Names.mem_union, List.mem_singleton, not_or] at hy
      have hb : ∀ w ∈ b.freeNames, w ≠ z → w ≠ x →
          Nameless.ofName .free c w = Nameless.ofName .free d w :=
        fun w hw hwz hwx => h w (Names.mem_without.mpr ⟨hw, hwz⟩) hwx
      by_cases hz : z = x
      · -- The binder takes the name over, and nothing below it is renamed.
        rw [rename, if_pos hz]
        refine nameless_congr fun w hw => hb w ?_ ?_ ?_
        · exact (Names.mem_without.mp hw).1
        · exact (Names.mem_without.mp hw).2
        · exact hz ▸ (Names.mem_without.mp hw).2
      · rw [rename, if_neg hz]
        refine congrArg Nameless.lam (ih hy.2 ?_ fun w hw hwx => ?_)
        · rw [Nameless.ofName_cons_ne (Ne.symm hy.1), Nameless.ofName_cons_ne hz, hxy]
        · by_cases hwz : w = z
          · subst hwz
            simp
          · rw [Nameless.ofName_cons_ne (Ne.symm hwz), Nameless.ofName_cons_ne (Ne.symm hwz),
              hb w hw hwz hwx]
  | app f a hf ha =>
      rw [names, Names.mem_union, not_or] at hy
      exact congrArg₂ Nameless.app
        (hf hy.1 hxy fun z hz => h z (Names.mem_union.mpr (.inl hz)))
        (ha hy.2 hxy fun z hz => h z (Names.mem_union.mpr (.inr hz)))
  | num v => rfl

theorem nameless_rename_binder {b : Term} {x y : Name} (hy : y ∉ b.names) (scope : List Name) :
    (b.rename x y).nameless (y :: scope) = b.nameless (x :: scope) := by
  apply nameless_rename hy (by simp)
  intro z hz hzx
  have hzy : y ≠ z := fun e => hy (e ▸ b.freeNames_subset_names hz)
  rw [Nameless.ofName_cons_ne hzy, Nameless.ofName_cons_ne (Ne.symm hzx)]

theorem mem_freeNames_rename {t : Term} {x y z : Name} (hz : z ∈ (t.rename x y).freeNames)
    (hzy : z ≠ y) : z ∈ t.freeNames ∧ z ≠ x := by
  induction t with
  | var w =>
      by_cases hw : w = x
      · simp [rename, freeNames, hw] at hz
        exact absurd hz hzy
      · simp [rename, freeNames, hw] at hz ⊢
        exact ⟨hz, hz ▸ hw⟩
  | lam w b ih =>
      by_cases hw : w = x
      · rw [rename, if_pos hw] at hz
        exact ⟨hz, hw ▸ (Names.mem_without.mp hz).2⟩
      · rw [rename, if_neg hw, freeNames, Names.mem_without] at hz
        exact ⟨Names.mem_without.mpr ⟨(ih hz.1).1, hz.2⟩, (ih hz.1).2⟩
  | app f a hf ha =>
      rw [rename, freeNames, Names.mem_union] at hz
      rcases hz with hz | hz
      · exact ⟨Names.mem_union.mpr (.inl (hf hz).1), (hf hz).2⟩
      · exact ⟨Names.mem_union.mpr (.inr (ha hz).1), (ha hz).2⟩
  | num v => cases hz

theorem binders_rename {kind : Name → Prop} {x y : Name} {t : Term} (h : t.Binders kind) :
    (t.rename x y).Binders kind := by
  induction t with
  | var z => trivial
  | lam z b ih =>
      by_cases hz : z = x
      · rwa [rename, if_pos hz]
      · rw [rename, if_neg hz]
        exact ⟨h.1, ih h.2⟩
  | app f a hf ha => exact ⟨hf h.1, ha h.2⟩
  | num v => trivial

end Term

namespace Frames

/-- What a name stands for, recursively through the homes of suspensions: itself, unless its
innermost entry is resolved. -/
def value : Frames → Name → Nameless
  | empty, x => .free x
  | unresolved y outer, x => if y = x then .free x else outer.value x
  | resolved y t home _ outer, x =>
    if y = x then t.namelessWith (fun z => home.value z) [] else outer.value x

end Frames

/-- What a term stands for in an environment: the values of resolved names are put for their free
occurrences, without capture. -/
def Env.denote (env : Env) (t : Term) : Nameless :=
  t.namelessWith env.frames.value []

end NormalOrder
