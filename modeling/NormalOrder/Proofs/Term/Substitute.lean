/- Capture-avoiding substitution, and the free names of what waits in an environment.

Substitution puts a term for each free name at once. Its free names are those of the terms put in,
and without the names of binders it is the substitution of nameless terms. What a term stands for in
an environment is such a substitution, level by level through the homes of suspensions, and the free
names that a suspension keeps are exactly those of the result. -/
import Mathlib.Logic.Function.Basic
import NormalOrder.Proofs.Term.Rebind

namespace NormalOrder

/-- A name that is longer than all of the given ones together. -/
def Names.other (xs : Names) : Name :=
  String.ofList (List.replicate ((xs.flatMap String.toList).length + 1) 'x')

theorem Names.other_not_mem (xs : Names) : xs.other ∉ xs := by
  intro h
  have hle : xs.other.toList.length ≤ (xs.flatMap String.toList).length :=
    (List.sublist_flatten_of_mem (List.mem_map_of_mem h)).length_le
  rw [other, String.toList_ofList, List.length_replicate] at hle
  exact Nat.not_succ_le_self _ hle

theorem Names.nodup_unions {sets : List Names} (h : ∀ xs ∈ sets, xs.Nodup) :
    (unions sets).Nodup := by
  induction sets with
  | nil => exact List.nodup_nil
  | cons xs sets ih =>
      have hxs := h xs List.mem_cons_self
      exact nodup_union hxs (ih fun ys hy => h ys (List.mem_cons_of_mem xs hy))

namespace Term

/-- The free names of the terms that are put below a binder. -/
def broughtIn (σ : Name → Term) (param : Name) (body : Term) : Names :=
  Names.unions ((body.freeNames.without param).map fun z => (σ z).freeNames)

/-- The binder of an abstraction into which terms are put: its own, unless one of them mentions
it. -/
def binderOver (σ : Name → Term) (param : Name) (body : Term) : Name :=
  if param ∈ broughtIn σ param body then (broughtIn σ param body).other else param

/-- Puts a term for each free name, all at once. No binder captures a name of a term put below
it. -/
def substitute (σ : Name → Term) : Term → Term
  | var x => σ x
  | lam x b =>
    let y := binderOver σ x b
    lam y (b.substitute (Function.update σ x (var y)))
  | app f a => app (f.substitute σ) (a.substitute σ)
  | num v => num v

variable {σ : Name → Term} {t u b : Term} {x y z : Name} {c d : List Name}

theorem mem_broughtIn :
    z ∈ broughtIn σ x b ↔ ∃ w ∈ b.freeNames, w ≠ x ∧ z ∈ (σ w).freeNames := by
  simp [broughtIn, and_assoc]

theorem binderOver_not_mem (hw : z ∈ b.freeNames) (hx : z ≠ x) :
    binderOver σ x b ∉ (σ z).freeNames := by
  have hnot : binderOver σ x b ∉ broughtIn σ x b := by
    rw [binderOver]
    split
    · exact Names.other_not_mem _
    · assumption
  exact fun h => hnot (mem_broughtIn.mpr ⟨z, hw, hx, h⟩)

/-- The free names of a substitution are those of the terms put for free names. -/
theorem mem_freeNames_substitute :
    z ∈ (t.substitute σ).freeNames ↔ ∃ w ∈ t.freeNames, z ∈ (σ w).freeNames := by
  induction t generalizing σ with
  | var x => simp [substitute, freeNames]
  | lam x b ih =>
      rw [substitute, freeNames, Names.mem_without, ih]
      constructor
      · rintro ⟨⟨w, hw, hz⟩, hne⟩
        by_cases hwx : w = x
        · rw [hwx, Function.update_self] at hz
          exact absurd (List.mem_singleton.mp hz) hne
        · rw [Function.update_of_ne hwx] at hz
          exact ⟨w, Names.mem_without.mpr ⟨hw, hwx⟩, hz⟩
      · rintro ⟨w, hw, hz⟩
        obtain ⟨hw, hwx⟩ := Names.mem_without.mp hw
        refine ⟨⟨w, hw, by rwa [Function.update_of_ne hwx]⟩, ?_⟩
        rintro rfl
        exact binderOver_not_mem hw hwx hz
  | app f a hf ha =>
      simp only [substitute, freeNames, Names.mem_union, hf, ha, or_and_right, exists_or]
  | num v => simp [substitute, freeNames]

end Term

namespace Nameless

variable {value : Name → Nameless} {c d : List Name} {x y : Name}

/-- A name below a binder of another name is where it was, if its value refers to no binder. -/
theorem ofName_cons_of_ne (h : (value x).shift 1 0 = value x) (hxy : y ≠ x) :
    ofName value (y :: d) x = (ofName value d x).shift 1 0 := by
  have hb : (y == x) = false := beq_false_of_ne hxy
  simp only [ofName, List.idxOf?_cons, hb]
  cases d.idxOf? x <;> simp [shift, h]

/-- A binder between others raises what refers to those outside, for the names that it does not
bind. -/
theorem ofName_append_cons (hy : y ≠ x ∨ y ∈ c) :
    ofName .free (c ++ y :: d) x = (ofName .free (c ++ d) x).shift 1 c.length := by
  have happ (e : List Name) : (c ++ e).idxOf? x =
      (c.idxOf? x).or ((e.idxOf? x).map (· + c.length)) :=
    List.findIdx?_append
  unfold ofName
  rw [happ, happ]
  cases hi : c.idxOf? x with
  | some i =>
      have hlt : i < c.length := (List.idxOf?_eq_some_iff.mp hi).1
      exact (if_pos hlt).symm
  | none =>
      have hyx : y ≠ x := by
        rintro rfl
        exact List.idxOf?_eq_none_iff.mp hi (hy.resolve_left fun h => h rfl)
      rw [List.idxOf?_cons, beq_false_of_ne hyx]
      cases d.idxOf? x with
      | none => rfl
      | some i =>
          simp [shift, Nat.add_right_comm]

end Nameless

namespace Term

variable {t : Term} {x y z : Name} {c d : List Name}

/-- A binder whose name is not free in a term raises what refers to the binders outside. -/
theorem nameless_append_cons (hy : y ∉ t.freeNames ∨ y ∈ c) :
    t.nameless (c ++ y :: d) = (t.nameless (c ++ d)).shift 1 c.length := by
  induction t generalizing c with
  | var x =>
      exact Nameless.ofName_append_cons (hy.imp_left fun h e => h (List.mem_singleton.mpr e))
  | lam x b ih =>
      refine congrArg Nameless.lam (ih (c := x :: c) ?_)
      by_cases hyx : y = x
      · exact .inr (List.mem_cons.mpr (.inl hyx))
      · exact hy.imp (fun h hb => h (Names.mem_without.mpr ⟨hb, hyx⟩)) (List.mem_cons_of_mem x)
  | app f a hf ha =>
      exact congrArg₂ Nameless.app
        (hf (hy.imp_left fun h hm => h (Names.mem_union.mpr (.inl hm))))
        (ha (hy.imp_left fun h hm => h (Names.mem_union.mpr (.inr hm))))
  | num v => rfl

/-- A term without the names of its binders refers to no binder outside. -/
theorem shift_nameless (t : Term) : (t.nameless []).shift 1 0 = t.nameless [] := by
  have hother := Names.other_not_mem t.freeNames
  have hshift : t.nameless [t.freeNames.other] = (t.nameless []).shift 1 0 :=
    nameless_append_cons (c := []) (.inl hother)
  rw [← hshift]
  refine nameless_congr fun z hz => Nameless.ofName_cons_ne ?_
  rintro rfl
  exact hother hz

/-- Terms put for free names are the values of these names, in any scopes that agree so. -/
theorem nameless_substitute {σ : Name → Term} {value : Name → Nameless} {t : Term}
    (hvalue : ∀ z, (value z).shift 1 0 = value z)
    (h : ∀ z ∈ t.freeNames, (σ z).nameless c = Nameless.ofName value d z) :
    (t.substitute σ).nameless c = t.namelessWith value d := by
  induction t generalizing σ c d with
  | var x => exact h x (List.mem_singleton_self x)
  | lam x b ih =>
      refine congrArg Nameless.lam (ih fun z hz => ?_)
      by_cases hzx : z = x
      · subst hzx
        simp [namelessWith]
      · rw [Function.update_of_ne hzx, Nameless.ofName_cons_of_ne (hvalue z) (Ne.symm hzx),
          ← h z (Names.mem_without.mpr ⟨hz, hzx⟩)]
        exact nameless_append_cons (c := []) (.inl (binderOver_not_mem hz hzx))
  | app f a hf ha =>
      exact congrArg₂ Nameless.app (hf fun z hz => h z (Names.mem_union.mpr (.inl hz)))
        (ha fun z hz => h z (Names.mem_union.mpr (.inr hz)))
  | num v => rfl

/-- Without the names of binders, terms are put for names as nameless terms are. -/
theorem nameless_substitute_nil (σ : Name → Term) (t : Term) :
    (t.substitute σ).nameless [] = t.namelessWith (fun x => (σ x).nameless []) [] :=
  nameless_substitute (fun z => (σ z).shift_nameless) fun _ _ => rfl

end Term

/-- The names that a nameless term mentions. -/
def Nameless.freeNames : Nameless → Names
  | bound _ => []
  | free x => [x]
  | lam b => b.freeNames
  | app f a => f.freeNames.union a.freeNames
  | num _ => []

namespace Term

variable {t u : Term} {z : Name}

theorem mem_freeNames_nameless {c : List Name} :
    z ∈ (t.nameless c).freeNames ↔ z ∈ t.freeNames ∧ z ∉ c := by
  induction t generalizing c with
  | var x =>
      rw [nameless, namelessWith, freeNames, List.mem_singleton]
      by_cases hx : x ∈ c
      · obtain ⟨i, hi⟩ : ∃ i, Nameless.ofName .free c x = .bound i :=
          (Nameless.ofName_cases c x).resolve_right fun h =>
            (Nameless.ofName_eq_free_iff.mp h).2 hx
        rw [hi]
        exact iff_of_false List.not_mem_nil fun h => h.2 (h.1 ▸ hx)
      · rw [Nameless.ofName_eq_free_iff.mpr ⟨rfl, hx⟩, Nameless.freeNames, List.mem_singleton]
        exact ⟨fun h => ⟨h, h ▸ hx⟩, And.left⟩
  | lam x b ih =>
      rw [nameless, namelessWith, Nameless.freeNames, ih, freeNames, Names.mem_without,
        List.mem_cons, not_or, and_assoc]
  | app f a hf ha =>
      rw [nameless, namelessWith, Nameless.freeNames, freeNames, Names.mem_union, Names.mem_union,
        hf, ha, or_and_right]
  | num v => simp [namelessWith, Nameless.freeNames, freeNames]

/-- The free names of a term do not depend on the names of its binders. -/
theorem AlphaEq.mem_freeNames (h : t.AlphaEq u) : z ∈ t.freeNames ↔ z ∈ u.freeNames := by
  have hz : z ∈ (t.nameless []).freeNames ↔ z ∈ (u.nameless []).freeNames := by rw [h]
  simpa [mem_freeNames_nameless] using hz

end Term

/-- The term that a name stands for, recursively through the homes of suspensions: the name itself,
unless its innermost entry is resolved, and then the suspended term with what its own free names
stand for put in. -/
def Frames.put : Frames → Name → Term
  | empty, x => .var x
  | unresolved y outer, x => if y = x then .var x else outer.put x
  | resolved y t home _ outer, x =>
    if y = x then t.substitute fun z => home.put z else outer.put x

theorem Frames.nameless_put (frames : Frames) (x : Name) :
    (frames.put x).nameless [] = frames.value x := by
  induction frames generalizing x with
  | empty => rfl
  | unresolved y outer ih =>
      rw [put, value]
      split
      · rfl
      · exact ih x
  | resolved y t home free outer ihHome ih =>
      rw [put, value]
      split
      · rw [Term.nameless_substitute_nil]
        simp only [ihHome]
      · exact ih x

namespace Env

variable {env : Env} {x y : Name}

/-- The term with what its resolved names stand for put in for their free occurrences. -/
def substituted (env : Env) (t : Term) : Term :=
  t.substitute env.frames.put

/-- It is what the term stands for, with names for its binders. -/
theorem nameless_substituted (env : Env) (t : Term) :
    (env.substituted t).nameless [] = env.denote t := by
  rw [substituted, Term.nameless_substitute_nil, denote]
  simp only [Frames.nameless_put]

theorem put_unresolved (env : Env) (x y : Name) :
    (env.unresolved y).frames.put x = if y = x then .var x else env.frames.put x := rfl

theorem put_resolved (env : Env) (x y : Name) (s : Suspension) :
    (env.resolved y s).frames.put x =
      if y = x then s.home.substituted s.term else env.frames.put x := rfl

/-- What is kept beside the entries of an environment are the free names of what is put in. -/
theorem mem_freeNames_put : x ∈ (env.frames.put y).freeNames ↔ x ∈ env.freeNamesAt y := by
  induction env using Env.induction generalizing x y with
  | empty => rfl
  | unresolved env z ih =>
      rw [put_unresolved, freeNamesAt_unresolved]
      split
      · rfl
      · exact ih
  | resolved env z s ih ihHome =>
      rw [put_resolved, freeNamesAt_resolved]
      split
      · rw [substituted, Term.mem_freeNames_substitute, Suspension.mem_freeNames]
        simp only [ihHome]
      · exact ih

theorem nodup_freeNamesAt (env : Env) (x : Name) : (env.freeNamesAt x).Nodup := by
  induction env using Env.induction generalizing x with
  | empty => exact List.nodup_singleton x
  | unresolved env y ih =>
      rw [freeNamesAt_unresolved]
      split
      · exact List.nodup_singleton x
      · exact ih x
  | resolved env y s ih ihHome =>
      rw [freeNamesAt_resolved]
      split
      · rw [Suspension.freeNames_eq]
        exact Names.nodup_unions (List.forall_mem_map.mpr fun z _ => ihHome z)
      · exact ih x

/-- The free names kept beside a suspension are, each once, those of its term with what the resolved
names stand for put in, whatever names the binders have then. -/
theorem freeNames_suspend_exact (env : Env) (t : Term) :
    (env.suspend t).freeNames.Nodup ∧ (env.substituted t).nameless [] = env.denote t ∧
      ∀ u : Term, u.AlphaEq (env.substituted t) →
        (env.suspend t).freeNames.toFinset = u.freeNames.toFinset := by
  refine ⟨?_, env.nameless_substituted t, fun u hu => ?_⟩
  · rw [Suspension.freeNames_eq]
    exact Names.nodup_unions (List.forall_mem_map.mpr fun x _ => env.nodup_freeNamesAt x)
  · ext z
    rw [List.mem_toFinset, List.mem_toFinset, hu.mem_freeNames, substituted,
      Term.mem_freeNames_substitute, Suspension.mem_freeNames]
    simp only [mem_freeNames_put, term_suspend, home_suspend]

/-- The value of `a` has a binder `d` and mentions another `d`, and `b` is free in it and bound
above it. The inner entry of `c` hides the outer one. -/
theorem freeNames_suspend_exact_nested :
    let c := Env.empty.resolved "c" (Env.empty.suspend (.var "d"))
    let a := c.suspend (.lam "d" (.app (.var "b") (.app (.var "c") (.var "d"))))
    let env := (c.resolved "a" a).unresolved "c"
    let t := Term.app (.lam "b" (.app (.var "a") (.var "b"))) (.var "c")
    let u := Term.app (.lam "p" (.app (.lam "q" (.app (.var "b") (.app (.var "d") (.var "q"))))
      (.var "p"))) (.var "c")
    u.AlphaEq (env.substituted t) ∧ (env.suspend t).freeNames.toFinset = u.freeNames.toFinset ∧
      (env.suspend t).freeNames = ["b", "d", "c"] := by
  intro c a env t u
  have hu : u.AlphaEq (env.substituted t) := by
    rw [Term.AlphaEq, nameless_substituted]
    rfl
  exact ⟨hu, (freeNames_suspend_exact env t).2.2 u hu, rfl⟩

end Env

end NormalOrder
