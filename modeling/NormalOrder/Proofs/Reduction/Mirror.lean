/- Environments and the cells that mirror them.

Cells mirror an environment entry by entry. A term of the environment is then one of the cells,
without names, and each of its free names stands for the same thing below the binders of the result.
This survives entering an abstraction because the binder is renamed where a value mentions it. -/
import NormalOrder.Proofs.Machine.Denote
import NormalOrder.Proofs.Name.Fresh
import NormalOrder.Reduction.Normal

namespace NormalOrder

open Machine (Cells Atom)

namespace Frames

def names : Frames → List Name
  | empty => []
  | unresolved x outer => x :: outer.names
  | resolved x _ _ _ outer => x :: outer.names

/-- Cells mirror an environment: they have the same entries in the same order, without names. -/
def Mirrors : Frames → Cells → Prop
  | empty, .nil => True
  | unresolved _ outer, .atom _ outer' => outer.Mirrors outer'
  | resolved _ t home _ outer, .thunk n home' outer' =>
    n = t.nameless home.names ∧ home.Mirrors home' ∧ outer.Mirrors outer'
  | _, _ => False

/-- A name stands for the same in an environment, as a name below the binders of the result, and in
the cells that mirror it. A resolved name does if all free names of its term do at home. -/
def Stands (scope : List Name) : Frames → Cells → Name → Prop
  | empty, _, z => z ∉ scope
  | unresolved x outer, .atom a outer', z =>
    if x = z then a.term scope.length = Nameless.ofName .free scope z
    else outer.Stands scope outer' z
  | resolved x t home _ outer, .thunk _ home' outer', z =>
    if x = z then ∀ w ∈ t.freeNames, home.Stands scope home' w
    else outer.Stands scope outer' z
  | _, _, _ => False

end Frames

/-- What cells say of a name, by its place among the names of their entries, when its binding in an
environment is this. -/
def Machine.Cells.Shows (cells : Cells) (names scope : List Name) (x : Name) :
    Option Binding → Prop
  | none => names.idxOf? x = none ∧ x ∉ scope
  | some .unresolved => ∃ i, names.idxOf? x = some i ∧ cells.suspended? i = none ∧
      cells.value scope.length i = Nameless.ofName .free scope x
  | some (.resolved s) => ∃ i home, names.idxOf? x = some i ∧
      cells.suspended? i = some (s.term.nameless s.home.frames.names, home) ∧
      s.home.frames.Mirrors home ∧ ∀ w ∈ s.term.freeNames, s.home.frames.Stands scope home w

theorem Machine.Cells.Shows.cons {cells outer : Cells} {names scope : List Name} {x y : Name}
    {binding : Option Binding} (h : outer.Shows names scope x binding) (hy : y ≠ x)
    (hs : ∀ i, cells.suspended? (i + 1) = outer.suspended? i)
    (hv : ∀ i, cells.value scope.length (i + 1) = outer.value scope.length i) :
    cells.Shows (y :: names) scope x binding := by
  have hidx : (y :: names).idxOf? x = (names.idxOf? x).map (· + 1) := by
    rw [List.idxOf?_cons, if_neg (by simpa using hy)]
  cases binding with
  | none => exact ⟨by rw [hidx, h.1]; rfl, h.2⟩
  | some b =>
      cases b with
      | unresolved =>
          obtain ⟨i, hi, hnone, hvalue⟩ := h
          exact ⟨i + 1, by rw [hidx, hi]; rfl, (hs i).trans hnone, (hv i).trans hvalue⟩
      | resolved s =>
          obtain ⟨i, home, hi, hsome, hhome⟩ := h
          exact ⟨i + 1, home, by rw [hidx, hi]; rfl, (hs i).trans hsome, hhome⟩

/-- What an environment says of a name is what the cells that mirror it say. -/
theorem Env.lookup_mirrored {env : Env} {cells : Cells} {scope : List Name} {x : Name}
    (hm : env.frames.Mirrors cells) (hs : env.frames.Stands scope cells x) :
    cells.Shows env.frames.names scope x (env.lookup x) := by
  induction env using Env.induction generalizing cells with
  | empty => exact ⟨rfl, hs⟩
  | unresolved env y ih =>
      cases cells with
      | nil => cases hm
      | thunk n home outer => cases hm
      | atom a outer =>
          rw [lookup_unresolved]
          simp only [Env.unresolved, Frames.Stands] at hs
          by_cases hy : y = x
          · rw [if_pos hy] at hs ⊢
            exact ⟨0, by simp [Env.unresolved, Frames.names, List.idxOf?_cons, hy], rfl, hs⟩
          · rw [if_neg hy] at hs ⊢
            exact (ih hm hs).cons hy (fun _ => rfl) fun _ => rfl
  | resolved env y s ih ihHome =>
      cases cells with
      | nil => cases hm
      | atom a outer => cases hm
      | thunk n home outer =>
          obtain ⟨rfl, hhome, hm⟩ := hm
          rw [lookup_resolved]
          simp only [Env.resolved, Frames.Stands] at hs
          by_cases hy : y = x
          · rw [if_pos hy] at hs ⊢
            exact ⟨0, home, by simp [Env.resolved, Frames.names, List.idxOf?_cons, hy], rfl,
              hhome, hs⟩
          · rw [if_neg hy] at hs ⊢
            exact (ih hm hs).cons hy (fun _ => rfl) fun _ => rfl

/-- A name goes on standing for the same below one more binder of the result, if what it stands for
does not mention that binder's name. -/
theorem Env.stands_under {env : Env} {cells : Cells} {scope : List Name} {y z : Name}
    (hm : env.frames.Mirrors cells) (hf : cells.Fits scope.length)
    (hs : env.frames.Stands scope cells z) (hy : y ∉ env.freeNamesAt z) :
    env.frames.Stands (y :: scope) cells z := by
  induction env using Env.induction generalizing cells z with
  | empty =>
      rw [freeNamesAt, lookup_empty] at hy
      intro hz
      rcases List.mem_cons.mp hz with rfl | hz
      · exact hy (List.mem_singleton_self z)
      · exact hs hz
  | unresolved env x ih =>
      cases cells with
      | nil => cases hm
      | thunk n home outer => cases hm
      | atom a outer =>
          rw [freeNamesAt_unresolved] at hy
          simp only [Env.unresolved, Frames.Stands] at hs ⊢
          by_cases hx : x = z
          · rw [if_pos hx] at hs hy ⊢
            have hyz : y ≠ z := fun e => hy (e ▸ List.mem_singleton_self y)
            rw [Nameless.ofName_cons_ne hyz, ← hs, List.length_cons]
            exact (Atom.shift_term hf.1 1 0).symm
          · rw [if_neg hx] at hs hy ⊢
            exact ih hm hf.2 hs hy
  | resolved env x s ih ihHome =>
      cases cells with
      | nil => cases hm
      | atom a outer => cases hm
      | thunk n home outer =>
          obtain ⟨-, hhome, hm⟩ := hm
          rw [freeNamesAt_resolved] at hy
          simp only [Env.resolved, Frames.Stands] at hs ⊢
          by_cases hx : x = z
          · rw [if_pos hx] at hs hy ⊢
            -- What a free name of the suspended term mentions, its value mentions too.
            intro w hw
            exact ihHome hhome hf.1 (hs w hw) fun h => hy (Suspension.mem_freeNames.mpr ⟨w, hw, h⟩)
          · rw [if_neg hx] at hs hy ⊢
            exact ih hm hf.2 hs hy

namespace Frames

/-- The cells of an environment whose unresolved names nothing binds. -/
def cells : Frames → Cells
  | empty => .nil
  | unresolved x outer => .atom (.name x) outer.cells
  | resolved _ t home _ outer => .thunk (t.nameless home.names) home.cells outer.cells

theorem mirrors_cells (frames : Frames) : frames.Mirrors frames.cells := by
  induction frames with
  | empty => trivial
  | unresolved x outer ih => exact ih
  | resolved x t home free outer ihHome ih => exact ⟨rfl, ihHome, ih⟩

theorem fits_cells (frames : Frames) (entered : Nat) : frames.cells.Fits entered := by
  induction frames with
  | empty => trivial
  | unresolved x outer ih => exact ⟨trivial, ih⟩
  | resolved x t home free outer ihHome ih => exact ⟨ihHome, ih⟩

theorem stands_cells (frames : Frames) (z : Name) : frames.Stands [] frames.cells z := by
  induction frames generalizing z with
  | empty => exact fun h => nomatch h
  | unresolved x outer ih =>
      rw [cells, Stands]
      by_cases hx : x = z
      · rw [if_pos hx, hx]
        rfl
      · rw [if_neg hx]
        exact ih z
  | resolved x t home free outer ihHome ih =>
      rw [cells, Stands]
      by_cases hx : x = z
      · rw [if_pos hx]
        exact fun w _ => ihHome w
      · rw [if_neg hx]
        exact ih z

theorem fill_ofName_append (value : Nat → Nat → Nameless) (scope names : List Name)
    (entered : Nat) (x : Name) :
    (Nameless.ofName .free (scope ++ names) x).fill value entered scope.length =
      Nameless.ofName (fun x => (Nameless.ofName .free names x).fill value
        (entered + scope.length) 0) scope x := by
  have happ : (scope ++ names).idxOf? x =
      (scope.idxOf? x).or ((names.idxOf? x).map (· + scope.length)) :=
    List.findIdx?_append
  unfold Nameless.ofName
  rw [happ]
  cases hi : scope.idxOf? x with
  | some i =>
      have hlt : i < scope.length := (List.idxOf?_eq_some_iff.mp hi).1
      exact if_pos hlt
  | none =>
      cases hx : names.idxOf? x with
      | none => simp only [Option.map_none, Option.or_none, hx, Nameless.fill]
      | some i =>
          have hge : ¬ i + scope.length < scope.length := by omega
          simp only [Option.map_some, Option.none_or, hx, Nameless.fill, if_neg hge,
            Nat.add_sub_cancel, Nat.not_lt_zero, if_false, Nat.add_zero, Nat.sub_zero]

theorem fill_shift {value outer : Nat → Nat → Nameless} {entered : Nat}
    (h : ∀ i, value entered (i + 1) = outer entered i) (x : Name) (names : List Name) :
    ((Nameless.ofName .free names x).shift 1 0).fill value entered 0 =
      (Nameless.ofName .free names x).fill outer entered 0 := by
  unfold Nameless.ofName
  cases names.idxOf? x with
  | none => rfl
  | some i => exact h i

theorem fill_nameless {frames : Frames} (h : ∀ entered x,
      (Nameless.ofName .free frames.names x).fill frames.cells.value entered 0 = frames.value x)
    (t : Term) (scope : List Name) (entered : Nat) :
    (t.nameless (scope ++ frames.names)).fill frames.cells.value entered scope.length =
      t.namelessWith frames.value scope := by
  induction t generalizing scope with
  | var x =>
      rw [Term.nameless, Term.namelessWith, Term.namelessWith, fill_ofName_append]
      exact congrArg (fun value => Nameless.ofName value scope x) (funext (h _))
  | lam x b ih => exact congrArg Nameless.lam (ih (x :: scope))
  | app f a hf ha => exact congrArg₂ Nameless.app (hf scope) (ha scope)
  | num v => rfl

theorem fill_ofName (frames : Frames) (entered : Nat) (x : Name) :
    (Nameless.ofName .free frames.names x).fill frames.cells.value entered 0 = frames.value x := by
  induction frames generalizing entered x with
  | empty => rfl
  | unresolved y outer ih =>
      rw [value]
      by_cases hy : y = x
      · subst hy
        rw [names, Nameless.ofName_cons_self, if_pos rfl]
        rfl
      · rw [names, Nameless.ofName_cons_ne hy, if_neg hy, ← ih entered x]
        exact fill_shift (fun _ => rfl) x outer.names
  | resolved y t home free outer ihHome ih =>
      rw [value]
      by_cases hy : y = x
      · subst hy
        rw [names, Nameless.ofName_cons_self, if_pos rfl]
        exact fill_nameless ihHome t [] entered
      · rw [names, Nameless.ofName_cons_ne hy, if_neg hy, ← ih entered x]
        exact fill_shift (fun _ => rfl) x outer.names

end Frames

/-- What a term stands for in an environment is what its cells say. -/
theorem Env.denote_eq (env : Env) (t : Term) :
    env.denote t = env.frames.cells.denote 0 (t.nameless env.frames.names) :=
  (Frames.fill_nameless env.frames.fill_ofName t [] 0).symm

namespace Env

theorem denote_empty (t : Term) : Env.empty.denote t = t.nameless [] := by
  have hvalue : Frames.empty.value = Nameless.free := by
    funext x
    rfl
  rw [denote, empty, hvalue]

/-- A term stands for what the abstraction of a resolved name over it is contracted to, applied to
what the name stands for. -/
theorem denote_resolved (env : Env) (x : Name) (s : Suspension) (t : Term) :
    ∃ b, env.denote (.lam x t) = .lam b ∧
      (env.resolved x s).denote t = b.instantiate 0 (s.home.denote s.term) := by
  refine ⟨(t.nameless (x :: env.frames.names)).fill env.frames.cells.value 0 1, ?_, ?_⟩
  · rw [denote_eq]
    rfl
  · rw [denote_eq, denote_eq]
    exact Cells.denote_thunk (env.frames.fits_cells 0) (s.home.frames.fits_cells 0) _ _

end Env

end NormalOrder
