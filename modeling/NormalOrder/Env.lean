/- Environments: what the names in scope stand for.

A name is unresolved when an abstraction around binds it, and resolved when it stands for a
suspension, a term that waits for its reduction together with the environment that gives its names
their meaning. The free names of the value behind a suspension are computed at most once and kept
beside it; `Frames.Sound` says that what is kept is what would be computed. -/
import NormalOrder.Term.Basic

namespace NormalOrder

/-- The entries of an environment, the innermost first. -/
inductive Frames
  | empty
  | unresolved (name : Name) (outer : Frames)
  | resolved (name : Name) (term : Term) (home : Frames) (free : Thunk Names) (outer : Frames)

namespace Frames

/-- The free names of what a name stands for: itself, unless its innermost entry is resolved. -/
def freeNamesAt (x : Name) : Frames → Names
  | empty => [x]
  | unresolved y outer => if y = x then [x] else outer.freeNamesAt x
  | resolved y _ _ free outer => if y = x then free.get else outer.freeNamesAt x

/-- The free names of the value of a term: those of the term, the resolved ones replaced by the
free names of their own values. -/
def freeNamesOf (frames : Frames) (t : Term) : Names :=
  Names.unions (t.freeNames.map fun x => frames.freeNamesAt x)

/-- The free names kept beside each suspension are those of its value. -/
def Sound : Frames → Prop
  | empty => True
  | unresolved _ outer => outer.Sound
  | resolved _ t home free outer => free.get = home.freeNamesOf t ∧ home.Sound ∧ outer.Sound

end Frames

/-- An environment: entries whose kept free names are right. -/
structure Env where
  frames : Frames
  sound : frames.Sound

/-- A term that waits for its reduction, and the environment it is reduced in. -/
structure Suspension where
  term : Term
  home : Env
  /-- The free names of the value, computed when first asked for. -/
  free : Thunk Names
  free_eq : free.get = home.frames.freeNamesOf term

inductive Binding
  | unresolved
  | resolved (value : Suspension)

def Frames.lookup (x : Name) : (frames : Frames) → frames.Sound → Option Binding
  | empty, _ => none
  | unresolved y outer, h => if y = x then some .unresolved else outer.lookup x h
  | resolved y t home free outer, h =>
    if y = x then some (.resolved ⟨t, ⟨home, h.2.1⟩, free, h.1⟩) else outer.lookup x h.2.2

namespace Suspension

def freeNames (s : Suspension) : Names :=
  s.free.get

end Suspension

namespace Env

def empty : Env := ⟨.empty, trivial⟩

/-- Binds a name without a value, over any outer entry. -/
def unresolved (env : Env) (x : Name) : Env :=
  ⟨.unresolved x env.frames, env.sound⟩

/-- Binds a name to a suspension, over any outer entry. -/
def resolved (env : Env) (x : Name) (value : Suspension) : Env :=
  ⟨.resolved x value.term value.home.frames value.free env.frames,
    value.free_eq, value.home.sound, env.sound⟩

def lookup (env : Env) (x : Name) : Option Binding :=
  env.frames.lookup x env.sound

def suspend (env : Env) (t : Term) : Suspension :=
  ⟨t, env, Thunk.mk fun _ => env.frames.freeNamesOf t, rfl⟩

/-- The free names of what a name stands for: itself, unless it is resolved. -/
def freeNamesAt (env : Env) (x : Name) : Names :=
  match env.lookup x with
  | some (.resolved s) => s.freeNames
  | _ => [x]

/-- Every environment is built from the empty one by unresolved and resolved entries. -/
theorem induction {motive : Env → Prop} (empty : motive .empty)
    (unresolved : ∀ env x, motive env → motive (env.unresolved x))
    (resolved : ∀ env x s, motive env → motive s.home → motive (env.resolved x s))
    (env : Env) : motive env := by
  obtain ⟨frames, sound⟩ := env
  induction frames with
  | empty => exact empty
  | unresolved x outer ih => exact unresolved ⟨outer, sound⟩ x (ih sound)
  | resolved x t home free outer ihHome ih =>
    exact resolved ⟨outer, sound.2.2⟩ x ⟨t, ⟨home, sound.2.1⟩, free, sound.1⟩ (ih sound.2.2)
      (ihHome sound.2.1)

@[simp] theorem lookup_empty (x : Name) : empty.lookup x = none := rfl

theorem lookup_unresolved (env : Env) (x y : Name) :
    (env.unresolved y).lookup x = if y = x then some .unresolved else env.lookup x := rfl

theorem lookup_resolved (env : Env) (x y : Name) (value : Suspension) :
    (env.resolved y value).lookup x = if y = x then some (.resolved value) else env.lookup x := rfl

theorem freeNamesAt_unresolved (env : Env) (x y : Name) :
    (env.unresolved y).freeNamesAt x = if y = x then [x] else env.freeNamesAt x := by
  by_cases h : y = x <;> simp [freeNamesAt, lookup_unresolved, h]

theorem freeNamesAt_resolved (env : Env) (x y : Name) (value : Suspension) :
    (env.resolved y value).freeNamesAt x = if y = x then value.freeNames else env.freeNamesAt x := by
  by_cases h : y = x <;> simp [freeNamesAt, lookup_resolved, h]

@[simp] theorem term_suspend (env : Env) (t : Term) : (env.suspend t).term = t := rfl

@[simp] theorem home_suspend (env : Env) (t : Term) : (env.suspend t).home = env := rfl

theorem frames_freeNamesAt (env : Env) (x : Name) :
    env.frames.freeNamesAt x = env.freeNamesAt x := by
  induction env using Env.induction with
  | empty => rfl
  | unresolved env y ih => rw [freeNamesAt_unresolved, ← ih, unresolved, Frames.freeNamesAt]
  | resolved env y s ih =>
    rw [freeNamesAt_resolved, ← ih, resolved, Frames.freeNamesAt, Suspension.freeNames]

end Env

namespace Suspension

/-- A suspension is its term and its environment; the kept free names follow from them. -/
theorem eq_suspend (s : Suspension) : s = s.home.suspend s.term := by
  obtain ⟨t, home, ⟨fn⟩, h⟩ := s
  have : fn = fun _ => home.frames.freeNamesOf t := funext fun _ => h
  subst this
  rfl

/-- The free names of a value are those of its term, the resolved ones replaced by the free names
of their own values. -/
theorem freeNames_eq (s : Suspension) :
    s.freeNames = Names.unions (s.term.freeNames.map s.home.freeNamesAt) := by
  rw [freeNames, s.free_eq, Frames.freeNamesOf]
  congr 1
  exact List.map_congr_left fun x _ => s.home.frames_freeNamesAt x

theorem mem_freeNames {s : Suspension} {x : Name} :
    x ∈ s.freeNames ↔ ∃ y ∈ s.term.freeNames, x ∈ s.home.freeNamesAt y := by
  rw [freeNames_eq, Names.mem_unions]
  simp only [List.mem_map]
  constructor
  · rintro ⟨_, ⟨y, hy, rfl⟩, hx⟩
    exact ⟨y, hy, hx⟩
  · rintro ⟨y, hy, hx⟩
    exact ⟨_, ⟨y, hy, rfl⟩, hx⟩

end Suspension

end NormalOrder
