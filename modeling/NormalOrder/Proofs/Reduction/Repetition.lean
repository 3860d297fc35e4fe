/- A run that no limit cuts goes the same way wherever it has as much room.

What it ends in, and how many contractions it counts, depends neither on the tally that it starts
with nor on how deep it stands. So a run can be taken as a part of another one. -/
import NormalOrder.Proofs.Reduction.Limits

namespace NormalOrder

/-- Halts that a limit brings about, and not the term. -/
def Halt.Cuts : Halt → Prop
  | .error (.stepLimit _) => True
  | .error (.depthLimit _) => True
  | .outOfFuel => True
  | _ => False

namespace Reducing

variable {α β : Type}

/-- What a computation ends in, its tally apart. -/
def ending : EStateM.Result Halt Tally α → Except Halt α
  | .ok a _ => .ok a
  | .error halt _ => .error halt

def Uncut (e : Except Halt α) : Prop :=
  ∀ halt, e = .error halt → ¬ halt.Cuts

/-- A computation ends in this way after `k` contractions, from every tally that leaves room for
them. -/
def EndsAfter (maxSteps : Option Nat) (k : Nat) (e : Except Halt α) (x : Reducing α) : Prop :=
  ∀ tally, (∀ limit, maxSteps = some limit → tally.steps + k ≤ limit) →
    ending (x tally) = e ∧ (lastTally (x tally)).steps = tally.steps + k

/-- Where the one computation is not cut, the other ends in the same way, after as many contractions
and some before them. -/
def Repeats (before : Nat) (maxSteps : Option Nat) (x y : Reducing α) : Prop :=
  ∀ tally, Uncut (ending (x tally)) → ∃ k, (lastTally (x tally)).steps = tally.steps + k ∧
    EndsAfter maxSteps (before + k) (ending (x tally)) y

section EndsAfter

variable {maxSteps : Option Nat} {j k : Nat} {x : Reducing α} {f : α → Reducing β} {a : α}

theorem endsAfter_pure (maxSteps : Option Nat) (a : α) :
    EndsAfter maxSteps 0 (.ok a) (pure a : Reducing α) :=
  fun _ _ => ⟨rfl, rfl⟩

theorem endsAfter_throw (maxSteps : Option Nat) (halt : Halt) :
    EndsAfter maxSteps 0 (.error halt) (throw halt : Reducing α) :=
  fun _ _ => ⟨rfl, rfl⟩

theorem endsAfter_tell (maxSteps : Option Nat) (event : Event) :
    EndsAfter maxSteps 0 (.ok ()) (tell event) :=
  fun _ _ => ⟨rfl, rfl⟩

theorem endsAfter_tellApplied (maxSteps : Option Nat) (argument : Term) (param : Name)
    (body : Term) : EndsAfter maxSteps 0 (.ok ()) (tellApplied argument param body) :=
  fun _ _ => ⟨rfl, rfl⟩

theorem endsAfter_countStep (limits : Limits) :
    EndsAfter limits.maxSteps 1 (.ok ()) (countStep limits) := by
  intro tally hroom
  cases hs : limits.maxSteps with
  | none =>
      rw [countStep_of_none hs]
      exact ⟨rfl, rfl⟩
  | some limit =>
      rw [countStep_of_some hs, if_neg (Nat.not_lt_of_le (hroom limit hs))]
      exact ⟨rfl, rfl⟩

theorem EndsAfter.bind {e : Except Halt β} (h : EndsAfter maxSteps j (.ok a) x)
    (hf : EndsAfter maxSteps k e (f a)) : EndsAfter maxSteps (j + k) e (x >>= f) := by
  intro tally hroom
  obtain ⟨hend, hsteps⟩ := h tally fun limit hl => by have := hroom limit hl; omega
  rw [bind_apply]
  cases hx : x tally with
  | error halt after =>
      rw [hx] at hend
      cases hend
  | ok b after =>
      rw [hx] at hend hsteps
      obtain rfl := Except.ok.inj hend
      have hsteps : after.steps = tally.steps + j := hsteps
      obtain ⟨hend', hsteps'⟩ := hf after fun limit hl => by have := hroom limit hl; omega
      exact ⟨hend', by rw [hsteps', hsteps, Nat.add_assoc]⟩

theorem EndsAfter.bind_error {halt : Halt} (h : EndsAfter maxSteps j (.error halt) x) :
    EndsAfter maxSteps j (.error halt) (x >>= f) := by
  intro tally hroom
  obtain ⟨hend, hsteps⟩ := h tally hroom
  rw [bind_apply]
  cases hx : x tally with
  | error halt' after =>
      rw [hx] at hend hsteps
      exact ⟨congrArg Except.error (Except.error.inj hend), hsteps⟩
  | ok b after =>
      rw [hx] at hend
      cases hend

theorem endsAfter_openBinder (x : Name) (body : Term) (home : Env) :
    ∃ e, ∀ maxSteps, EndsAfter maxSteps 0 e (openBinder x body home) := by
  rw [openBinder]
  split
  · cases body.rebind x (home.broughtUnder x body) with
    | error e => exact ⟨_, fun maxSteps => endsAfter_throw maxSteps _⟩
    | ok opened =>
        refine ⟨.ok opened, fun maxSteps => ?_⟩
        apply (endsAfter_tell maxSteps _).bind (k := 0)
        exact endsAfter_pure maxSteps opened
  · exact ⟨_, fun maxSteps => endsAfter_pure maxSteps _⟩

end EndsAfter

section Repeats

variable {before : Nat} {maxSteps : Option Nat} {x y : Reducing α} {f g : α → Reducing β}

theorem Repeats.of_cut (halt : Halt) (h : halt.Cuts) (y : Reducing α) :
    Repeats before maxSteps (throw halt) y :=
  fun _ huncut => absurd h (huncut halt rfl)

/-- Computations that count nothing and end in the same way whatever the tally. -/
theorem Repeats.of_endsAfter {e : Except Halt α} (hx : EndsAfter none 0 e x)
    (hy : EndsAfter maxSteps 0 e y) : Repeats 0 maxSteps x y := by
  intro tally _
  obtain ⟨hend, hsteps⟩ := hx tally fun _ hl => nomatch hl
  exact ⟨0, hsteps, hend ▸ hy⟩

theorem Repeats.pure (maxSteps : Option Nat) (a : α) :
    Repeats 0 maxSteps (Pure.pure a : Reducing α) (Pure.pure a : Reducing α) :=
  .of_endsAfter (endsAfter_pure none a) (endsAfter_pure maxSteps a)

theorem Repeats.bind (h : Repeats before maxSteps x y) (hf : ∀ a, Repeats 0 maxSteps (f a) (g a)) :
    Repeats before maxSteps (x >>= f) (y >>= g) := by
  intro tally
  rw [bind_apply]
  have hx := h tally
  cases hr : x tally with
  | error halt after =>
      rw [hr] at hx
      intro huncut
      have hhalt : ¬ halt.Cuts := huncut halt rfl
      obtain ⟨k, hsteps, hy⟩ := hx fun _ he => Except.error.inj he ▸ hhalt
      exact ⟨k, hsteps, hy.bind_error⟩
  | ok a after =>
      rw [hr] at hx
      intro huncut
      obtain ⟨j, hsteps, hy⟩ := hx fun _ he => nomatch he
      obtain ⟨k, hsteps', hg⟩ := hf a after huncut
      have hsteps : after.steps = tally.steps + j := hsteps
      refine ⟨j + k, by rw [hsteps', hsteps, Nat.add_assoc], ?_⟩
      have hwhole := hy.bind hg
      rw [Nat.zero_add, Nat.add_assoc] at hwhole
      exact hwhole

theorem countStep_repeats (limits limits' : Limits) :
    Repeats 0 limits'.maxSteps (countStep limits) (countStep limits') := by
  intro tally huncut
  suffices h : ending (countStep limits tally) = .ok () ∧
      (lastTally (countStep limits tally)).steps = tally.steps + 1 from
    ⟨1, h.2, h.1 ▸ endsAfter_countStep limits'⟩
  apply endsAfter_countStep limits tally
  intro limit hs
  rw [countStep_of_some hs] at huncut
  refine Nat.le_of_not_lt fun hlt => ?_
  rw [if_pos hlt] at huncut
  exact huncut _ rfl trivial

theorem operate_repeats (limits limits' : Limits) (f a : Term) (env : Env) :
    Repeats 0 limits'.maxSteps (operate limits f a env) (operate limits' f a env) := by
  rw [operate, operate]
  cases Operator.contract? f a env with
  | error e => exact .of_endsAfter (endsAfter_throw _ _) (endsAfter_throw _ _)
  | ok result =>
      cases result with
      | none => exact .pure _ _
      | some t => exact (countStep_repeats limits limits').bind fun _ => .pure _ _

theorem openBinder_repeats (maxSteps : Option Nat) (x : Name) (body : Term) (home : Env) :
    Repeats 0 maxSteps (openBinder x body home) (openBinder x body home) := by
  obtain ⟨e, he⟩ := endsAfter_openBinder x body home
  exact .of_endsAfter (he none) (he maxSteps)

end Repeats

section Run

variable {limits limits' : Limits} {fuel : Nat}

/-- Head reductions with this recursion are repeated wherever there is as much of it, and as much
depth left. -/
def HeadRepeats (limits limits' : Limits) (fuel : Nat) : Prop :=
  ∀ fuel' depth depth' t env, fuel ≤ fuel' →
    limits.maxDepth + depth' ≤ limits'.maxDepth + depth →
    Repeats 0 limits'.maxSteps (head limits fuel depth t env) (head limits' fuel' depth' t env)

def NormalRepeats (limits limits' : Limits) (fuel : Nat) : Prop :=
  ∀ fuel' depth depth' t env, fuel ≤ fuel' →
    limits.maxDepth + depth' ≤ limits'.maxDepth + depth →
    Repeats 0 limits'.maxSteps (normal limits fuel depth t env) (normal limits' fuel' depth' t env)

theorem head_app_repeats (ihHead : HeadRepeats limits limits' fuel)
    (ihNormal : NormalRepeats limits limits' fuel) {fuel' depth depth' : Nat} (hfuel : fuel ≤ fuel')
    (hdepth : limits.maxDepth + depth' ≤ limits'.maxDepth + depth)
    (hd : ¬ limits.maxDepth ≤ depth) (f a : Term) (env : Env) :
    Repeats 0 limits'.maxSteps (head limits (fuel + 1) depth (.app f a) env)
      (head limits' (fuel' + 1) depth' (.app f a) env) := by
  have hdepth' : limits.maxDepth + (depth' + 1) ≤ limits'.maxDepth + (depth + 1) := by omega
  rw [head, head, if_neg hd, if_neg (by omega : ¬ limits'.maxDepth ≤ depth')]
  apply (ihHead fuel' (depth + 1) (depth' + 1) f env hfuel hdepth').bind
  intro r
  cases r with
  | closure x body home =>
      apply (countStep_repeats limits limits').bind
      intro _
      apply (Repeats.of_endsAfter (endsAfter_tellApplied _ a x body)
        (endsAfter_tellApplied _ a x body)).bind
      intro _
      exact ihHead fuel' (depth + 1) (depth' + 1) body _ hfuel hdepth'
  | stuck g =>
      apply (ihNormal fuel' (depth + 1) (depth' + 1) a env hfuel hdepth').bind
      intro v
      apply (operate_repeats limits limits' g v env).bind
      intro r
      cases r with
      | none => exact .pure _ _
      | some t => exact ihHead fuel' (depth + 1) (depth' + 1) t .empty hfuel hdepth'

theorem HeadRepeats.succ (ihHead : HeadRepeats limits limits' fuel)
    (ihNormal : NormalRepeats limits limits' fuel) : HeadRepeats limits limits' (fuel + 1) := by
  intro fuel' depth depth' t env hfuel hdepth
  obtain ⟨fuel', rfl⟩ : ∃ n, fuel' = n + 1 := ⟨fuel' - 1, by omega⟩
  by_cases hd : limits.maxDepth ≤ depth
  · rw [head_of_deep hd]
    exact .of_cut (.error (.depthLimit _)) trivial _
  have hd' : ¬ limits'.maxDepth ≤ depth' := by omega
  cases t with
  | var x =>
      rw [head, head, if_neg hd, if_neg hd']
      cases env.lookup x with
      | none => exact .pure _ _
      | some binding =>
          cases binding with
          | unresolved => exact .pure _ _
          | resolved s =>
              exact ihHead fuel' (depth + 1) (depth' + 1) s.term s.home (by omega) (by omega)
  | num v =>
      rw [head, head, if_neg hd, if_neg hd']
      exact .pure _ _
  | lam x body =>
      rw [head, head, if_neg hd, if_neg hd']
      exact .pure _ _
  | app f a =>
      exact head_app_repeats ihHead ihNormal (Nat.le_of_succ_le_succ hfuel) hdepth hd f a env

/-- What is done with the result of head reduction: a body is reduced under its binder. -/
def finish (limits : Limits) (fuel depth : Nat) : Head → Reducing Term
  | .closure x body home => do
    let (y, renamed) ← openBinder x body home
    let value ← normal limits fuel depth renamed (home.unresolved y)
    return .lam y value
  | .stuck value => return value

theorem normal_succ (limits : Limits) (fuel depth : Nat) (t : Term) (env : Env) :
    normal limits (fuel + 1) depth t env =
      head limits fuel depth t env >>= finish limits fuel depth := by
  rw [normal]
  apply bind_congr
  intro r
  cases r <;> rfl

theorem NormalRepeats.finish (ihNormal : NormalRepeats limits limits' fuel)
    {fuel' depth depth' : Nat} (hfuel : fuel ≤ fuel')
    (hdepth : limits.maxDepth + depth' ≤ limits'.maxDepth + depth) (r : Head) :
    Repeats 0 limits'.maxSteps (finish limits fuel depth r) (finish limits' fuel' depth' r) := by
  cases r with
  | closure x body home =>
      apply (openBinder_repeats limits'.maxSteps x body home).bind
      intro opened
      exact (ihNormal fuel' depth depth' opened.2 _ hfuel hdepth).bind fun _ => .pure _ _
  | stuck v => exact .pure _ _

theorem NormalRepeats.succ (ihHead : HeadRepeats limits limits' fuel)
    (ihNormal : NormalRepeats limits limits' fuel) : NormalRepeats limits limits' (fuel + 1) := by
  intro fuel' depth depth' t env hfuel hdepth
  obtain ⟨fuel', rfl⟩ : ∃ n, fuel' = n + 1 := ⟨fuel' - 1, by omega⟩
  have hfuel := Nat.le_of_succ_le_succ hfuel
  rw [normal_succ, normal_succ]
  exact (ihHead fuel' depth depth' t env hfuel hdepth).bind (ihNormal.finish hfuel hdepth)

/-- Runs that are not cut are repeated wherever they have as much room. -/
theorem reduction_repeats (limits limits' : Limits) (fuel : Nat) :
    HeadRepeats limits limits' fuel ∧ NormalRepeats limits limits' fuel := by
  induction fuel with
  | zero =>
      exact ⟨fun _ _ _ _ _ _ _ => .of_cut .outOfFuel trivial _,
        fun _ _ _ _ _ _ _ => .of_cut .outOfFuel trivial _⟩
  | succ fuel ih =>
      obtain ⟨ihHead, ihNormal⟩ := ih
      exact ⟨ihHead.succ ihNormal, .succ ihHead ihNormal⟩

/-- A reduction ends as its full reduction does; that it tells of its value counts nothing. -/
theorem reduceWithin_of_normal {e : Except Halt Term} {k : Nat} {t : Term} {env : Env}
    (h : EndsAfter limits.maxSteps k e (normal limits fuel 0 t env))
    (hsteps : ∀ limit, limits.maxSteps = some limit → k ≤ limit) :
    ending (t.reduceWithin fuel limits env) = e ∧
      (lastTally (t.reduceWithin fuel limits env)).steps = k := by
  have hwhole : EndsAfter limits.maxSteps k e (whole limits fuel t env) := by
    cases e with
    | error halt => exact h.bind_error
    | ok v =>
        apply h.bind (k := 0)
        exact fun _ _ => ⟨rfl, rfl⟩
  obtain ⟨hend, hcount⟩ := hwhole {} fun limit hl => (Nat.zero_add k).symm ▸ hsteps limit hl
  exact ⟨hend, hcount.trans (Nat.zero_add k)⟩

theorem ending_normal (limits : Limits) (fuel : Nat) (t : Term) (env : Env) :
    ending (normal limits fuel 0 t env {}) = ending (t.reduceWithin fuel limits env) ∧
      (lastTally (normal limits fuel 0 t env {})).steps =
        (lastTally (t.reduceWithin fuel limits env)).steps := by
  rw [Term.reduceWithin, whole, bind_apply]
  cases normal limits fuel 0 t env {} <;> exact ⟨rfl, rfl⟩

end Run

end Reducing

end NormalOrder
