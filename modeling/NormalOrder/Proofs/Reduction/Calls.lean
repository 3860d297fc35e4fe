/- What head reduction calls for.

It returns, or it ends in a call for another term and goes on as the reduction of that term does.
Each rule says how many contractions come before that call, how many calls further in it stands, and
how much room the calls before it need. -/
import NormalOrder.Proofs.Reduction.Repetition

namespace NormalOrder

namespace Reducing

/-- Head reduction returns this result after `k` contractions, wherever it has this much room. -/
def HeadReturns (room k : Nat) (t : Term) (env : Env) (r : Head) : Prop :=
  ∀ limits fuel depth, room ≤ fuel → depth + room ≤ limits.maxDepth →
    EndsAfter limits.maxSteps k (.ok r) (head limits fuel depth t env)

def NormalReturns (room k : Nat) (t : Term) (env : Env) (v : Term) : Prop :=
  ∀ limits fuel depth, room ≤ fuel → depth + room ≤ limits.maxDepth →
    EndsAfter limits.maxSteps k (.ok v) (normal limits fuel depth t env)

/-- Head reduction of `t` ends in that of `u`, which stands `rise` calls further in, after `k`
contractions. What is reduced before has this much room. -/
def Leads (rise room k : Nat) (t : Term) (env : Env) (u : Term) (home : Env) : Prop :=
  ∀ limits fuel depth, room ≤ fuel → depth + rise + room ≤ limits.maxDepth → ∀ j e,
    EndsAfter limits.maxSteps j e (head limits fuel (depth + rise) u home) →
      EndsAfter limits.maxSteps (k + j) e (head limits (fuel + rise) depth t env)

section Calls

variable {room room' rise rise' k k' : Nat} {t u f a g v body : Term} {env home middle : Env}
  {x : Name} {r : Head}

theorem HeadReturns.free (hx : ∀ s, env.lookup x ≠ some (.resolved s)) :
    HeadReturns 1 0 (.var x) env (.stuck (.var x)) := by
  intro limits fuel depth hfuel hdepth
  obtain ⟨fuel, rfl⟩ : ∃ n, fuel = n + 1 := ⟨fuel - 1, by omega⟩
  rw [head, if_neg (by omega : ¬ limits.maxDepth ≤ depth)]
  split
  · rename_i s hs
    exact absurd hs (hx s)
  · exact endsAfter_pure _ _

theorem HeadReturns.lam (x : Name) (body : Term) (env : Env) :
    HeadReturns 1 0 (.lam x body) env (.closure x body env) := by
  intro limits fuel depth hfuel hdepth
  obtain ⟨fuel, rfl⟩ : ∃ n, fuel = n + 1 := ⟨fuel - 1, by omega⟩
  rw [head, if_neg (by omega : ¬ limits.maxDepth ≤ depth)]
  exact endsAfter_pure _ _

/-- An abstraction that is applied goes on with its body, where the parameter stands for the
suspended argument. -/
theorem Leads.enter (hf : HeadReturns room k f env (.closure x body home)) (a : Term) :
    Leads 1 room (k + 1) (.app f a) env body (home.resolved x (env.suspend a)) := by
  intro limits fuel depth hfuel hdepth j e h
  rw [head, if_neg (by omega : ¬ limits.maxDepth ≤ depth), Nat.add_assoc]
  apply (hf limits fuel (depth + 1) hfuel hdepth).bind
  apply (endsAfter_countStep limits).bind
  rw [← Nat.zero_add j]
  exact (endsAfter_tellApplied limits.maxSteps a x body).bind h

/-- A name goes on with the term that it stands for, in the home of that term. -/
theorem Leads.follow {s : Suspension} (hx : env.lookup x = some (.resolved s)) :
    Leads 1 0 0 (.var x) env s.term s.home := by
  intro limits fuel depth _ hdepth j e h
  rw [head, if_neg (by omega : ¬ limits.maxDepth ≤ depth), hx, Nat.zero_add]
  exact h

/-- What is applied and no abstraction has its argument reduced, and may then be an operator on two
numbers. -/
theorem endsAfter_head_of_stuck (hf : HeadReturns room k f env (.stuck g))
    (ha : NormalReturns room' k' a env v) {limits : Limits} {fuel depth j : Nat}
    {e : Except Halt Head} (hfuel : max room room' ≤ fuel)
    (hdepth : depth + 1 + max room room' ≤ limits.maxDepth)
    (h : EndsAfter limits.maxSteps j e (do
      match ← operate limits g v env with
      | some result => head limits fuel (depth + 1) result .empty
      | none => return .stuck (.app g v))) :
    EndsAfter limits.maxSteps (k + k' + j) e (head limits (fuel + 1) depth (.app f a) env) := by
  rw [head, if_neg (by omega : ¬ limits.maxDepth ≤ depth), Nat.add_assoc]
  apply (hf limits fuel (depth + 1) (by omega) (by omega)).bind
  exact (ha limits fuel (depth + 1) (by omega) (by omega)).bind h

theorem HeadReturns.stuck (hf : HeadReturns room k f env (.stuck g))
    (ha : NormalReturns room' k' a env v) (hc : Operator.contract? g v env = .ok none) :
    HeadReturns (max room room' + 1) (k + k') (.app f a) env (.stuck (.app g v)) := by
  intro limits fuel depth hfuel hdepth
  obtain ⟨fuel, rfl⟩ : ∃ n, fuel = n + 1 := ⟨fuel - 1, by omega⟩
  apply endsAfter_head_of_stuck hf ha (j := 0) (by omega) (by omega)
  rw [operate, hc]
  exact endsAfter_pure _ _

/-- An operator on two numbers goes on with its result, in the empty environment. -/
theorem Leads.operate (hf : HeadReturns room k f env (.stuck g))
    (ha : NormalReturns room' k' a env v) (hc : Operator.contract? g v env = .ok (some t)) :
    Leads 1 (max room room') (k + k' + 1) (.app f a) env t .empty := by
  intro limits fuel depth hfuel hdepth j e h
  have hop : EndsAfter limits.maxSteps 1 (.ok (some t)) (Reducing.operate limits g v env) := by
    rw [Reducing.operate, hc]
    apply (endsAfter_countStep limits).bind (k := 0)
    exact endsAfter_pure _ _
  rw [Nat.add_assoc (k + k')]
  apply endsAfter_head_of_stuck hf ha (by omega) (by omega)
  exact hop.bind h

theorem Leads.trans (h : Leads rise room k t env u middle)
    (h' : Leads rise' room' k' u middle v home) :
    Leads (rise + rise') (max room room') (k + k') t env v home := by
  intro limits fuel depth hfuel hdepth j e hv
  rw [← Nat.add_assoc] at hv
  have hu := h' limits fuel (depth + rise) (by omega) (by omega) j e hv
  have ht := h limits (fuel + rise') depth (by omega) (by omega) (k' + j) e hu
  rwa [Nat.add_assoc fuel, Nat.add_comm rise', ← Nat.add_assoc k] at ht

theorem Leads.returns (h : Leads rise room k t env u home) (hu : HeadReturns room' k' u home r) :
    HeadReturns (max room room' + rise) (k + k') t env r := by
  intro limits fuel depth hfuel hdepth
  obtain ⟨fuel, rfl⟩ : ∃ n, fuel = n + rise := ⟨fuel - rise, by omega⟩
  apply h limits fuel depth (by omega) (by omega)
  exact hu limits fuel (depth + rise) (by omega) (by omega)

end Calls

section Run

variable {rise room k fuel fuel' : Nat} {limits limits' : Limits} {t u : Term} {env home : Env}

/-- A value that a run comes to is returned wherever there is as much room as the run had. -/
theorem NormalReturns.of_reduceWithin {v : Term} {tally : Tally}
    (h : t.reduceWithin fuel limits env = .ok v tally) :
    NormalReturns (max fuel limits.maxDepth) tally.steps t env v := by
  intro limits' fuel' depth hfuel hdepth
  obtain ⟨hend, hsteps⟩ := ending_normal limits fuel t env
  rw [h] at hend hsteps
  have hrepeats := (reduction_repeats limits limits' fuel).2 fuel' 0 depth t env (by omega)
    (by omega)
  obtain ⟨j, hj, hv⟩ := hrepeats {} (hend ▸ fun _ he => nomatch he)
  rw [hend] at hv
  have hj : tally.steps = 0 + j := hsteps.symm.trans hj
  rwa [hj]

/-- Where head reduction of a term leads to that of another, the reduction of the one repeats that
of the other. -/
theorem Leads.normal_repeats (h : Leads rise room k t env u home) (hfuel : fuel + rise ≤ fuel')
    (hroom : room + rise < fuel') (hdepth : limits.maxDepth + rise ≤ limits'.maxDepth)
    (hdeep : rise + room ≤ limits'.maxDepth) :
    Repeats k limits'.maxSteps (normal limits fuel 0 u home) (normal limits' fuel' 0 t env) := by
  cases fuel with
  | zero => exact .of_cut .outOfFuel trivial _
  | succ fuel =>
      obtain ⟨fuel', rfl⟩ : ∃ n, fuel' = n + rise + 1 := ⟨fuel' - rise - 1, by omega⟩
      obtain ⟨hheads, hnormals⟩ := reduction_repeats limits limits' fuel
      have hhead : Repeats k limits'.maxSteps (head limits fuel 0 u home)
          (head limits' (fuel' + rise) 0 t env) := by
        intro tally huncut
        obtain ⟨j, hj, hu⟩ :=
          hheads fuel' 0 (0 + rise) u home (by omega) (by omega) tally huncut
        rw [Nat.zero_add] at hu
        exact ⟨j, hj, h limits' fuel' 0 (by omega) (by omega) j _ hu⟩
      rw [normal_succ, normal_succ]
      exact hhead.bind (hnormals.finish (by omega) (by omega))

theorem Leads.reduceWithin (h : Leads rise room k t env u home)
    (huncut : Uncut (ending (u.reduceWithin fuel limits home))) (hfuel : fuel + rise ≤ fuel')
    (hroom : room + rise < fuel') (hdepth : limits.maxDepth + rise ≤ limits'.maxDepth)
    (hdeep : rise + room ≤ limits'.maxDepth)
    (hsteps : ∀ limit, limits'.maxSteps = some limit →
      k + (lastTally (u.reduceWithin fuel limits home)).steps ≤ limit) :
    ending (t.reduceWithin fuel' limits' env) = ending (u.reduceWithin fuel limits home) ∧
      (lastTally (t.reduceWithin fuel' limits' env)).steps =
        k + (lastTally (u.reduceWithin fuel limits home)).steps := by
  obtain ⟨hend, hcount⟩ := ending_normal limits fuel u home
  obtain ⟨j, hj, ht⟩ := h.normal_repeats hfuel hroom hdepth hdeep {} (hend ▸ huncut)
  have hj : (lastTally (u.reduceWithin fuel limits home)).steps = j :=
    (hcount.symm.trans hj).trans (Nat.zero_add j)
  rw [hj] at hsteps ⊢
  rw [hend] at ht
  exact reduceWithin_of_normal ht hsteps

/-- A run that is not cut reduces a head, at least. -/
theorem room_of_uncut (h : Uncut (ending (t.reduceWithin fuel limits env))) :
    2 ≤ fuel ∧ 0 < limits.maxDepth := by
  rw [← (ending_normal limits fuel t env).1] at h
  match fuel with
  | 0 => exact absurd trivial (h .outOfFuel rfl)
  | 1 => exact absurd trivial (h .outOfFuel rfl)
  | fuel + 2 =>
      refine ⟨Nat.le_add_left 2 fuel, Nat.pos_of_ne_zero fun hzero => ?_⟩
      rw [normal_succ, head_of_deep (Nat.le_zero.mpr hzero)] at h
      exact h (.error (.depthLimit _)) rfl trivial

/-- A run that is not cut counts no more contractions than the limit allows. -/
theorem steps_le_of_uncut {n depth : Nat}
    (h : Uncut (ending (t.reduceWithin fuel ⟨some n, depth⟩ env))) :
    (lastTally (t.reduceWithin fuel ⟨some n, depth⟩ env)).steps ≤ n := by
  obtain ⟨hsame, hcut⟩ := t.reduceWithin_maxSteps env fuel depth n
  rcases Nat.lt_or_ge n (lastTally (t.reduceWithin fuel ⟨none, depth⟩ env)).steps with hlt | hle
  · obtain ⟨tally, hr⟩ := hcut hlt
    rw [hr] at h
    exact absurd trivial (h (.error (.stepLimit n)) rfl)
  · rw [hsame hle]
    exact hle

end Run

end Reducing

end NormalOrder
