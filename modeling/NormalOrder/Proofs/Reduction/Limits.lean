/- Limits cut a run short and do nothing else.

Two runs that differ in their limits only, or in the recursion they may use, go the same way call by
call until one of them is cut. The reducer is gone through once, for every relation between
computations that its parts keep; the results on contractions, on depth and on recursion each give
such a relation. -/
import Mathlib.Data.Nat.Find
import NormalOrder.Proofs.Reduction.Ensures

namespace NormalOrder

namespace Reducing

variable {α β : Type}

/-- The tally that a computation leaves, whether it returns or halts. -/
def lastTally : EStateM.Result Halt Tally α → Tally
  | .ok _ tally => tally
  | .error _ tally => tally

/-- A computation that counts no contraction. -/
def Uncounted (x : Reducing α) : Prop :=
  ∀ tally, (lastTally (x tally)).steps = tally.steps

section Uncounted

theorem uncounted_pure (a : α) : Uncounted (pure a : Reducing α) :=
  fun _ => rfl

theorem uncounted_throw (halt : Halt) : Uncounted (throw halt : Reducing α) :=
  fun _ => rfl

theorem uncounted_tell (event : Event) : Uncounted (tell event) :=
  fun _ => rfl

theorem uncounted_tellApplied (argument : Term) (param : Name) (body : Term) :
    Uncounted (tellApplied argument param body) :=
  fun _ => rfl

theorem Uncounted.bind {x : Reducing α} {f : α → Reducing β} (h : x.Uncounted)
    (hf : ∀ a, (f a).Uncounted) : (x >>= f).Uncounted := by
  intro tally
  have hx := h tally
  rw [bind_apply]
  cases hr : x tally with
  | error halt after =>
      rw [hr] at hx
      exact hx
  | ok a after =>
      rw [hr] at hx
      exact (hf a after).trans hx

theorem uncounted_openBinder (x : Name) (body : Term) (home : Env) :
    (openBinder x body home).Uncounted := by
  rw [openBinder]
  split
  · cases body.rebind x (home.broughtUnder x body) with
    | error e => exact uncounted_throw _
    | ok opened => exact (uncounted_tell _).bind fun _ => uncounted_pure _
  · exact uncounted_pure _

end Uncounted

/-- A relation between computations that holds of whole runs, of those under `limits` on the left
and of those under `limits'` on the right, since all that they are made of keeps it. On the right a
run may be cut by the depth where it goes on to the left. -/
structure Comparison (limits limits' : Limits)
    (related : ∀ {α : Type}, Reducing α → Reducing α → Prop) : Prop where
  uncounted : ∀ {α : Type} {x : Reducing α}, x.Uncounted → related x x
  bind : ∀ {α β : Type} {x y : Reducing α} {f g : α → Reducing β}, related x y →
    (∀ a, related (f a) (g a)) → related (x >>= f) (y >>= g)
  countStep : related (countStep limits) (countStep limits')
  depth_le : limits'.maxDepth ≤ limits.maxDepth
  deep : limits'.maxDepth < limits.maxDepth →
    ∀ x : Reducing Head, related x (throw (.error (.depthLimit limits'.maxDepth)))

namespace Comparison

variable {limits limits' : Limits} {related : ∀ {α : Type}, Reducing α → Reducing α → Prop}
  {fuel fuel' : Nat}

theorem operate (h : Comparison limits limits' related) (f a : Term) (env : Env) :
    related (operate limits f a env) (operate limits' f a env) := by
  rw [Reducing.operate, Reducing.operate]
  cases Operator.contract? f a env with
  | error e => exact h.uncounted (uncounted_throw _)
  | ok result =>
      cases result with
      | none => exact h.uncounted (uncounted_pure _)
      | some t => exact h.bind h.countStep fun _ => h.uncounted (uncounted_pure _)

/-- Head reductions with this recursion on either side are related. -/
def Heads (related : ∀ {α : Type}, Reducing α → Reducing α → Prop) (limits limits' : Limits)
    (fuel fuel' : Nat) : Prop :=
  ∀ depth t env, related (head limits fuel depth t env) (head limits' fuel' depth t env)

def Normals (related : ∀ {α : Type}, Reducing α → Reducing α → Prop) (limits limits' : Limits)
    (fuel fuel' : Nat) : Prop :=
  ∀ depth t env, related (normal limits fuel depth t env) (normal limits' fuel' depth t env)

theorem head_app (h : Comparison limits limits' related)
    (ihHead : Heads related limits limits' fuel fuel')
    (ihNormal : Normals related limits limits' fuel fuel') {depth : Nat}
    (hd : ¬ limits.maxDepth ≤ depth) (hd' : ¬ limits'.maxDepth ≤ depth) (f a : Term) (env : Env) :
    related (head limits (fuel + 1) depth (.app f a) env)
      (head limits' (fuel' + 1) depth (.app f a) env) := by
  rw [head, head, if_neg hd, if_neg hd']
  apply h.bind (ihHead (depth + 1) f env)
  intro r
  cases r with
  | closure x body home =>
      apply h.bind h.countStep
      intro _
      apply h.bind (h.uncounted (uncounted_tellApplied a x body))
      intro _
      exact ihHead (depth + 1) body _
  | stuck g =>
      apply h.bind (ihNormal (depth + 1) a env)
      intro v
      apply h.bind (h.operate g v env)
      intro r
      cases r with
      | none => exact h.uncounted (uncounted_pure _)
      | some t => exact ihHead (depth + 1) t .empty

theorem heads_succ (h : Comparison limits limits' related)
    (ihHead : Heads related limits limits' fuel fuel')
    (ihNormal : Normals related limits limits' fuel fuel') :
    Heads related limits limits' (fuel + 1) (fuel' + 1) := by
  intro depth t env
  by_cases hd' : limits'.maxDepth ≤ depth
  · rw [head_of_deep hd']
    -- Where both limits are the same, both runs halt here.
    rcases Nat.lt_or_eq_of_le h.depth_le with hlt | heq
    · exact h.deep hlt _
    · rw [head_of_deep (heq ▸ hd'), heq]
      exact h.uncounted (uncounted_throw _)
  have hd : ¬ limits.maxDepth ≤ depth := fun hd => hd' (Nat.le_trans h.depth_le hd)
  cases t with
  | var x =>
      rw [head, head, if_neg hd, if_neg hd']
      cases env.lookup x with
      | none => exact h.uncounted (uncounted_pure _)
      | some binding =>
          cases binding with
          | unresolved => exact h.uncounted (uncounted_pure _)
          | resolved s => exact ihHead (depth + 1) s.term s.home
  | num v =>
      rw [head, head, if_neg hd, if_neg hd']
      exact h.uncounted (uncounted_pure _)
  | lam x body =>
      rw [head, head, if_neg hd, if_neg hd']
      exact h.uncounted (uncounted_pure _)
  | app f a => exact h.head_app ihHead ihNormal hd hd' f a env

theorem normals_succ (h : Comparison limits limits' related)
    (ihHead : Heads related limits limits' fuel fuel')
    (ihNormal : Normals related limits limits' fuel fuel') :
    Normals related limits limits' (fuel + 1) (fuel' + 1) := by
  intro depth t env
  rw [normal, normal]
  apply h.bind (ihHead depth t env)
  intro r
  cases r with
  | closure x body home =>
      apply h.bind (h.uncounted (uncounted_openBinder x body home))
      intro opened
      exact h.bind (ihNormal depth opened.2 _) fun _ => h.uncounted (uncounted_pure _)
  | stuck v => exact h.uncounted (uncounted_pure _)

/-- Runs are related, also if the one on the right may use less recursion, provided that anything is
related to a computation cut for it. -/
theorem reduction (h : Comparison limits limits' related) (hle : fuel' ≤ fuel)
    (hspent : fuel' < fuel → ∀ {α : Type} (x : Reducing α), related x (throw .outOfFuel)) :
    Heads related limits limits' fuel fuel' ∧ Normals related limits limits' fuel fuel' := by
  induction fuel' generalizing fuel with
  | zero =>
      rcases Nat.eq_zero_or_pos fuel with rfl | hpos
      · exact ⟨fun _ _ _ => h.uncounted (uncounted_throw _),
          fun _ _ _ => h.uncounted (uncounted_throw _)⟩
      · exact ⟨fun _ _ _ => hspent hpos _, fun _ _ _ => hspent hpos _⟩
  | succ fuel' ih =>
      obtain ⟨fuel, rfl⟩ : ∃ n, fuel = n + 1 := ⟨fuel - 1, by omega⟩
      obtain ⟨ihHead, ihNormal⟩ := ih (Nat.le_of_succ_le_succ hle)
        fun hlt => hspent (Nat.succ_lt_succ hlt)
      exact ⟨h.heads_succ ihHead ihNormal, h.normals_succ ihHead ihNormal⟩

theorem whole (h : Comparison limits limits' related) (hle : fuel' ≤ fuel)
    (hspent : fuel' < fuel → ∀ {α : Type} (x : Reducing α), related x (throw .outOfFuel))
    (t : Term) (env : Env) : related (whole limits fuel t env) (whole limits' fuel' t env) := by
  rw [Reducing.whole, Reducing.whole]
  apply h.bind ((h.reduction hle hspent).2 0 t env)
  intro value
  refine h.bind (h.uncounted fun _ => rfl) ?_
  intro _
  exact h.uncounted (uncounted_pure value)

end Comparison

section Contractions

/-- Under a limit of `n` contractions, a computation that counts no more of them is the same, and
one that counts more halts at the limit. -/
structure CutAt (n : Nat) (x y : Reducing α) : Prop where
  counts : ∀ tally, tally.steps ≤ (lastTally (x tally)).steps
  same : ∀ tally, (lastTally (x tally)).steps ≤ n → y tally = x tally
  cut : ∀ tally, tally.steps ≤ n → n < (lastTally (x tally)).steps →
    ∃ after, y tally = .error (.error (.stepLimit n)) after

theorem CutAt.of_uncounted (n : Nat) {x : Reducing α} (h : x.Uncounted) : CutAt n x x where
  counts tally := Nat.le_of_eq (h tally).symm
  same _ _ := rfl
  cut tally hn hlt := absurd hn (Nat.not_le_of_lt (h tally ▸ hlt))

theorem CutAt.bind {n : Nat} {x y : Reducing α} {f g : α → Reducing β} (h : CutAt n x y)
    (hf : ∀ a, CutAt n (f a) (g a)) : CutAt n (x >>= f) (y >>= g) := by
  constructor
  case counts =>
    intro tally
    have hx := h.counts tally
    rw [bind_apply]
    cases hr : x tally with
    | error halt after =>
        rw [hr] at hx
        exact hx
    | ok a after =>
        rw [hr] at hx
        exact Nat.le_trans hx ((hf a).counts after)
  case same =>
    intro tally
    have hx := h.same tally
    rw [bind_apply, bind_apply]
    cases hr : x tally with
    | error halt after =>
        rw [hr] at hx
        intro hle
        rw [hx hle]
    | ok a after =>
        rw [hr] at hx
        intro hle
        -- What follows counts no less, so the first part has not met the limit.
        rw [hx (Nat.le_trans ((hf a).counts after) hle)]
        exact (hf a).same after hle
  case cut =>
    intro tally hn
    have hsame := h.same tally
    have hcut := h.cut tally hn
    rw [bind_apply, bind_apply]
    cases hr : x tally with
    | error halt after =>
        rw [hr] at hcut
        intro hlt
        obtain ⟨last, hy⟩ := hcut hlt
        rw [hy]
        exact ⟨last, rfl⟩
    | ok a after =>
        rw [hr] at hsame hcut
        intro hlt
        rcases Nat.lt_or_ge n after.steps with hafter | hafter
        · obtain ⟨last, hy⟩ := hcut hafter
          rw [hy]
          exact ⟨last, rfl⟩
        · rw [hsame hafter]
          exact (hf a).cut after hafter hlt

theorem countStep_cutAt (n depth : Nat) :
    CutAt n (countStep ⟨none, depth⟩) (countStep ⟨some n, depth⟩) := by
  refine ⟨fun tally => ?_, fun tally => ?_, fun tally => ?_⟩
  · rw [countStep_of_none rfl]
    exact Nat.le_succ _
  · rw [countStep_of_none rfl, countStep_of_some rfl]
    intro hle
    exact if_neg (Nat.not_lt_of_le hle)
  · rw [countStep_of_none rfl, countStep_of_some rfl]
    intro _ hlt
    exact ⟨_, if_pos hlt⟩

theorem comparison_cutAt (n depth : Nat) :
    Comparison ⟨none, depth⟩ ⟨some n, depth⟩ (CutAt n) where
  uncounted := .of_uncounted n
  bind := .bind
  countStep := countStep_cutAt n depth
  depth_le := Nat.le_refl depth
  deep hlt := absurd hlt (Nat.lt_irrefl depth)

end Contractions

section Halts

/-- A computation is the same as another, or it comes to this halt. -/
def HaltsOr (halt : Halt) (x y : Reducing α) : Prop :=
  ∀ tally, y tally = x tally ∨ ∃ after, y tally = .error halt after

theorem HaltsOr.refl (halt : Halt) (x : Reducing α) : HaltsOr halt x x :=
  fun _ => .inl rfl

theorem haltsOr_throw (halt : Halt) (x : Reducing α) : HaltsOr halt x (throw halt) :=
  fun tally => .inr ⟨tally, rfl⟩

theorem HaltsOr.bind {halt : Halt} {x y : Reducing α} {f g : α → Reducing β} (h : HaltsOr halt x y)
    (hf : ∀ a, HaltsOr halt (f a) (g a)) : HaltsOr halt (x >>= f) (y >>= g) := by
  intro tally
  rw [bind_apply, bind_apply]
  rcases h tally with hy | ⟨after, hy⟩
  · rw [hy]
    cases x tally with
    | error e after => exact .inl rfl
    | ok a after => exact hf a after
  · rw [hy]
    exact .inr ⟨after, rfl⟩

theorem comparison_depth {maxSteps : Option Nat} {depth depth' : Nat} (hle : depth' ≤ depth) :
    Comparison ⟨maxSteps, depth⟩ ⟨maxSteps, depth'⟩ (HaltsOr (.error (.depthLimit depth'))) where
  uncounted _ := .refl _ _
  bind := .bind
  countStep := .refl _ _
  depth_le := hle
  deep _ := haltsOr_throw _

theorem comparison_fuel (limits : Limits) : Comparison limits limits (HaltsOr .outOfFuel) where
  uncounted _ := .refl _ _
  bind := .bind
  countStep := .refl _ _
  depth_le := Nat.le_refl _
  deep hlt := absurd hlt (Nat.lt_irrefl _)

end Halts

end Reducing

/-- A run that is cut neither for recursion nor for depth. -/
def Outcome.Within (o : Outcome) : Prop :=
  (∀ tally, o ≠ .error .outOfFuel tally) ∧
    ∀ limit tally, o ≠ .error (.error (.depthLimit limit)) tally

theorem Outcome.Within.of_eq_ok {o : Outcome} {v : Term} {tally : Tally} (h : o = .ok v tally) :
    o.Within := by
  rw [h]
  exact ⟨fun _ h => (nomatch h), fun _ _ h => nomatch h⟩

namespace Term

open Reducing (lastTally)

variable (t : Term) (env : Env) (fuel : Nat) {fuel' : Nat}

/-- A limit of contractions cuts a run that counts more of them, and no other. -/
theorem reduceWithin_maxSteps (depth n : Nat) :
    ((lastTally (t.reduceWithin fuel ⟨none, depth⟩ env)).steps ≤ n →
      t.reduceWithin fuel ⟨some n, depth⟩ env = t.reduceWithin fuel ⟨none, depth⟩ env) ∧
    (n < (lastTally (t.reduceWithin fuel ⟨none, depth⟩ env)).steps → ∃ tally,
      t.reduceWithin fuel ⟨some n, depth⟩ env = .error (.error (.stepLimit n)) tally) := by
  have hrun := (Reducing.comparison_cutAt n depth).whole (Nat.le_refl fuel)
    (fun hlt => absurd hlt (Nat.lt_irrefl fuel)) t env
  exact ⟨hrun.same {}, hrun.cut {} (Nat.zero_le n)⟩

/-- A lesser depth changes nothing, unless the run meets it. -/
theorem reduceWithin_maxDepth (maxSteps : Option Nat) {depth depth' : Nat} (hle : depth' ≤ depth) :
    t.reduceWithin fuel ⟨maxSteps, depth'⟩ env = t.reduceWithin fuel ⟨maxSteps, depth⟩ env ∨
      ∃ tally, t.reduceWithin fuel ⟨maxSteps, depth'⟩ env =
        .error (.error (.depthLimit depth')) tally :=
  (Reducing.comparison_depth hle).whole (Nat.le_refl fuel)
    (fun hlt => absurd hlt (Nat.lt_irrefl fuel)) t env {}

variable {t env fuel}

/-- All runs that are not cut for recursion are the same. -/
theorem reduceWithin_fuel {limits : Limits}
    (h : ∀ tally, t.reduceWithin fuel limits env ≠ .error .outOfFuel tally)
    (h' : ∀ tally, t.reduceWithin fuel' limits env ≠ .error .outOfFuel tally) :
    t.reduceWithin fuel limits env = t.reduceWithin fuel' limits env := by
  have hmore : ∀ {less more : Nat}, less ≤ more →
      (∀ tally, t.reduceWithin less limits env ≠ .error .outOfFuel tally) →
      t.reduceWithin less limits env = t.reduceWithin more limits env := by
    intro less more hle hless
    have hrun := (Reducing.comparison_fuel limits).whole hle
      (fun _ => Reducing.haltsOr_throw _) t env {}
    exact hrun.resolve_right fun ⟨tally, hspent⟩ => hless tally hspent
  rcases Nat.le_total fuel fuel' with hle | hle
  · exact hmore hle h
  · exact (hmore hle h').symm

/-- A recursion that is enough for a run without a limit of contractions, and with depth enough, is
enough under all limits. -/
theorem ne_outOfFuel_of_within {depth : Nat}
    (h : (t.reduceWithin fuel ⟨none, depth⟩ env).Within) (limits : Limits) (tally : Tally) :
    t.reduceWithin fuel limits env ≠ .error .outOfFuel tally := by
  obtain ⟨maxSteps, depth'⟩ := limits
  -- Without a limit of contractions, the run is the same at every depth or is cut for depth.
  have hfree : ∀ tally, t.reduceWithin fuel ⟨none, depth'⟩ env ≠ .error .outOfFuel tally := by
    intro tally hspent
    rcases Nat.le_total depth depth' with hle | hle
    · rcases t.reduceWithin_maxDepth env fuel none hle with hsame | ⟨_, hcut⟩
      · exact h.1 tally (hsame.trans hspent)
      · exact h.2 _ _ hcut
    · rcases t.reduceWithin_maxDepth env fuel none hle with hsame | ⟨_, hcut⟩
      · exact h.1 tally (hsame.symm.trans hspent)
      · exact nomatch hcut.symm.trans hspent
  cases maxSteps with
  | none => exact hfree tally
  | some n =>
      intro hspent
      obtain ⟨hsame, hcut⟩ := t.reduceWithin_maxSteps env fuel depth' n
      rcases Nat.lt_or_ge n (lastTally (t.reduceWithin fuel ⟨none, depth'⟩ env)).steps with
        hlt | hle
      · obtain ⟨_, hr⟩ := hcut hlt
        exact nomatch hr.symm.trans hspent
      · exact hfree tally ((hsame hle).symm.trans hspent)

/-- The least depth at which a run with any recursion is not cut is the threshold of all of them. -/
theorem exists_depth_threshold (t : Term) (env : Env) (maxSteps : Option Nat) :
    ∃ threshold, ∀ fuel depth, (t.reduceWithin fuel ⟨maxSteps, depth⟩ env).Within →
      threshold ≤ depth ∧
        (∀ depth', threshold ≤ depth' →
          t.reduceWithin fuel ⟨maxSteps, depth'⟩ env = t.reduceWithin fuel ⟨maxSteps, depth⟩ env) ∧
        ∀ depth' < threshold, ∃ tally, t.reduceWithin fuel ⟨maxSteps, depth'⟩ env =
          .error (.error (.depthLimit depth')) tally := by
  classical
  by_cases hex : ∃ depth fuel, (t.reduceWithin fuel ⟨maxSteps, depth⟩ env).Within
  case neg => exact ⟨0, fun fuel depth hwithin => absurd ⟨depth, fuel, hwithin⟩ hex⟩
  obtain ⟨fuel₀, hleast⟩ := Nat.find_spec hex
  refine ⟨Nat.find hex, ?_⟩
  intro fuel depth hwithin
  have hle : Nat.find hex ≤ depth := Nat.find_min' hex ⟨fuel, hwithin⟩
  -- At the threshold the run is not cut with this recursion either, being the one that is not cut.
  have hthreshold : ∀ limit tally, t.reduceWithin fuel ⟨maxSteps, Nat.find hex⟩ env ≠
      .error (.error (.depthLimit limit)) tally := by
    intro limit tally hcut
    have hsame := reduceWithin_fuel (fun _ h => nomatch hcut.symm.trans h) hleast.1
    exact hleast.2 limit tally (hsame.symm.trans hcut)
  have hfrom : ∀ depth', Nat.find hex ≤ depth' →
      t.reduceWithin fuel ⟨maxSteps, depth'⟩ env =
        t.reduceWithin fuel ⟨maxSteps, Nat.find hex⟩ env := by
    intro depth' hle'
    rcases t.reduceWithin_maxDepth env fuel maxSteps hle' with hsame | ⟨tally, hcut⟩
    · exact hsame.symm
    · exact absurd hcut (hthreshold _ tally)
  refine ⟨hle, fun depth' hle' => (hfrom depth' hle').trans (hfrom depth hle).symm, ?_⟩
  intro depth' hlt
  rcases t.reduceWithin_maxDepth env fuel maxSteps (Nat.le_of_lt (Nat.lt_of_lt_of_le hlt hle)) with
    hsame | hcut
  · exact absurd ⟨fuel, hsame ▸ hwithin⟩ (Nat.find_min hex hlt)
  · exact hcut

/-- Limits only cut a run, each at an exact threshold. A run that counts `k` contractions without a
limit of them goes the same way under each limit from `k` on, and halts at the limit under each
lesser one. And there is a depth, the same for all runs that are not cut for depth or recursion,
from which on the run goes the same way, and below which it halts at the limit of depth. -/
theorem limits_cut_at_threshold (t : Term) (env : Env) :
    (∀ fuel depth n,
      ((lastTally (t.reduceWithin fuel ⟨none, depth⟩ env)).steps ≤ n →
        t.reduceWithin fuel ⟨some n, depth⟩ env = t.reduceWithin fuel ⟨none, depth⟩ env) ∧
      (n < (lastTally (t.reduceWithin fuel ⟨none, depth⟩ env)).steps → ∃ tally,
        t.reduceWithin fuel ⟨some n, depth⟩ env = .error (.error (.stepLimit n)) tally)) ∧
    ∀ maxSteps, ∃ threshold, ∀ fuel depth,
      (t.reduceWithin fuel ⟨maxSteps, depth⟩ env).Within →
        threshold ≤ depth ∧
          (∀ depth', threshold ≤ depth' → t.reduceWithin fuel ⟨maxSteps, depth'⟩ env =
            t.reduceWithin fuel ⟨maxSteps, depth⟩ env) ∧
          ∀ depth' < threshold, ∃ tally, t.reduceWithin fuel ⟨maxSteps, depth'⟩ env =
            .error (.error (.depthLimit depth')) tally :=
  ⟨fun fuel depth n => t.reduceWithin_maxSteps env fuel depth n,
    fun maxSteps => t.exists_depth_threshold env maxSteps⟩

/-- A function applied to `+` with one operand, which supplies the other: two contractions, five
head reductions deep. -/
def delayedSum : Term :=
  .app (.lam "x" (.app (.var "x") (.num 1))) (.app (.var "+") (.num 2))

theorem limits_cut_delayedSum :
    (∃ tally, delayedSum.reduceWithin 9 ⟨none, 5⟩ .empty = .ok (.num (2 + 1)) tally ∧
      tally.steps = 2) ∧
    delayedSum.reduceWithin 9 ⟨some 2, 5⟩ .empty = delayedSum.reduceWithin 9 ⟨none, 5⟩ .empty ∧
    (∃ tally, delayedSum.reduceWithin 9 ⟨some 1, 5⟩ .empty =
      .error (.error (.stepLimit 1)) tally) ∧
    (∀ depth, 5 ≤ depth → delayedSum.reduceWithin 9 ⟨none, depth⟩ .empty =
      delayedSum.reduceWithin 9 ⟨none, 5⟩ .empty) ∧
    ∀ depth < 5, ∃ tally, delayedSum.reduceWithin 9 ⟨none, depth⟩ .empty =
      .error (.error (.depthLimit depth)) tally := by
  have hfive : delayedSum.reduceWithin 9 ⟨none, 5⟩ .empty = .ok (.num (2 + 1)) _ := rfl
  have hfour : delayedSum.reduceWithin 9 ⟨none, 4⟩ .empty =
      .error (.error (.depthLimit 4)) _ := rfl
  obtain ⟨hsteps, hdepth⟩ := limits_cut_at_threshold delayedSum .empty
  obtain ⟨threshold, hthreshold⟩ := hdepth none
  obtain ⟨hle, hfrom, hbelow⟩ := hthreshold 9 5 (.of_eq_ok hfive)
  obtain rfl : threshold = 5 := by
    refine Nat.le_antisymm hle (Nat.lt_of_not_le fun hless => ?_)
    exact nomatch hfour.symm.trans (hfrom 4 hless)
  exact ⟨⟨_, hfive, rfl⟩, (hsteps 9 5 2).1 (Nat.le_refl 2), (hsteps 9 5 1).2 (Nat.lt_succ_self 1),
    hfrom, hbelow⟩

end Term

end NormalOrder
