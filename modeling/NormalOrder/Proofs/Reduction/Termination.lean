/- A limit of contractions is enough to end every reduction.

Between two contractions the reducer goes from a name to a suspension, which may hold a larger term,
and under binders, which it may rename. Its measure is the size that a term would have with all
suspensions put in place, and one more for each name that is followed: every call is for less of it.
A contraction may let it grow, but to no more than its product with its successor. So the room that
a reduction needs follows from the contractions that are left and the measure, whatever the limit of
depth. -/
import Mathlib.Order.Monotone.Basic
import NormalOrder.Proofs.Reduction.Invariant
import NormalOrder.Proofs.Reduction.Limits
import NormalOrder.Proofs.Term.Rebind

namespace NormalOrder

section Weight

/-- The nodes of a term in which names stand for so many nodes. -/
def Term.weight (valued : Name → Nat) : Term → Nat
  | var x => valued x + 1
  | lam x b => b.weight (Function.update valued x 0) + 1
  | app f a => f.weight valued + a.weight valued + 1
  | num _ => 1

/-- The nodes that a name stands for: none, unless it is resolved. -/
def Frames.weight : Frames → Name → Nat
  | empty => fun _ => 0
  | unresolved x outer => Function.update outer.weight x 0
  | resolved x t home _ outer => Function.update outer.weight x (t.weight home.weight)

/-- The nodes of a term with all that its names stand for put in place. -/
def Env.weight (env : Env) (t : Term) : Nat :=
  t.weight env.frames.weight

namespace Term

variable {t b : Term} {x y : Name} {valued valued' : Name → Nat}

theorem weight_pos (valued : Name → Nat) (t : Term) : 0 < t.weight valued := by
  cases t <;> exact Nat.succ_pos _

theorem weight_congr (h : ∀ x ∈ t.freeNames, valued x = valued' x) :
    t.weight valued = t.weight valued' := by
  induction t generalizing valued valued' with
  | var x => rw [weight, weight, h x (List.mem_singleton.mpr rfl)]
  | lam x b ih =>
      rw [weight, weight, ih]
      intro y hy
      by_cases hyx : y = x
      · rw [hyx, Function.update_self, Function.update_self]
      · rw [Function.update_of_ne hyx, Function.update_of_ne hyx]
        exact h y (Names.mem_without.mpr ⟨hy, hyx⟩)
  | app f a hf ha =>
      rw [weight, weight, hf fun y hy => h y (Names.mem_union.mpr (.inl hy)),
        ha fun y hy => h y (Names.mem_union.mpr (.inr hy))]
  | num v => rfl

/-- A renamed term weighs as much as the term did with the new name's weight for the old name. -/
theorem weight_rename (hy : y ∉ b.names) :
    (b.rename x y).weight valued = b.weight (Function.update valued x (valued y)) := by
  induction b generalizing valued with
  | var z =>
      by_cases hz : z = x
      · rw [rename, if_pos hz, weight, weight, hz, Function.update_self]
      · rw [rename, if_neg hz, weight, weight, Function.update_of_ne hz]
  | lam z b ih =>
      rw [names, Names.mem_union, List.mem_singleton, not_or] at hy
      by_cases hz : z = x
      · rw [rename, if_pos hz, weight, weight, hz, Function.update_idem]
      · rw [rename, if_neg hz, weight, weight, ih hy.2, Function.update_of_ne hy.1,
          Function.update_comm (Ne.symm hz)]
  | app f a hf ha =>
      rw [names, Names.mem_union, not_or] at hy
      rw [rename, weight, weight, hf hy.1, ha hy.2]
  | num v => rfl

/-- Where each name stands for at most `m` nodes more, each node makes at most `m + 1`. -/
theorem weight_le_mul {m : Nat} (h : ∀ x, valued' x ≤ valued x + m) :
    t.weight valued' ≤ t.weight valued * (m + 1) := by
  induction t generalizing valued valued' with
  | var x =>
      have hx := h x
      rw [weight, weight]
      calc valued' x + 1
          ≤ valued x + 1 * (m + 1) := by omega
        _ ≤ valued x * (m + 1) + 1 * (m + 1) :=
          Nat.add_le_add_right (Nat.le_mul_of_pos_right _ (Nat.succ_pos m)) _
        _ = (valued x + 1) * (m + 1) := (Nat.add_mul ..).symm
  | lam x b ih =>
      have hb : b.weight (Function.update valued' x 0) ≤
          b.weight (Function.update valued x 0) * (m + 1) := by
        apply ih
        intro y
        by_cases hyx : y = x
        · rw [hyx, Function.update_self]
          exact Nat.zero_le _
        · rw [Function.update_of_ne hyx, Function.update_of_ne hyx]
          exact h y
      rw [weight, weight, Nat.add_mul]
      omega
  | app f a hf ha =>
      have hf := hf h
      have ha := ha h
      rw [weight, weight, Nat.add_mul, Nat.add_mul]
      omega
  | num v =>
      rw [weight, weight]
      omega

end Term

namespace Env

variable {env home : Env} {x : Name} {body : Term}

theorem weight_lam (env : Env) (x : Name) (body : Term) :
    env.weight (.lam x body) = (env.unresolved x).weight body + 1 :=
  rfl

theorem weight_app (env : Env) (f a : Term) :
    env.weight (.app f a) = env.weight f + env.weight a + 1 :=
  rfl

theorem weight_pos (env : Env) (t : Term) : 0 < env.weight t :=
  t.weight_pos _

/-- A name weighs one more than the suspension to which it is followed. -/
theorem weight_var_of_lookup {s : Suspension} (h : env.lookup x = some (.resolved s)) :
    env.weight (.var x) = s.home.weight s.term + 1 := by
  suffices hx : env.frames.weight x = s.home.weight s.term by rw [weight, Term.weight, hx]
  induction env using Env.induction with
  | empty => cases h
  | unresolved env y ih =>
      rw [lookup_unresolved] at h
      split at h
      · cases h
      · rename_i hy
        exact (Function.update_of_ne (Ne.symm hy) _ _).trans (ih h)
  | resolved env y r ih _ =>
      rw [lookup_resolved] at h
      split at h
      · rename_i hy
        cases h
        rw [← hy]
        exact Function.update_self ..
      · rename_i hy
        exact (Function.update_of_ne (Ne.symm hy) _ _).trans (ih h)

/-- The weight to which a body grows when an argument is put for its parameter. -/
theorem weight_resolved_le (env home : Env) (x : Name) (a body : Term) :
    (home.resolved x (env.suspend a)).weight body ≤
      (home.unresolved x).weight body * (env.weight a + 1) := by
  apply Term.weight_le_mul
  intro y
  change Function.update home.frames.weight x (env.weight a) y ≤
    Function.update home.frames.weight x 0 y + env.weight a
  by_cases hy : y = x
  · rw [hy, Function.update_self, Function.update_self, Nat.zero_add]
  · rw [Function.update_of_ne hy, Function.update_of_ne hy]
    exact Nat.le_add_right ..

/-- A body weighs the same under whichever binder is chosen for it. -/
theorem Opens.weight_eq {opened : Name × Term} (h : home.Opens x body opened) :
    (home.unresolved opened.1).weight opened.2 = (home.unresolved x).weight body := by
  cases h with
  | kept _ => rfl
  | renamed _ hr =>
      obtain ⟨new, hfresh, rfl⟩ := Term.rebind_eq_ok hr
      have hnew := (not_or.mp fun h => Name.fresh_not_mem hfresh (Names.mem_union.mpr h)).2
      change (body.rename x new).weight (Function.update home.frames.weight new 0) =
        body.weight (Function.update home.frames.weight x 0)
      rw [Term.weight_rename hnew, Function.update_self]
      apply Term.weight_congr
      intro z hz
      have hzn : z ≠ new := fun e => hnew (body.freeNames_subset_names (e ▸ hz))
      by_cases hzx : z = x
      · rw [hzx, Function.update_self, Function.update_self]
      · rw [Function.update_of_ne hzx, Function.update_of_ne hzn, Function.update_of_ne hzx]

end Env

/-- What an operator gives is a number or a truth value, of three nodes. -/
theorem Operator.weight_apply {op : Operator} {left right : Float} {r : Term}
    (h : op.apply left right = .ok r) : Env.empty.weight r ≤ 3 := by
  have hnum : ∀ v, Env.empty.weight (.num v) ≤ 3 := fun v => Nat.le_add_left 1 2
  cases op with
  | add => cases h; exact hnum _
  | sub => cases h; exact hnum _
  | mul => cases h; exact hnum _
  | div =>
      rw [apply] at h
      split at h <;> cases h
      exact hnum _
  | eq =>
      cases h
      cases left == right <;> decide

end Weight

namespace Reducing

section Room

/-- How deep the recursion goes, at most, for something of this weight with so many contractions
left. A call takes two, as a full reduction begins with a head reduction. -/
def room : (left weight : Nat) → Nat
  | 0, w => 2 * w
  | left + 1, w => 2 * w + room left (w * (w + 1))

variable {left left' w w' : Nat}

theorem room_mono_weight (left : Nat) (h : w ≤ w') : room left w ≤ room left w' := by
  induction left generalizing w w' with
  | zero => exact Nat.mul_le_mul_left 2 h
  | succ left ih =>
      rw [room, room]
      exact Nat.add_le_add (Nat.mul_le_mul_left 2 h) (ih (Nat.mul_le_mul h (Nat.succ_le_succ h)))

theorem room_le_succ (left w : Nat) : room left w ≤ room (left + 1) w := by
  induction left generalizing w with
  | zero => exact Nat.le_add_right ..
  | succ left ih =>
      rw [room, room]
      exact Nat.add_le_add_left (ih _) _

theorem room_mono_left (h : left ≤ left') (w : Nat) : room left w ≤ room left' w :=
  monotone_nat_of_le_succ (fun left => room_le_succ left w) h

/-- A lesser weight needs less room, by two calls. -/
theorem room_lt (left : Nat) (h : w < w') : room left w + 2 ≤ room left w' := by
  cases left with
  | zero =>
      rw [room, room]
      omega
  | succ left =>
      have hmono := room_mono_weight left (Nat.mul_le_mul h.le (Nat.add_le_add_right h.le 1))
      rw [room, room]
      omega

/-- Whatever is reduced needs room for two calls. -/
theorem two_le_room (left : Nat) (env : Env) (t : Term) : 2 ≤ room left (env.weight t) :=
  Nat.le_trans (Nat.le_add_left ..) (room_lt left (env.weight_pos t))

end Room

section Ends

variable {α β : Type} {limit left : Nat}

/-- With so many contractions left under the limit, a computation is not cut off, and what it returns
is as it should be for the contractions that are then left. -/
def Ends (limit left : Nat) (returned : Nat → α → Prop) (x : Reducing α) : Prop :=
  ∀ tally, tally.steps + left = limit → match x tally with
    | .ok a after => ∃ left' ≤ left, after.steps + left' = limit ∧ returned left' a
    | .error halt _ => halt ≠ .outOfFuel

variable {returned : Nat → α → Prop} {after : Nat → β → Prop}

theorem Ends.pure {a : α} (h : returned left a) :
    Ends limit left returned (Pure.pure a : Reducing α) :=
  fun _ hleft => ⟨left, Nat.le_refl _, hleft, h⟩

theorem Ends.throw {halt : Halt} (h : halt ≠ .outOfFuel) :
    Ends limit left returned (MonadExcept.throw halt : Reducing α) :=
  fun _ _ => h

theorem Ends.bind {x : Reducing α} {f : α → Reducing β} (h : Ends limit left returned x)
    (hf : ∀ left' ≤ left, ∀ a, returned left' a → Ends limit left' after (f a)) :
    Ends limit left after (x >>= f) := by
  intro tally hleft
  have hx := h tally hleft
  rw [bind_apply]
  cases hr : x tally with
  | error halt mid =>
      rw [hr] at hx
      exact hx
  | ok a mid =>
      rw [hr] at hx
      obtain ⟨left', hle, hsteps, ha⟩ := hx
      have hfa := hf left' hle a ha mid hsteps
      dsimp only
      cases hfr : f a mid with
      | error halt last =>
          rw [hfr] at hfa
          exact hfa
      | ok b last =>
          rw [hfr] at hfa
          obtain ⟨left'', hle', hlast, hb⟩ := hfa
          exact ⟨left'', Nat.le_trans hle' hle, hlast, hb⟩

theorem Ends.imp {x : Reducing α} {returned' : Nat → α → Prop} (h : Ends limit left returned x)
    (himp : ∀ left' ≤ left, ∀ a, returned left' a → returned' left' a) :
    Ends limit left returned' x := by
  intro tally hleft
  have hx := h tally hleft
  cases hr : x tally with
  | error halt mid =>
      rw [hr] at hx
      exact hx
  | ok a mid =>
      rw [hr] at hx
      obtain ⟨left', hle, hsteps, ha⟩ := hx
      exact ⟨left', hle, hsteps, himp left' hle a ha⟩

theorem countStep_ends (maxDepth : Nat) :
    Ends limit left (fun left' _ => left' < left) (countStep ⟨some limit, maxDepth⟩) := by
  intro tally hleft
  rw [countStep_of_some rfl]
  by_cases hlimit : limit < tally.steps + 1
  · rw [if_pos hlimit]
    exact Halt.noConfusion
  · rw [if_neg hlimit]
    exact ⟨left - 1, Nat.sub_le .., by dsimp only; omega, by omega⟩

theorem tellApplied_ends (argument : Term) (param : Name) (body : Term) :
    Ends limit left (fun _ _ => True) (tellApplied argument param body) :=
  fun _ hleft => ⟨left, Nat.le_refl _, hleft, trivial⟩

theorem openBinder_ends (x : Name) (body : Term) (home : Env) :
    Ends limit left (fun _ => home.Opens x body) (openBinder x body home) := by
  rw [openBinder]
  split
  next hx =>
    cases hr : body.rebind x (home.broughtUnder x body) with
    | error e => exact .throw (by cases e <;> exact Halt.noConfusion)
    | ok opened => exact fun _ hleft => ⟨left, Nat.le_refl _, hleft, .renamed hx hr⟩
  next hx => exact .pure (.kept hx)

/-- What an operator gives weighs three at most, and is one contraction. -/
theorem operate_ends (maxDepth : Nat) (g v : Term) (env : Env) :
    Ends limit left (fun left' r => ∀ t, r = some t → left' < left ∧ Env.empty.weight t ≤ 3)
      (operate ⟨some limit, maxDepth⟩ g v env) := by
  rw [operate]
  cases hc : Operator.contract? g v env with
  | error e => exact .throw Halt.noConfusion
  | ok result =>
      cases result with
      | none =>
          refine .pure fun t h => ?_
          cases h
      | some t =>
          obtain ⟨op, a, b, happly⟩ := Operator.apply_of_contract? hc
          refine (countStep_ends maxDepth).bind fun left' _ _ hlt => .pure ?_
          rintro _ ⟨⟩
          exact ⟨hlt, Operator.weight_apply happly⟩

end Ends

section Run

variable {limit maxDepth fuel : Nat}

/-- An abstraction that head reduction returns needs no more room than this. -/
def Fits (bound left : Nat) : Head → Prop
  | .closure x body home => room left (home.weight (.lam x body)) ≤ bound
  | .stuck _ => True

/-- Head reductions end with this much recursion, if it has room for what they reduce. -/
def HeadEnds (limit maxDepth fuel : Nat) : Prop :=
  ∀ left depth t env, room left (env.weight t) ≤ fuel + 1 →
    Ends limit left (Fits (room left (env.weight t))) (head ⟨some limit, maxDepth⟩ fuel depth t env)

def NormalEnds (limit maxDepth fuel : Nat) : Prop :=
  ∀ left depth t env, room left (env.weight t) ≤ fuel →
    Ends limit left (fun _ _ => True) (normal ⟨some limit, maxDepth⟩ fuel depth t env)

theorem Fits.mono {bound bound' left : Nat} {r : Head} (h : Fits bound left r)
    (hle : bound ≤ bound') : Fits bound' left r := by
  cases r with
  | closure x body home => exact Nat.le_trans h hle
  | stuck t => trivial

/-- Room for an abstraction and an argument, before a contraction, is room for the body with the
argument in it, after the contraction. -/
theorem room_enter {left bound : Nat} {x : Name} {body a : Term} {env home : Env}
    (hclosure : room (left + 1) (home.weight (.lam x body)) ≤ bound)
    (ha : room (left + 1) (env.weight a) ≤ bound) :
    room left ((home.resolved x (env.suspend a)).weight body) ≤ bound := by
  have hbody : (home.unresolved x).weight body ≤ home.weight (.lam x body) := Nat.le_succ _
  have hgrown := Env.weight_resolved_le env home x a body
  generalize home.weight (.lam x body) = w at hclosure hbody
  generalize env.weight a = m at ha hgrown
  -- The larger of the two weights bounds the product.
  have hroom : room (left + 1) (max w m) ≤ bound := by
    rcases Nat.le_total w m with h | h
    · rwa [Nat.max_eq_right h]
    · rwa [Nat.max_eq_left h]
  refine Nat.le_trans (room_mono_weight left (Nat.le_trans hgrown ?_))
    (Nat.le_trans (Nat.le_add_left ..) hroom)
  exact Nat.mul_le_mul (Nat.le_trans hbody (Nat.le_max_left ..))
    (Nat.succ_le_succ (Nat.le_max_right ..))

/-- A contraction leaves room for the result of an operator, which is smaller than most terms. -/
theorem room_operate {left left' w w' : Nat} (hlt : left' < left) (hw' : w' ≤ 3) (hw : 3 ≤ w) :
    room left' w' + 2 ≤ room left w := by
  have hsquare : w' ≤ w * (w + 1) :=
    Nat.le_trans (Nat.le_trans hw' hw) (Nat.le_mul_of_pos_right w (Nat.succ_pos w))
  have hgrown := room_mono_weight left' hsquare
  have hmore := room_mono_left (Nat.succ_le_of_lt hlt) w
  rw [Nat.succ_eq_add_one, room] at hmore
  omega

theorem head_app_ends (ihHead : HeadEnds limit maxDepth fuel)
    (ihNormal : NormalEnds limit maxDepth fuel) {left depth : Nat} {f a : Term} {env : Env}
    (hd : ¬ maxDepth ≤ depth) (hroom : room left (env.weight (.app f a)) ≤ fuel + 2) :
    Ends limit left (Fits (room left (env.weight (.app f a))))
      (head ⟨some limit, maxDepth⟩ (fuel + 1) depth (.app f a) env) := by
  have hfpos := env.weight_pos f
  have hapos := env.weight_pos a
  have hw := env.weight_app f a
  have hf := room_lt left (by omega : env.weight f < env.weight (.app f a))
  have ha := room_lt left (by omega : env.weight a < env.weight (.app f a))
  rw [head, if_neg hd]
  apply (ihHead left (depth + 1) f env (by omega)).bind
  intro left₁ hle₁ r hr
  cases r with
  | closure x body home =>
      apply (countStep_ends maxDepth).bind
      intro left₂ _ _ hlt
      apply (tellApplied_ends a x body).bind
      intro left₃ hle₃ _ _
      have hless : left₃ + 1 ≤ left₁ := by omega
      have hbody : room left₃ ((home.resolved x (env.suspend a)).weight body) ≤
          room left (env.weight (.app f a)) - 2 := by
        apply room_enter
        · exact Nat.le_trans (room_mono_left hless _) (Nat.le_trans hr (by omega))
        · exact Nat.le_trans (room_mono_left (Nat.le_trans hless hle₁) _) (by omega)
      exact (ihHead left₃ (depth + 1) body _ (by omega)).imp fun _ _ _ h => h.mono (by omega)
  | stuck g =>
      have hmore := room_mono_left hle₁ (env.weight a)
      apply (ihNormal left₁ (depth + 1) a env (by omega)).bind
      intro left₂ hle₂ v _
      apply (operate_ends maxDepth g v env).bind
      intro left₃ hle₃ r hr
      cases r with
      | none => exact .pure trivial
      | some t =>
          obtain ⟨hlt, ht⟩ := hr t rfl
          have hresult := room_operate (by omega : left₃ < left) ht
            (by omega : 3 ≤ env.weight (.app f a))
          exact (ihHead left₃ (depth + 1) t .empty (by omega)).imp fun _ _ _ h => h.mono (by omega)

theorem HeadEnds.succ (ihHead : HeadEnds limit maxDepth fuel)
    (ihNormal : NormalEnds limit maxDepth fuel) : HeadEnds limit maxDepth (fuel + 1) := by
  intro left depth t env hroom
  by_cases hd : maxDepth ≤ depth
  · rw [head_of_deep hd]
    exact .throw Halt.noConfusion
  cases t with
  | var x =>
      rw [head, if_neg hd]
      split
      next s hs =>
        have hless := room_lt left (Nat.lt_of_lt_of_eq (Nat.lt_succ_self _)
          (Env.weight_var_of_lookup hs).symm)
        exact (ihHead left (depth + 1) s.term s.home (by omega)).imp
          fun _ _ _ h => h.mono (by omega)
      next => exact .pure trivial
  | num v =>
      rw [head, if_neg hd]
      exact .pure trivial
  | lam x body =>
      rw [head, if_neg hd]
      exact .pure (Nat.le_refl _)
  | app f a => exact head_app_ends ihHead ihNormal hd hroom

theorem NormalEnds.succ (ihHead : HeadEnds limit maxDepth fuel)
    (ihNormal : NormalEnds limit maxDepth fuel) : NormalEnds limit maxDepth (fuel + 1) := by
  intro left depth t env hroom
  rw [normal]
  apply (ihHead left depth t env hroom).bind
  intro left₁ _ r hr
  cases r with
  | closure x body home =>
      apply (openBinder_ends x body home).bind
      intro left₂ hle₂ opened ho
      have hbody : room left₂ ((home.unresolved opened.1).weight opened.2) ≤ fuel := by
        have hless := room_lt left₁ (Nat.lt_of_lt_of_eq (Nat.lt_succ_self _)
          (home.weight_lam x body).symm)
        have hmore := room_mono_left hle₂ ((home.unresolved x).weight body)
        have hclosure : room left₁ (home.weight (.lam x body)) ≤ room left (env.weight t) := hr
        rw [ho.weight_eq]
        omega
      exact (ihNormal left₂ depth opened.2 _ hbody).bind fun _ _ _ _ => .pure trivial
  | stuck v => exact .pure trivial

/-- Reductions end with as much recursion as there is room for. -/
theorem reduction_ends (limit maxDepth fuel : Nat) :
    HeadEnds limit maxDepth fuel ∧ NormalEnds limit maxDepth fuel := by
  induction fuel with
  | zero =>
      constructor
      · intro left depth t env hroom
        exact absurd (Nat.le_trans (two_le_room left env t) hroom) (by decide)
      · intro left depth t env hroom
        exact absurd (Nat.le_trans (two_le_room left env t) hroom) (by decide)
  | succ fuel ih =>
      obtain ⟨ihHead, ihNormal⟩ := ih
      exact ⟨ihHead.succ ihNormal, .succ ihHead ihNormal⟩

theorem whole_ends {limit maxDepth fuel : Nat} {t : Term} {env : Env}
    (hroom : room limit (env.weight t) ≤ fuel) :
    Ends limit limit (fun _ _ => True) (whole ⟨some limit, maxDepth⟩ fuel t env) := by
  apply ((reduction_ends limit maxDepth fuel).2 limit 0 t env hroom).bind
  intro left _ value _
  exact fun _ hleft => ⟨left, Nat.le_refl _, hleft, trivial⟩

end Run

end Reducing

namespace Term

theorem reduceWithin_ne_outOfFuel {t : Term} {env : Env} {n fuel : Nat}
    (hroom : Reducing.room n (env.weight t) ≤ fuel) (maxDepth : Nat) (tally : Tally) :
    t.reduceWithin fuel ⟨some n, maxDepth⟩ env ≠ .error .outOfFuel tally := by
  intro hrun
  have hwhole : Reducing.Ends n n (fun _ _ => True)
      (Reducing.whole ⟨some n, maxDepth⟩ fuel t env) := Reducing.whole_ends hroom
  have hends := hwhole {} (Nat.zero_add n)
  rw [reduceWithin] at hrun
  rw [hrun] at hends
  exact hends rfl

/-- A limit of contractions is enough to end every reduction, however great the limit of depth: with
a value, with an error, or at a binder that has no other name. The recursion is nowhere deeper than
`nesting`, which depends on the term, its environment and the contractions allowed, and as a call
makes no more than three others, the calls are finitely many. Where more recursion is allowed, it is
not used. -/
theorem reduceWithin_ends (t : Term) (env : Env) (n : Nat) :
    ∃ nesting, ∀ maxDepth, ∃ outcome : Outcome,
      (∀ tally, outcome ≠ .error .outOfFuel tally) ∧
      ∀ fuel, nesting ≤ fuel → t.reduceWithin fuel ⟨some n, maxDepth⟩ env = outcome := by
  refine ⟨Reducing.room n (env.weight t), ?_⟩
  intro maxDepth
  have hends := reduceWithin_ne_outOfFuel (Nat.le_refl (Reducing.room n (env.weight t))) maxDepth
  refine ⟨_, hends, ?_⟩
  intro fuel hfuel
  exact reduceWithin_fuel (reduceWithin_ne_outOfFuel hfuel maxDepth) hends

/-- A term that contracts to itself. -/
def selfApplied : Term :=
  .app (.lam "x" (.app (.var "x") (.var "x"))) (.lam "x" (.app (.var "x") (.var "x")))

theorem reduceWithin_ends_selfApplied :
    ∃ nesting, ∀ fuel, nesting ≤ fuel → ∃ tally,
      selfApplied.reduceWithin fuel ⟨some 3, 1000000000⟩ .empty =
        .error (.error (.stepLimit 3)) tally := by
  obtain ⟨nesting, hends⟩ := reduceWithin_ends selfApplied .empty 3
  obtain ⟨outcome, hended, hsame⟩ := hends 1000000000
  have hrun : selfApplied.reduceWithin 12 ⟨some 3, 1000000000⟩ .empty =
      .error (.error (.stepLimit 3)) _ := rfl
  refine ⟨nesting, fun fuel hfuel => ⟨_, Eq.trans (reduceWithin_fuel ?_ ?_) hrun⟩⟩
  · rw [hsame fuel hfuel]
    exact hended
  · exact fun _ h => nomatch hrun.symm.trans h

end Term

end NormalOrder
