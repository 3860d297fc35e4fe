/- Computations of the reducer, and what holds of all they return and of how they halt. -/
import NormalOrder.Proofs.Reduction.Rule

namespace NormalOrder.Reducing

theorem bind_apply {α β : Type} (x : Reducing α) (f : α → Reducing β) (tally : Tally) :
    (x >>= f) tally = match x tally with
      | .ok a after => f a after
      | .error halt after => .error halt after := by
  change EStateM.bind x f tally = _
  rw [EStateM.bind]
  cases x tally <;> rfl

/-- What a computation returns, and how it may halt. -/
def Ensures {α : Type} (returned : α → Prop) (halted : Halt → Prop) (x : Reducing α) : Prop :=
  ∀ tally, match x tally with
    | .ok a _ => returned a
    | .error halt _ => halted halt

section Ensures

variable {α β : Type} {returned : α → Prop} {halted : Halt → Prop}

theorem Ensures.pure {a : α} (h : returned a) :
    Ensures returned halted (Pure.pure a : Reducing α) :=
  fun _ => h

theorem Ensures.throw {halt : Halt} (h : halted halt) :
    Ensures returned halted (MonadExcept.throw halt : Reducing α) :=
  fun _ => h

theorem Ensures.of_ok {x : Reducing α} {a : α} {tally after : Tally}
    (h : Ensures returned halted x) (hx : x tally = .ok a after) : returned a := by
  have h := h tally
  rw [hx] at h
  exact h

theorem Ensures.of_error {x : Reducing α} {halt : Halt} {tally last : Tally}
    (h : Ensures returned halted x) (hx : x tally = .error halt last) : halted halt := by
  have h := h tally
  rw [hx] at h
  exact h

theorem Ensures.bind {x : Reducing α} {f : α → Reducing β} {after : β → Prop}
    (hx : Ensures returned halted x) (hf : ∀ a, returned a → Ensures after halted (f a)) :
    Ensures after halted (x >>= f) := by
  intro tally
  have hx := hx tally
  change match EStateM.bind x f tally with
    | .ok b _ => after b
    | .error halt _ => halted halt
  rw [EStateM.bind]
  cases hr : x tally with
  | error halt tally' =>
      rw [hr] at hx
      exact hx
  | ok a tally' =>
      rw [hr] at hx
      exact hf a hx tally'

theorem Ensures.bind_congr {x : Reducing α} {f g : α → Reducing β}
    (hx : Ensures returned halted x) (h : ∀ a, returned a → f a = g a) : x >>= f = x >>= g := by
  funext tally
  have hx := hx tally
  change EStateM.bind x f tally = EStateM.bind x g tally
  rw [EStateM.bind, EStateM.bind]
  cases hr : x tally with
  | error halt tally' => rfl
  | ok a tally' =>
      rw [hr] at hx
      exact congrFun (h a hx) tally'

theorem Ensures.imp {x : Reducing α} {returned' : α → Prop} (h : Ensures returned halted x)
    (himp : ∀ a, returned a → returned' a) : Ensures returned' halted x := by
  intro tally
  have h := h tally
  cases hr : x tally with
  | ok a tally' =>
      rw [hr] at h
      exact himp a h
  | error halt tally' =>
      rw [hr] at h
      exact h

theorem Ensures.of_forall (h : ∀ a, returned a) (x : Reducing α) :
    Ensures returned (fun _ => True) x := by
  intro tally
  split
  · exact h _
  · trivial

theorem Ensures.of_modify (g : Tally → Tally) :
    Ensures (fun _ => True) halted (modify g : Reducing PUnit) :=
  fun _ => trivial

end Ensures

theorem countStep_of_none {limits : Limits} (h : limits.maxSteps = none) (tally : Tally) :
    countStep limits tally = .ok () { tally with steps := tally.steps + 1 } := by
  simp only [countStep, h]
  rfl

theorem countStep_of_some {limits : Limits} {limit : Nat} (h : limits.maxSteps = some limit)
    (tally : Tally) : countStep limits tally =
      if limit < tally.steps + 1 then
        .error (.error (.stepLimit limit)) { tally with steps := tally.steps + 1 }
      else .ok () { tally with steps := tally.steps + 1 } := by
  have hc : countStep limits tally = (if limit < tally.steps + 1 then
      throw (.error (.stepLimit limit)) else pure () : Reducing Unit)
        { tally with steps := tally.steps + 1 } := by
    simp only [countStep, h]
    rfl
  rw [hc]
  split <;> rfl

theorem countStep_ensures (limits : Limits) {halted : Halt → Prop}
    (h : ∀ limit, halted (.error (.stepLimit limit))) :
    Ensures (fun _ => True) halted (countStep limits) := by
  intro tally
  cases hs : limits.maxSteps with
  | none =>
      rw [countStep_of_none hs]
      trivial
  | some limit =>
      rw [countStep_of_some hs]
      by_cases hl : limit < tally.steps + 1
      · rw [if_pos hl]
        exact h limit
      · rw [if_neg hl]
        trivial

theorem operateBy_ensures_none (limits : Limits) (operates : Name → Bool) (f a : Term) :
    Ensures (fun r => r = none → contractBy? operates f a = none) (fun _ => True)
      (operateBy limits operates f a) := by
  rw [operateBy]
  cases contractBy? operates f a with
  | none => exact .pure fun _ => rfl
  | some r =>
      cases r with
      | error e => exact .throw .intro
      | ok t =>
          refine (countStep_ensures limits fun _ => trivial).bind fun _ _ => .pure ?_
          intro h
          cases h

end NormalOrder.Reducing
