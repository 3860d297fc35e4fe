/- How a program runs line by line: what each line does to the rest of the run. -/
import NormalOrder.Program.Execute

namespace NormalOrder.Program

variable {fuel : Nat} {limits : Limits} {line : Nat} {env : Env} {rest : Program}
  {events : List Event} {t : Term}

/-- A bound value is at home in the empty environment, and the lines below see it. -/
theorem executeFrom_bind (x : Name) :
    executeFrom fuel limits line env (.bind x t :: rest) events =
      match t.reduceWithin fuel limits env with
      | .ok value tally =>
        executeFrom fuel limits (line + 1) (env.resolved x (Env.empty.suspend value)) rest
          (.bound x value :: (tally.events ++ events))
      | .error halt tally => .error ⟨line, halt⟩ (tally.events ++ events) := by
  rw [executeFrom]
  change EStateM.bind _ _ events = _
  rw [EStateM.bind, Telling.mapError, Telling.reduce]
  cases t.reduceWithin fuel limits env with
  | ok value tally => rfl
  | error halt tally => rfl

/-- A line that asks for a value leaves the environment as it is. -/
theorem executeFrom_eval :
    executeFrom fuel limits line env (.eval t :: rest) events =
      match t.reduceWithin fuel limits env with
      | .ok value tally =>
        match executeFrom fuel limits (line + 1) env rest (tally.events ++ events) with
        | .ok values after => .ok (value :: values) after
        | .error e after => .error e after
      | .error halt tally => .error ⟨line, halt⟩ (tally.events ++ events) := by
  rw [executeFrom]
  change EStateM.bind _ _ events = _
  rw [EStateM.bind, Telling.mapError, Telling.reduce]
  cases t.reduceWithin fuel limits env with
  | ok value tally =>
      change EStateM.bind _ _ _ = _
      rw [EStateM.bind]
      cases hrest : executeFrom fuel limits (line + 1) env rest (tally.events ++ events) with
      | ok values after =>
          simp only [hrest]
          rfl
      | error e after => simp only [hrest]
  | error halt tally => rfl

/-- A run that gets past a binding has its value. -/
theorem executeFrom_bind_ok {x : Name} {values : List Term} {after : List Event}
    (h : executeFrom fuel limits line env (.bind x t :: rest) events = .ok values after) :
    ∃ value tally between, t.reduceWithin fuel limits env = .ok value tally ∧
      executeFrom fuel limits (line + 1) (env.resolved x (Env.empty.suspend value)) rest between =
        .ok values after := by
  rw [executeFrom_bind] at h
  cases hr : t.reduceWithin fuel limits env with
  | ok value tally =>
      rw [hr] at h
      exact ⟨value, tally, _, rfl, h⟩
  | error halt tally =>
      rw [hr] at h
      cases h

/-- The first of the values of a run is that of its first question. -/
theorem executeFrom_eval_ok {value : Term} {values : List Term} {after : List Event}
    (h : executeFrom fuel limits line env (.eval t :: rest) events = .ok (value :: values) after) :
    ∃ tally, t.reduceWithin fuel limits env = .ok value tally := by
  rw [executeFrom_eval] at h
  cases hr : t.reduceWithin fuel limits env with
  | ok v tally =>
      rw [hr] at h
      cases hrest : executeFrom fuel limits (line + 1) env rest (tally.events ++ events) with
      | ok vs later =>
          simp only [hrest] at h
          cases h
          exact ⟨tally, rfl⟩
      | error e later =>
          simp only [hrest] at h
          cases h
  | error halt tally =>
      rw [hr] at h
      cases h

end NormalOrder.Program
