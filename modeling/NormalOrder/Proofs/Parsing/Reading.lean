/- Parsers on texts: what they give and what they leave.

A local parser goes by what is left to read alone, wherever its cursor stands. What is built from
local parsers is local, and what it reads follows from what its parts read. -/
import NormalOrder.Parsing.Parser
import NormalOrder.Proofs.Parsing.Bytes

namespace NormalOrder.Parser

variable {α β : Type}

/-- What a parser gives on a text, and what it leaves of it. -/
def read (p : Parser α) (text : List Char) : Option (α × List Char) :=
  (p ⟨[], text⟩).map fun (value, c) => (value, c.rest)

/-- A parser that goes by what is left to read alone, and moves its cursor over what it takes. -/
def Local (p : Parser α) : Prop :=
  ∀ text, (∀ taken, p ⟨taken, text⟩ = none) ∨
    ∃ value used rest, text = used ++ rest ∧
      ∀ taken, p ⟨taken, text⟩ = some (value, ⟨used.reverse ++ taken, rest⟩)

section Local

variable {p q : Parser α} {text rest : List Char} {value : α}

theorem Local.eq_none (h : p.Local) (hr : p.read text = none) (taken : List Char) :
    p ⟨taken, text⟩ = none := by
  rcases h text with hnone | ⟨v, used, rest, -, hsome⟩
  · exact hnone taken
  · rw [read, hsome []] at hr
    cases hr

theorem Local.eq_some (h : p.Local) (hr : p.read text = some (value, rest)) :
    ∃ used, text = used ++ rest ∧
      ∀ taken, p ⟨taken, text⟩ = some (value, ⟨used.reverse ++ taken, rest⟩) := by
  rcases h text with hnone | ⟨v, used, left, htext, hsome⟩
  · rw [read, hnone []] at hr
    cases hr
  · rw [read, hsome []] at hr
    cases hr
    exact ⟨used, htext, hsome⟩

theorem Local.leads (h : p.Local) {c next : Cursor} (hstep : p c = some (value, next)) :
    c.Leads next := by
  obtain ⟨taken, text⟩ := c
  rcases h text with hnone | ⟨v, used, rest, rfl, hsome⟩
  · rw [hnone] at hstep
    cases hstep
  · rw [hsome] at hstep
    cases hstep
    exact ⟨used, rfl, rfl⟩

/-- What a local parser gives at a cursor is what it gives on what is left to read there. -/
theorem Local.read_rest (h : p.Local) (c : Cursor) :
    (p c).map (fun (value, next) => (value, next.rest)) = p.read c.rest := by
  obtain ⟨taken, text⟩ := c
  rcases h text with hnone | ⟨v, used, rest, -, hsome⟩
  · rw [read, hnone, hnone]
  · rw [read, hsome, hsome]
    rfl

theorem Local.suffix (h : p.Local) (hr : p.read text = some (value, rest)) : rest <:+ text := by
  obtain ⟨used, htext, -⟩ := h.eq_some hr
  exact ⟨used, htext.symm⟩

theorem Local.length_le (h : p.Local) (hr : p.read text = some (value, rest)) :
    rest.length ≤ text.length := by
  obtain ⟨used, rfl, -⟩ := h.eq_some hr
  simp

theorem local_pure (value : α) : (pure value : Parser α).Local :=
  fun text => .inr ⟨value, [], text, rfl, fun _ => rfl⟩

theorem local_failure : (failure : Parser α).Local :=
  fun _ => .inl fun _ => rfl

theorem local_satisfy (accepts : Char → Bool) : (satisfy accepts).Local := by
  intro text
  cases text with
  | nil => exact .inl fun _ => rfl
  | cons c rest =>
      cases hc : accepts c with
      | true => exact .inr ⟨c, [c], rest, rfl, fun taken => by simp [satisfy, Cursor.next?, hc]⟩
      | false => exact .inl fun taken => by simp [satisfy, Cursor.next?, hc]

theorem local_pattern (pieces : List Piece) : (pattern pieces).Local := by
  intro text
  cases h : matchLength? pieces text with
  | none => exact .inl fun taken => by simp only [pattern, h]
  | some n =>
      refine .inr ⟨text.take n, text.take n, text.drop n, (List.take_append_drop n text).symm, ?_⟩
      intro taken
      simp only [pattern, h, Cursor.advance]

theorem local_skipWhile (skips : Char → Bool) :
    Local (fun c => some ((), c.skipWhile skips)) :=
  fun text => .inr ⟨(), text.take (text.takeWhile skips).length,
    text.drop (text.takeWhile skips).length, (List.take_append_drop _ text).symm, fun _ => rfl⟩

theorem Local.bind {f : α → Parser β} (h : p.Local) (hf : ∀ value, (f value).Local) :
    (p >>= f).Local := by
  intro text
  rcases h text with hnone | ⟨v, used, rest, rfl, hsome⟩
  · left
    intro taken
    change (p ⟨taken, text⟩).bind _ = none
    rw [hnone taken]
    rfl
  · have hbind : ∀ taken, (p >>= f) ⟨taken, used ++ rest⟩ = f v ⟨used.reverse ++ taken, rest⟩ := by
      intro taken
      change (p ⟨taken, used ++ rest⟩).bind _ = _
      rw [hsome taken]
      rfl
    rcases hf v rest with hnone | ⟨w, more, last, rfl, hlast⟩
    · exact .inl fun taken => (hbind taken).trans (hnone _)
    · refine .inr ⟨w, used ++ more, last, (List.append_assoc ..).symm, fun taken => ?_⟩
      rw [hbind, hlast, List.reverse_append, List.append_assoc]

theorem Local.map (h : p.Local) (f : α → β) : (f <$> p).Local :=
  h.bind fun value => local_pure (f value)

theorem Local.seqRight {q : Parser β} (h : p.Local) (hq : q.Local) : (p *> q).Local :=
  h.bind fun _ => hq

theorem Local.seqLeft {q : Parser β} (h : p.Local) (hq : q.Local) : (p <* q).Local :=
  h.bind fun value => hq.bind fun _ => local_pure value

theorem Local.orElse (h : p.Local) (hq : q.Local) : (p <|> q).Local := by
  intro text
  rcases h text with hnone | ⟨v, used, rest, htext, hsome⟩
  · have hleft : ∀ taken, (p <|> q) ⟨taken, text⟩ = q ⟨taken, text⟩ := by
      intro taken
      change (p ⟨taken, text⟩ <|> q ⟨taken, text⟩) = _
      rw [hnone taken]
      rfl
    rcases hq text with hnone' | ⟨v, used, rest, htext, hsome⟩
    · exact .inl fun taken => (hleft taken).trans (hnone' taken)
    · exact .inr ⟨v, used, rest, htext, fun taken => (hleft taken).trans (hsome taken)⟩
  · refine .inr ⟨v, used, rest, htext, fun taken => ?_⟩
    change (p ⟨taken, text⟩ <|> q ⟨taken, text⟩) = _
    rw [hsome taken]
    rfl

end Local

section Read

variable {p q : Parser α} {text : List Char}

@[simp] theorem read_pure (value : α) : (pure value : Parser α).read text = some (value, text) :=
  rfl

theorem read_bind {f : α → Parser β} (hf : ∀ value, (f value).Local) :
    (p >>= f).read text = (p.read text).bind fun (value, rest) => (f value).read rest := by
  rw [read, read]
  change ((p ⟨[], text⟩).bind _).map _ = _
  cases p ⟨[], text⟩ with
  | none => rfl
  | some step => exact (hf step.1).read_rest step.2

theorem read_bind_eq_some {f : α → Parser β} {value : β} {rest : List Char}
    (hf : ∀ value, (f value).Local) (h : (p >>= f).read text = some (value, rest)) :
    ∃ first s, p.read text = some (first, s) ∧ (f first).read s = some (value, rest) := by
  rw [read_bind hf] at h
  obtain ⟨⟨first, s⟩, hp, h⟩ := Option.bind_eq_some_iff.mp h
  exact ⟨first, s, hp, h⟩

theorem read_orElse : (p <|> q).read text = (p.read text).or (q.read text) := by
  rw [read, read, read]
  change (p ⟨[], text⟩ <|> q ⟨[], text⟩).map _ = _
  cases p ⟨[], text⟩ with
  | none => rfl
  | some step => rfl

theorem read_map (f : α → β) :
    (f <$> p).read text = (p.read text).map fun (value, rest) => (f value, rest) := by
  rw [read, read]
  change ((p ⟨[], text⟩).bind _).map _ = _
  cases p ⟨[], text⟩ with
  | none => rfl
  | some step => rfl

theorem read_seqRight {q : Parser β} (hq : q.Local) :
    (p *> q).read text = (p.read text).bind fun (_, rest) => q.read rest :=
  read_bind fun _ => hq

theorem read_seqLeft {q : Parser β} (hq : q.Local) :
    (p <* q).read text =
      (p.read text).bind fun (value, rest) => (q.read rest).map fun (_, last) => (value, last) := by
  have hread : (p >>= fun value => q >>= fun _ => pure value).read text = _ :=
    read_bind fun value => hq.bind fun _ => local_pure value
  change (p >>= fun value => q >>= fun _ => pure value).read text = _
  rw [hread]
  congr 1
  funext step
  exact read_map fun _ => step.1

theorem read_satisfy (accepts : Char → Bool) :
    (satisfy accepts).read text =
      match text with
      | [] => none
      | c :: rest => if accepts c then some (c, rest) else none := by
  cases text with
  | nil => rfl
  | cons c rest =>
      have hstep : satisfy accepts ⟨[], c :: rest⟩ =
          if accepts c then some (c, ⟨[c], rest⟩) else none := by
        cases hc : accepts c <;> simp [satisfy, Cursor.next?, hc]
      rw [read, hstep]
      by_cases hc : accepts c = true
      · simp only [if_pos hc, Option.map_some]
      · simp only [if_neg hc, Option.map_none]

theorem read_pattern (pieces : List Piece) :
    (pattern pieces).read text =
      (matchLength? pieces text).map fun n => (text.take n, text.drop n) := by
  rw [read]
  cases h : matchLength? pieces text with
  | none => simp only [pattern, h, Option.map_none]
  | some n => simp only [pattern, h, Option.map_some, Cursor.advance]

theorem read_skipWhile (skips : Char → Bool) :
    read (fun c => some ((), c.skipWhile skips)) text = some ((), text.dropWhile skips) := by
  rw [read]
  simp only [Option.map_some, Cursor.rest_skipWhile]

end Read

section Many

variable {p : Parser α} {text rest : List Char} {value : α}

/-- One run more than there are characters is as good as any number of runs beyond. -/
theorem manyWithin_eq (p : Parser α) {n m : Nat} {c : Cursor} (hn : c.rest.length < n)
    (hm : c.rest.length < m) : manyWithin p n c = manyWithin p m c := by
  induction n generalizing m c with
  | zero => exact absurd hn (Nat.not_lt_zero _)
  | succ n ih =>
      cases m with
      | zero => exact absurd hm (Nat.not_lt_zero _)
      | succ m =>
          rw [manyWithin, manyWithin]
          cases p c with
          | none => rfl
          | some step =>
              obtain ⟨value, next⟩ := step
              by_cases hlt : next.rest.length < c.rest.length
              · simp only [if_pos hlt]
                rw [ih (by omega) (by omega : next.rest.length < m)]
              · simp only [if_neg hlt]

/-- Repetition is a run and then repetition, unless the run fails or reads nothing. -/
theorem many_eq (p : Parser α) (c : Cursor) :
    many p c =
      match p c with
      | none => some ([], c)
      | some (value, next) =>
        if next.rest.length < c.rest.length then
          (many p next).map fun (values, last) => (value :: values, last)
        else some ([value], c) := by
  rw [many, manyWithin]
  cases p c with
  | none => rfl
  | some step =>
      obtain ⟨value, next⟩ := step
      by_cases hlt : next.rest.length < c.rest.length
      · simp only [if_pos hlt]
        rw [manyWithin_eq p hlt (Nat.lt_succ_self _)]
        rfl
      · simp only [if_neg hlt]

theorem Local.many (h : p.Local) : (many p).Local := by
  intro text
  right
  induction hn : text.length using Nat.strongRecOn generalizing text with
  | _ n ih =>
      rcases h text with hnone | ⟨value, used, rest, rfl, hsome⟩
      · refine ⟨[], [], text, rfl, fun taken => ?_⟩
        rw [many_eq, hnone taken]
        rfl
      · by_cases hlt : rest.length < (used ++ rest).length
        · obtain ⟨values, more, last, rfl, hlast⟩ := ih _ (hn ▸ hlt) rest rfl
          refine ⟨value :: values, used ++ more, last, (List.append_assoc ..).symm, ?_⟩
          intro taken
          rw [many_eq, hsome taken]
          simp only [if_pos hlt]
          rw [hlast, Option.map_some, List.reverse_append, List.append_assoc]
        · refine ⟨[value], [], used ++ rest, rfl, fun taken => ?_⟩
          rw [many_eq, hsome taken]
          simp only [if_neg hlt]
          rfl

theorem read_many_of_none (h : p.read text = none) (hp : p.Local) :
    (many p).read text = some ([], text) := by
  rw [read, many_eq, hp.eq_none h]
  rfl

theorem read_many_of_some (h : p.read text = some (value, rest)) (hp : p.Local)
    (hlt : rest.length < text.length) :
    (many p).read text =
      ((many p).read rest).map fun (values, last) => (value :: values, last) := by
  obtain ⟨used, -, hsome⟩ := hp.eq_some h
  rw [read, many_eq, hsome]
  simp only [if_pos hlt]
  rw [← hp.many.read_rest ⟨used.reverse ++ [], rest⟩, Option.map_map, Option.map_map]
  rfl

end Many

end NormalOrder.Parser
