/- What is read of a text when more text stands behind it. -/
import Mathlib.Data.List.TakeWhile
import NormalOrder.Proofs.Parsing.Reading

namespace NormalOrder.Parser

variable {α β : Type} {more text : List Char}

/-- What stands behind the text makes no difference to what the parser reads of it. -/
def Stable (more : List Char) (p : Parser α) (text : List Char) : Prop :=
  p.read (text ++ more) = (p.read text).map fun (value, rest) => (value, rest ++ more)

section Combinators

variable {p q : Parser α}

theorem stable_pure (value : α) : Stable more (pure value) text :=
  rfl

theorem Stable.eq_some (h : Stable more p text) {value : α} {rest : List Char}
    (hread : p.read text = some (value, rest)) :
    p.read (text ++ more) = some (value, rest ++ more) := by
  rw [h, hread]
  rfl

theorem Stable.bind {f : α → Parser β} (h : Stable more p text) (hlocal : ∀ value, (f value).Local)
    (hf : ∀ value rest, p.read text = some (value, rest) → Stable more (f value) rest) :
    Stable more (p >>= f) text := by
  rw [Stable, read_bind hlocal, read_bind hlocal, h, Option.map_bind, Option.bind_map]
  apply Option.bind_congr
  rintro ⟨value, rest⟩ hread
  exact hf value rest hread

theorem Stable.map (h : Stable more p text) (f : α → β) : Stable more (f <$> p) text := by
  rw [Stable, read_map, read_map, h, Option.map_map, Option.map_map]
  rfl

theorem Stable.seqRight {q : Parser β} (h : Stable more p text) (hlocal : q.Local)
    (hq : ∀ value rest, p.read text = some (value, rest) → Stable more q rest) :
    Stable more (p *> q) text :=
  h.bind (fun _ => hlocal) hq

theorem Stable.seqLeft {q : Parser β} (h : Stable more p text) (hlocal : q.Local)
    (hq : ∀ value rest, p.read text = some (value, rest) → Stable more q rest) :
    Stable more (p <* q) text :=
  h.bind (fun value => hlocal.bind fun _ => local_pure value) fun value rest hread =>
    (hq value rest hread).bind (fun _ => local_pure value) fun _ _ _ => stable_pure value

theorem Stable.orElse (h : Stable more p text) (hq : Stable more q text) :
    Stable more (p <|> q) text := by
  rw [Stable, read_orElse, read_orElse, h, hq]
  cases p.read text <;> rfl

end Combinators

section Runs

variable {c : Char} {s : List Char}

theorem takeWhile_append_of_neg {p : Char → Bool} (hc : p c = false) :
    (text ++ c :: s).takeWhile p = text.takeWhile p := by
  induction text with
  | nil => simp [hc]
  | cons d text ih => by_cases hd : p d = true <;> simp [hd, ih]

theorem dropWhile_append_of_neg {p : Char → Bool} (hc : p c = false) :
    (text ++ c :: s).dropWhile p = text.dropWhile p ++ c :: s := by
  induction text with
  | nil => simp [hc]
  | cons d text ih => by_cases hd : p d = true <;> simp [hd, ih]

theorem dropWhile_append_of_ne_nil {p : Char → Bool} (h : text.dropWhile p ≠ []) :
    (text ++ more).dropWhile p = text.dropWhile p ++ more := by
  rw [List.dropWhile_append, if_neg]
  rw [List.isEmpty_iff]
  exact h

theorem stable_skipWhile {skips : Char → Bool} (hc : skips c = false) :
    Stable (c :: s) (fun cursor => some ((), cursor.skipWhile skips)) text := by
  rw [Stable, read_skipWhile, read_skipWhile, dropWhile_append_of_neg hc]
  rfl

/-- The characters that a piece of a pattern matches. -/
def Piece.accepts : Piece → Char → Bool
  | one p => p
  | atLeastOne p => p
  | anyNumber p => p

theorem Piece.length?_append {piece : Piece} (hc : piece.accepts c = false) :
    piece.length? (text ++ c :: s) = piece.length? text := by
  have hany : ∀ {p : Char → Bool}, p c = false →
      ((text ++ c :: s).take 1).any p = (text.take 1).any p := by
    intro p hp
    cases text with
    | nil => simp [hp]
    | cons d text => rfl
  cases piece with
  | one p =>
      change p c = false at hc
      rw [length?, length?, hany hc]
  | atLeastOne p =>
      change p c = false at hc
      rw [length?, length?, hany hc, takeWhile_append_of_neg hc]
  | anyNumber p =>
      change p c = false at hc
      rw [length?, length?, takeWhile_append_of_neg hc]

theorem Piece.length?_le {piece : Piece} {n : Nat} (h : piece.length? text = some n) :
    n ≤ text.length := by
  have htake : ∀ p : Char → Bool, (text.takeWhile p).length ≤ text.length := fun p =>
    (List.takeWhile_prefix p).length_le
  cases piece with
  | one p =>
      rw [length?] at h
      split at h
      · cases h
        cases text with
        | nil => simp_all
        | cons d text => simp
      · cases h
  | atLeastOne p =>
      rw [length?] at h
      split at h
      · cases h
        exact htake p
      · cases h
  | anyNumber p =>
      cases h
      exact htake p

theorem Piece.accepts_of_length? {piece : Piece} {n : Nat} (h : piece.length? text = some n) :
    ∀ d ∈ text.take n, piece.accepts d = true := by
  have htake : ∀ p : Char → Bool, ∀ d ∈ text.take (text.takeWhile p).length, p d = true := by
    intro p d hd
    rw [← List.prefix_iff_eq_take.mp (List.takeWhile_prefix p)] at hd
    exact List.mem_takeWhile_imp hd
  cases piece with
  | one p =>
      rw [length?] at h
      split at h
      · cases h
        cases text with
        | nil => simp
        | cons d text => simp_all [accepts]
      · cases h
  | atLeastOne p =>
      rw [length?] at h
      split at h
      · cases h
        exact htake p
      · cases h
  | anyNumber p =>
      cases h
      exact htake p

theorem matchLength?_le {pieces : List Piece} {n : Nat} (h : matchLength? pieces text = some n) :
    n ≤ text.length := by
  induction pieces generalizing text n with
  | nil =>
      cases h
      exact Nat.zero_le _
  | cons piece pieces ih =>
      obtain ⟨k, hk, h⟩ := Option.bind_eq_some_iff.mp h
      obtain ⟨m, hm, h⟩ := Option.bind_eq_some_iff.mp h
      cases h
      have hle := Piece.length?_le hk
      have hle' := ih hm
      rw [List.length_drop] at hle'
      omega

theorem matchLength?_one_eq_some {p : Char → Bool} {pieces : List Piece} {n : Nat} :
    matchLength? (.one p :: pieces) text = some n ↔
      ∃ c s m, text = c :: s ∧ p c = true ∧ matchLength? pieces s = some m ∧ n = m + 1 := by
  rw [matchLength?, Option.bind_eq_bind, Option.bind_eq_some_iff]
  constructor
  · rintro ⟨k, hk, h⟩
    obtain ⟨m, hm, hn⟩ := Option.bind_eq_some_iff.mp h
    cases hn
    rw [Piece.length?] at hk
    split at hk
    · rename_i hany
      cases hk
      cases text with
      | nil => cases hany
      | cons c s => exact ⟨c, s, m, rfl, by simpa using hany, hm, Nat.add_comm ..⟩
    · cases hk
  · rintro ⟨c, s, m, rfl, hc, hm, rfl⟩
    refine ⟨1, ?_, Option.bind_eq_some_iff.mpr ⟨m, hm, congrArg some (Nat.add_comm ..)⟩⟩
    rw [Piece.length?, if_pos]
    simpa using hc

theorem matchLength?_append {pieces : List Piece}
    (hc : ∀ piece ∈ pieces, piece.accepts c = false) :
    matchLength? pieces (text ++ c :: s) = matchLength? pieces text := by
  induction pieces generalizing text with
  | nil => rfl
  | cons piece pieces ih =>
      rw [matchLength?, matchLength?, Piece.length?_append (hc piece (List.mem_cons_self ..))]
      apply Option.bind_congr
      intro n hn
      rw [List.drop_append_of_le_length (Piece.length?_le hn),
        ih fun piece hp => hc piece (List.mem_cons_of_mem _ hp)]

/-- Every character that a pattern takes matches one of its pieces. -/
theorem exists_accepts_of_matchLength? {pieces : List Piece} {n : Nat}
    (h : matchLength? pieces text = some n) :
    ∀ d ∈ text.take n, ∃ piece ∈ pieces, piece.accepts d = true := by
  induction pieces generalizing text n with
  | nil =>
      cases h
      exact fun d hd => absurd hd (by simp)
  | cons piece pieces ih =>
      obtain ⟨k, hk, h⟩ := Option.bind_eq_some_iff.mp h
      obtain ⟨m, hm, h⟩ := Option.bind_eq_some_iff.mp h
      cases h
      intro d hd
      rw [List.take_add, List.mem_append] at hd
      rcases hd with hd | hd
      · exact ⟨piece, List.mem_cons_self .., Piece.accepts_of_length? hk d hd⟩
      · obtain ⟨other, hmem, hother⟩ := ih hm d hd
        exact ⟨other, List.mem_cons_of_mem _ hmem, hother⟩

/-- A pattern does not reach into a text whose first character none of its pieces matches. -/
theorem stable_pattern {pieces : List Piece} (hc : ∀ piece ∈ pieces, piece.accepts c = false) :
    Stable (c :: s) (pattern pieces) text := by
  rw [Stable, read_pattern, read_pattern, matchLength?_append hc, Option.map_map]
  apply Option.map_congr
  intro n hn
  have hle := matchLength?_le hn
  rw [Function.comp_apply, List.take_append_of_le_length hle, List.drop_append_of_le_length hle]

end Runs

end NormalOrder.Parser
