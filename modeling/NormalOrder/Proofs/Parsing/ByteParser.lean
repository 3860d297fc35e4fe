/- The primitives and combinators on byte offsets.

Here a parser slices the text at a byte offset and moves it by the bytes of what it read. On the
place of a cursor each of them does what the one on cursors does there, so it never slices out of
range. -/
import NormalOrder.Proofs.Parsing.Bytes
import NormalOrder.Proofs.Parsing.Stable

namespace NormalOrder

/-- Why a parser on byte offsets has no result. -/
inductive Trouble
  /-- The text was sliced inside a character or behind the end. -/
  | outOfRange
  /-- References were nested deeper than the run goes. -/
  | unended
deriving DecidableEq

/-- A search in a text for a match, told by the bytes before it and before its end. Both are between
characters. -/
structure Regex where
  find : List Char → Option (Nat × Nat)
  onBoundaries : ∀ text start stop, find text = some (start, stop) →
    String.Pos.Raw.IsValid (.ofList text) ⟨start⟩ ∧ String.Pos.Raw.IsValid (.ofList text) ⟨stop⟩

theorem Parser.satisfy_cons (accepts : Char → Bool) (taken : List Char) (ch : Char)
    (text : List Char) : Parser.satisfy accepts ⟨taken, ch :: text⟩ =
      if accepts ch then some (ch, ⟨ch :: taken, text⟩) else none := by
  cases hch : accepts ch <;> simp [Parser.satisfy, Cursor.next?, hch]

/-- What a search finds at the cursor; it is the value. -/
def Parser.found (regex : Regex) : Parser (List Char) := fun c =>
  match regex.find c.rest with
  | some (0, stop) => (Text.cut? stop c.rest).map fun (used, _) => (used, c.advance used.length)
  | _ => none

/-- A pattern as a search that finds what matches at the front. -/
def Regex.ofPieces (pieces : List Parser.Piece) : Regex where
  find text := (Parser.matchLength? pieces text).map fun n => (0, Text.size (text.take n))
  onBoundaries := by
    intro text start stop h
    obtain ⟨n, -, hn⟩ := Option.map_eq_some_iff.mp h
    cases hn
    exact ⟨(Text.isValid_iff ..).mpr ⟨[], text, String.toList_ofList, rfl⟩,
      (Text.isValid_iff ..).mpr ⟨text.take n, text.drop n,
        by rw [String.toList_ofList, List.take_append_drop], rfl⟩⟩

theorem Parser.pattern_eq_found (pieces : List Piece) :
    pattern pieces = found (.ofPieces pieces) := by
  funext c
  have hfind : (Regex.ofPieces pieces).find c.rest =
      (matchLength? pieces c.rest).map fun n => (0, Text.size (c.rest.take n)) := rfl
  rw [pattern, found, hfind]
  cases hn : matchLength? pieces c.rest with
  | none => rfl
  | some n =>
      have hcut : Text.cut? (Text.size (c.rest.take n)) c.rest =
          some (c.rest.take n, c.rest.drop n) :=
        Text.cut?_eq_some_iff.mpr ⟨(List.take_append_drop n c.rest).symm, rfl⟩
      simp only [Option.map_some, hcut, List.length_take_of_le (matchLength?_le hn)]

/-- A parser that reads at a byte offset. -/
abbrev ByteParser := StateT BytePlace (OptionT (Except Trouble))

namespace ByteParser

variable {α β : Type}

def rest : ByteParser (List Char) := do
  match (← get).rest? with
  | some text => return text
  | none => throwThe Trouble .outOfRange

/-- The text over so many bytes, and the place behind it. -/
def take (bytes : Nat) : ByteParser (List Char) := do
  match Text.cut? bytes (← rest) with
  | some (used, _) =>
    modify (·.advance bytes)
    return used
  | none => throwThe Trouble .outOfRange

def satisfy (accepts : Char → Bool) : ByteParser Char := do
  match ← rest with
  | [] => failure
  | c :: _ =>
    modify (·.advance c.utf8Size)
    if accepts c then return c else failure

def literal (text : List Char) : ByteParser (List Char) := do
  if text.isPrefixOf (← rest) then take (Text.size text) else failure

def pattern (regex : Regex) : ByteParser (List Char) := do
  match regex.find (← rest) with
  | some (0, stop) => take stop
  | _ => failure

/-- Runs a parser again and again, until it fails or stays where it is. -/
def manyWithin (p : ByteParser α) : Nat → BytePlace → Except Trouble (List α × BytePlace)
  | 0, _ => throw .unended
  | n + 1, place => do
    match ← (p place).run with
    | none => return ([], place)
    | some (value, next) =>
      if next.offset = place.offset then return ([value], place)
      else
        let (values, last) ← manyWithin p n next
        return (value :: values, last)

/-- Each success that does not end the loop leaves fewer bytes to read. -/
def many (p : ByteParser α) : ByteParser (List α) := fun place =>
  OptionT.mk (some <$> manyWithin p (place.source.utf8ByteSize - place.offset + 1) place)

def many1 (p : ByteParser α) : ByteParser (List α) := do
  let values ← many p
  if values.isEmpty then failure else return values

/-- Skips characters one by one. -/
def skip (skips : Char → Bool) : ByteParser Unit := do
  let _ ← many (satisfy skips)
  return ()

theorem bind_apply (p : ByteParser α) (f : α → ByteParser β) (place : BytePlace) :
    (p >>= f) place = match (p place).run with
      | .error trouble => .error trouble
      | .ok none => .ok none
      | .ok (some (value, next)) => f value next := by
  change (p place).run.bind _ = _
  rcases (p place).run with trouble | (_ | step) <;> rfl

theorem orElse_apply (p q : ByteParser α) (place : BytePlace) :
    (p <|> q) place = match (p place).run with
      | .ok none => q place
      | result => result := by
  change (p place).run.bind _ = _
  rcases (p place).run with trouble | (_ | step) <;> rfl

end ByteParser

/-- What a parser on byte offsets gives, when another gives this at a cursor: the same, and on the
place of the cursor behind what was read. If the run ends, it has a result. -/
inductive Agrees {α : Type} (ends : Prop) (c : Cursor) :
    Except Trouble (Option (α × BytePlace)) → Option (α × Cursor) → Prop
  | unended {result : Option (α × Cursor)} (h : ¬ ends) : Agrees ends c (.error .unended) result
  | fails : Agrees ends c (.ok none) none
  | gives {value : α} {next : Cursor} (h : c.Leads next) :
    Agrees ends c (.ok (some (value, next.place))) (some (value, next))

theorem Agrees.of_leads {α : Type} {ends : Prop} {c d : Cursor}
    {x : Except Trouble (Option (α × BytePlace))} {y : Option (α × Cursor)} (h : c.Leads d)
    (hd : Agrees ends d x y) : Agrees ends c x y := by
  cases hd with
  | unended hends => exact .unended hends
  | fails => exact .fails
  | gives hnext => exact .gives (h.trans hnext)

/-- A parser on byte offsets does on the place of every cursor what another does at the cursor. -/
def ByteParser.Refines {α : Type} (ends : Prop) (b : ByteParser α) (p : Parser α) : Prop :=
  ∀ c : Cursor, Agrees ends c (b c.place).run (p c)

namespace ByteParser

variable {α β : Type} {ends : Prop} {b : ByteParser α} {p : Parser α}

theorem refines_pure (value : α) : Refines ends (pure value) (pure value) :=
  fun c => .gives c.leads_refl

theorem refines_failure : Refines ends (failure : ByteParser α) failure :=
  fun _ => .fails

theorem Refines.bind {bf : α → ByteParser β} {f : α → Parser β} (h : Refines ends b p)
    (hf : ∀ value, Refines ends (bf value) (f value)) : Refines ends (b >>= bf) (p >>= f) := by
  intro c
  have hc := h c
  rw [bind_apply]
  change Agrees ends c _ ((p c).bind fun step => f step.1 step.2)
  generalize (b c.place).run = x at hc ⊢
  generalize p c = y at hc ⊢
  cases hc with
  | unended hends => exact .unended hends
  | fails => exact .fails
  | gives hnext => exact .of_leads hnext (hf _ _)

theorem Refines.orElse {b' : ByteParser α} {p' : Parser α} (h : Refines ends b p)
    (h' : Refines ends b' p') : Refines ends (b <|> b') (p <|> p') := by
  intro c
  have hc := h c
  rw [orElse_apply]
  change Agrees ends c _ (p c <|> p' c)
  generalize (b c.place).run = x at hc ⊢
  generalize p c = y at hc ⊢
  cases hc with
  | unended hends => exact .unended hends
  | fails => exact h' c
  | gives hnext => exact .gives hnext

theorem rest_bind (f : List Char → ByteParser β) (c : Cursor) :
    (rest >>= f) c.place = f c.rest c.place := by
  have hrest : rest c.place = (match c.place.rest? with
    | some text => pure text
    | none => throwThe Trouble .outOfRange : ByteParser (List Char)) c.place := rfl
  rw [bind_apply, hrest, c.rest?_place]
  rfl

theorem agrees_take {c : Cursor} {used left : List Char} (h : c.rest = used ++ left) :
    Agrees ends c (take (Text.size used) c.place).run (some (used, c.advance used.length)) := by
  rw [take, rest_bind, h, Text.cut?_append]
  change Agrees ends c (.ok (some (used, c.place.advance (Text.size used)))) _
  rw [← Cursor.place_advance h]
  exact .gives (c.leads_advance _)

theorem refines_satisfy (accepts : Char → Bool) :
    Refines ends (satisfy accepts) (Parser.satisfy accepts) := by
  intro c
  rw [satisfy, rest_bind]
  obtain ⟨taken, text⟩ := c
  cases text with
  | nil => exact .fails
  | cons ch text =>
      have hrest : (⟨taken, ch :: text⟩ : Cursor).rest = [ch] ++ text := rfl
      have hread := Cursor.place_advance hrest
      rw [Text.size_cons, Text.size_nil, Nat.add_zero] at hread
      change Agrees ends _ ((if accepts ch then pure ch else failure : ByteParser Char)
        ((⟨taken, ch :: text⟩ : Cursor).place.advance ch.utf8Size)).run _
      rw [← hread, Parser.satisfy_cons]
      by_cases hch : accepts ch
      · rw [if_pos hch, if_pos hch]
        exact .gives (Cursor.leads_advance _ 1)
      · rw [if_neg hch, if_neg hch]
        exact .fails

theorem refines_literal (text : List Char) :
    Refines ends (literal text) (Parser.literal text) := by
  intro c
  rw [literal, rest_bind, Parser.literal]
  by_cases h : text.isPrefixOf c.rest
  · rw [if_pos h, if_pos h]
    obtain ⟨left, hrest⟩ := List.isPrefixOf_iff_prefix.mp h
    exact agrees_take hrest.symm
  · rw [if_neg h, if_neg h]
    exact .fails

theorem refines_pattern (regex : Regex) : Refines ends (pattern regex) (Parser.found regex) := by
  intro c
  rw [pattern, rest_bind, Parser.found]
  cases hfind : regex.find c.rest with
  | none => exact .fails
  | some bounds =>
      obtain ⟨_ | start, stop⟩ := bounds
      · obtain ⟨used, left, hrest, rfl⟩ :=
          (Text.isValid_iff ..).mp (regex.onBoundaries _ _ _ hfind).2
        rw [String.toList_ofList] at hrest
        have hcut : Text.cut? (Text.size used) c.rest = some (used, left) :=
          Text.cut?_eq_some_iff.mpr ⟨hrest, rfl⟩
        simp only [hcut, Option.map_some]
        exact agrees_take hrest
      · exact .fails

/-- Repetition on byte offsets agrees with repetition on cursors if there are more runs than bytes
left. -/
theorem agrees_manyWithin (h : Refines ends b p) {n : Nat} {c : Cursor}
    (hn : Text.size c.rest < n) :
    Agrees ends c (some <$> manyWithin b n c.place) (Parser.many p c) := by
  induction n generalizing c with
  | zero => exact absurd hn (Nat.not_lt_zero _)
  | succ n ih =>
      have hc := h c
      rw [Parser.many_eq, manyWithin]
      generalize (b c.place).run = x at hc ⊢
      generalize p c = y at hc ⊢
      cases hc with
      | unended hends => exact .unended hends
      | fails => exact .gives c.leads_refl
      | @gives value next hnext =>
          change Agrees ends c (some <$> if next.place.offset = c.place.offset then _ else _)
            (if _ then _ else _)
          by_cases hoffset : next.place.offset = c.place.offset
          · obtain rfl := hnext.eq_of_offset_eq hoffset
            rw [if_pos rfl, if_neg (Nat.lt_irrefl _)]
            exact .gives next.leads_refl
          · obtain ⟨hlength, hsize⟩ := hnext.shorter hoffset
            have hrest := ih (by omega : Text.size next.rest < n)
            rw [if_neg hoffset, if_pos hlength]
            generalize manyWithin b n next.place = x at hrest ⊢
            generalize Parser.many p next = y at hrest ⊢
            rcases x with trouble | ⟨values, last⟩
            · cases hrest with
              | unended hends => exact .unended hends
            · cases hrest with
              | gives hlast => exact .gives (hnext.trans hlast)

theorem Refines.many (h : Refines ends b p) : Refines ends (many b) (Parser.many p) := by
  intro c
  refine agrees_manyWithin h ?_
  rw [c.utf8ByteSize_source, Nat.add_sub_cancel_left]
  exact Nat.lt_succ_self _

theorem Refines.many1 (h : Refines ends b p) : Refines ends (many1 b) (Parser.many1 p) := by
  intro c
  have hc := h.many c
  rw [ByteParser.many1, bind_apply]
  change Agrees ends c _ ((Parser.many p c).filter fun step => !step.1.isEmpty)
  generalize (ByteParser.many b c.place).run = x at hc ⊢
  generalize Parser.many p c = y at hc ⊢
  cases hc with
  | unended hends => exact .unended hends
  | fails => exact .fails
  | @gives values next hnext =>
      cases values with
      | nil => exact .fails
      | cons value values => exact .gives hnext

end ByteParser

/-- Skipping characters is to read each of them. -/
theorem Parser.many_satisfy (skips : Char → Bool) (c : Cursor) :
    Parser.many (Parser.satisfy skips) c = some (c.rest.takeWhile skips, c.skipWhile skips) := by
  obtain ⟨taken, text⟩ := c
  induction text generalizing taken with
  | nil => rfl
  | cons ch text ih =>
      rw [Parser.many_eq, Parser.satisfy_cons]
      by_cases hch : skips ch
      · simp [hch, ih, Cursor.skipWhile, Cursor.advance]
      · simp [hch, Cursor.skipWhile, Cursor.advance]

theorem ByteParser.refines_skip {ends : Prop} (skips : Char → Bool) :
    (skip skips).Refines ends fun c => some ((), c.skipWhile skips) := by
  have hskip : (skip skips).Refines ends
      (Parser.many (Parser.satisfy skips) >>= fun _ => pure ()) :=
    (refines_satisfy skips).many.bind fun _ => refines_pure ()
  intro c
  have hc := hskip c
  change Agrees ends c _ ((Parser.many (Parser.satisfy skips) c).bind fun (_, next) =>
    some ((), next)) at hc
  rwa [Parser.many_satisfy] at hc

end NormalOrder
