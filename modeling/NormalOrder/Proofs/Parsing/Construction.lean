/- Everything that is built from the primitives and combinators.

A construction describes how a parser is built, in any nesting and with recursive references. It is
read in two ways, as the parser on cursors and as one on byte offsets, and both give the same on
every valid place. So valid places stay valid, whatever the parser. -/
import NormalOrder.Parsing.Recipe
import NormalOrder.Proofs.Parsing.ByteParser

namespace NormalOrder

/-- How a parser is built. `ι` are the references, and `τ` says what each of them gives. -/
inductive Construction (ι : Type) (τ : ι → Type) : Type → Type 1
  | satisfy (accepts : Char → Bool) : Construction ι τ Char
  | literal (text : List Char) : Construction ι τ (List Char)
  | pattern (regex : Regex) : Construction ι τ (List Char)
  | give {α : Type} (value : α) : Construction ι τ α
  | fail {α : Type} : Construction ι τ α
  /-- One after the other; the value of the first decides what the second is. -/
  | sequence {α β : Type} (first : Construction ι τ α) (second : α → Construction ι τ β) :
    Construction ι τ β
  | orElse {α : Type} (first second : Construction ι τ α) : Construction ι τ α
  | map {α β : Type} (f : α → β) (inner : Construction ι τ α) : Construction ι τ β
  /-- One after the other, with the value of the second. -/
  | second {α β : Type} (first : Construction ι τ α) (second : Construction ι τ β) :
    Construction ι τ β
  /-- One after the other, with the value of the first. -/
  | first {α β : Type} (first : Construction ι τ α) (second : Construction ι τ β) :
    Construction ι τ α
  | many {α : Type} (inner : Construction ι τ α) : Construction ι τ (List α)
  | many1 {α : Type} (inner : Construction ι τ α) : Construction ι τ (List α)
  | blanks : Construction ι τ Unit
  | inlineBlanks : Construction ι τ Unit
  | afterBlanks {α : Type} (inner : Construction ι τ α) : Construction ι τ α
  | afterInlineBlanks {α : Type} (inner : Construction ι τ α) : Construction ι τ α
  | ref (name : ι) : Construction ι τ (τ name)

namespace Construction

variable {ι : Type} {τ : ι → Type} {α : Type}

/-- The parser of a construction, given the parsers of its references. -/
def parser (refs : ∀ name, Parser (τ name)) {α : Type} : Construction ι τ α → Parser α
  | satisfy accepts => Parser.satisfy accepts
  | literal text => Parser.literal text
  | pattern regex => Parser.found regex
  | give value => pure value
  | fail => failure
  | sequence p f => p.parser refs >>= fun value => (f value).parser refs
  | orElse p q => p.parser refs <|> q.parser refs
  | map f p => f <$> p.parser refs
  | second p q => p.parser refs *> q.parser refs
  | first p q => p.parser refs <* q.parser refs
  | many p => (p.parser refs).many
  | many1 p => (p.parser refs).many1
  | blanks => Parser.skipBlanks
  | inlineBlanks => Parser.skipInlineBlanks
  | afterBlanks p => (p.parser refs).afterBlanks
  | afterInlineBlanks p => (p.parser refs).afterInlineBlanks
  | ref name => refs name

end Construction

/-- A recipe as a construction; all its values are of one kind. -/
def Recipe.construction {ν : Type} :
    Recipe ν → Construction String (fun _ => Recipe.Value ν) (Recipe.Value ν)
  | character c => .map (fun ch => .text [ch]) (.satisfy (· == c))
  | digit => .map (fun ch => .text [ch]) (.satisfy Char.isDigit)
  | letter => .map (fun ch => .text [ch]) (.satisfy Text.isAlphabetic)
  | oneOf set => .map (fun ch => .text [ch]) (.satisfy (· ∈ set))
  | noneOf set => .map (fun ch => .text [ch]) (.satisfy (· ∉ set))
  | literal text => .map .text (.literal text)
  | pattern pieces => .map .text (.pattern (.ofPieces pieces))
  | give value => .give (.given value)
  | fail => .fail
  | orElse p q => .orElse p.construction q.construction
  | both p q => .sequence p.construction fun first => .sequence q.construction fun second =>
    .give (.items [first, second])
  | twice p => .sequence p.construction fun value =>
    match value.text? with
    | some chars => .map .text (.literal chars)
    | none => .fail
  | tagged tag p => .map (fun value => .items [.given tag, value]) p.construction
  | second p q => .second p.construction q.construction
  | first p q => .first p.construction q.construction
  | many p => .map .items (.many p.construction)
  | many1 p => .map .items (.many1 p.construction)
  | blanks => .map (fun _ => .nothing) .blanks
  | inlineBlanks => .map (fun _ => .nothing) .inlineBlanks
  | afterBlanks p => .afterBlanks p.construction
  | afterInlineBlanks p => .afterInlineBlanks p.construction
  | ref name => .ref name

/-- What runs for a recipe is the parser of its construction. -/
theorem Recipe.parser_construction {ν : Type} (refs : String → Parser (Value ν)) (r : Recipe ν) :
    r.construction.parser refs = r.parser refs := by
  induction r with
  | pattern pieces =>
      rw [construction, Construction.parser, Construction.parser, ← Parser.pattern_eq_found, parser]
  | twice p hp =>
      rw [construction, Construction.parser, parser, hp]
      congr 1
      funext value
      cases value.text? <;> rfl
  | orElse p q hp hq => rw [construction, Construction.parser, parser, hp, hq]
  | both p q hp hq => simp only [construction, Construction.parser, parser, hp, hq]
  | tagged tag p hp => rw [construction, Construction.parser, parser, hp]
  | second p q hp hq => rw [construction, Construction.parser, parser, hp, hq]
  | first p q hp hq => rw [construction, Construction.parser, parser, hp, hq]
  | many p hp => rw [construction, Construction.parser, Construction.parser, parser, hp]
  | many1 p hp => rw [construction, Construction.parser, Construction.parser, parser, hp]
  | afterBlanks p hp => rw [construction, Construction.parser, parser, hp]
  | afterInlineBlanks p hp => rw [construction, Construction.parser, parser, hp]
  | _ => rfl

namespace Construction

variable {ι : Type} {τ : ι → Type} {α : Type}

/-- The parser of a construction on byte offsets, given those of its references. -/
def bytes (refs : ∀ name, ByteParser (τ name)) {α : Type} : Construction ι τ α → ByteParser α
  | satisfy accepts => ByteParser.satisfy accepts
  | literal text => ByteParser.literal text
  | pattern regex => ByteParser.pattern regex
  | give value => pure value
  | fail => failure
  | sequence p f => do (f (← p.bytes refs)).bytes refs
  | orElse p q => p.bytes refs <|> q.bytes refs
  | map f p => do return f (← p.bytes refs)
  | second p q => do
    let _ ← p.bytes refs
    q.bytes refs
  | first p q => do
    let value ← p.bytes refs
    let _ ← q.bytes refs
    return value
  | many p => (p.bytes refs).many
  | many1 p => (p.bytes refs).many1
  | blanks => ByteParser.skip Text.isBlank
  | inlineBlanks => ByteParser.skip Text.isInlineBlank
  | afterBlanks p => do
    ByteParser.skip Text.isBlank
    p.bytes refs
  | afterInlineBlanks p => do
    ByteParser.skip Text.isInlineBlank
    p.bytes refs
  | ref name => refs name

/-- What each reference stands for. -/
abbrev Definitions (ι : Type) (τ : ι → Type) := ∀ name, Construction ι τ (τ name)

/-- The parsers of the references, with references at most `depth` deep inside one another. -/
def Definitions.parser (defs : Definitions ι τ) : (depth : Nat) → (name : ι) → Parser (τ name)
  | 0, _ => failure
  | depth + 1, name => (defs name).parser (Definitions.parser defs depth)

/-- On byte offsets a run that comes to deeper references does not end. -/
def Definitions.bytes (defs : Definitions ι τ) : (depth : Nat) → (name : ι) → ByteParser (τ name)
  | 0, _ => throwThe Trouble .unended
  | depth + 1, name => (defs name).bytes (Definitions.bytes defs depth)

theorem refines {ends : Prop} {byteRefs : ∀ name, ByteParser (τ name)}
    {refs : ∀ name, Parser (τ name)} (h : ∀ name, (byteRefs name).Refines ends (refs name))
    (e : Construction ι τ α) : (e.bytes byteRefs).Refines ends (e.parser refs) := by
  induction e with
  | satisfy accepts => exact ByteParser.refines_satisfy accepts
  | literal text => exact ByteParser.refines_literal text
  | pattern regex => exact ByteParser.refines_pattern regex
  | give value => exact ByteParser.refines_pure value
  | fail => exact ByteParser.refines_failure
  | sequence p f hp hf => exact hp.bind hf
  | orElse p q hp hq => exact hp.orElse hq
  | map f p hp => exact hp.bind fun value => ByteParser.refines_pure (f value)
  | second p q hp hq => exact hp.bind fun _ => hq
  | first p q hp hq =>
      exact hp.bind fun value => hq.bind fun _ => ByteParser.refines_pure value
  | many p hp => exact hp.many
  | many1 p hp => exact hp.many1
  | blanks => exact ByteParser.refines_skip Text.isBlank
  | inlineBlanks => exact ByteParser.refines_skip Text.isInlineBlank
  | afterBlanks p hp => exact (ByteParser.refines_skip Text.isBlank).bind fun _ => hp
  | afterInlineBlanks p hp => exact (ByteParser.refines_skip Text.isInlineBlank).bind fun _ => hp
  | ref name => exact h name

theorem Definitions.refines (defs : Definitions ι τ) (depth : Nat) (name : ι) :
    (defs.bytes depth name).Refines (IsEmpty ι) (defs.parser depth name) := by
  induction depth generalizing name with
  | zero => exact fun _ => .unended fun h => h.elim name
  | succ depth ih => exact (defs name).refines ih

end Construction

/-- Names without a recipe stand for failure. -/
def Recipe.Definitions.constructions {ν : Type} (defs : Recipe.Definitions ν) :
    Construction.Definitions String fun _ => Recipe.Value ν := fun name =>
  match defs.lookup name with
  | some recipe => recipe.construction
  | none => .fail

/-- To run a recipe is to run its construction. -/
theorem Recipe.run_eq {ν : Type} (defs : Recipe.Definitions ν) (recipe : Recipe ν) (c : Cursor) :
    recipe.run defs c = recipe.construction.parser
      (defs.constructions.parser ((defs.length + 1) * (c.rest.length + 1))) c := by
  have hrefs (depth : Nat) : defs.constructions.parser depth = defs.parser depth := by
    induction depth with
    | zero => rfl
    | succ depth ih =>
        funext name
        rw [Construction.Definitions.parser, Definitions.parser, ih, Definitions.constructions]
        cases defs.lookup name with
        | none => rfl
        | some r => exact r.parser_construction _
  rw [run, hrefs, parser_construction]

namespace Construction

variable {ι : Type} {τ : ι → Type} {α : Type}

/-- On a valid place a parser built from the primitives and combinators, in any nesting, never
slices out of range; and if its references let it end, it gives what it gives on the cursor there,
and on success leaves a valid place of the same text, not before the first, as many lines on as
there are line breaks in what was read. Without references it ends. -/
theorem places_stay_valid (defs : Definitions ι τ) (e : Construction ι τ α) (depth : Nat)
    {place : BytePlace} (h : place.Valid) :
    ∃ c : Cursor, c.place = place ∧
      (e.bytes (defs.bytes depth) place).run ≠ .error .outOfRange ∧
      (IsEmpty ι → (e.bytes (defs.bytes depth) place).run ≠ .error .unended) ∧
      ∀ result, (e.bytes (defs.bytes depth) place).run = .ok result →
        result = (e.parser (defs.parser depth) c).map (fun (value, next) => (value, next.place)) ∧
          ∀ value next, result = some (value, next) → place.To next := by
  obtain ⟨c, rfl⟩ := Cursor.exists_place_eq h
  have hrun := e.refines (defs.refines depth) c
  refine ⟨c, rfl, ?_⟩
  generalize (e.bytes (defs.bytes depth) c.place).run = x at hrun ⊢
  generalize e.parser (defs.parser depth) c = y at hrun ⊢
  cases hrun with
  | unended hends =>
      exact ⟨nofun, fun hempty => absurd hempty hends, nofun⟩
  | fails =>
      refine ⟨nofun, fun _ => nofun, ?_⟩
      rintro result ⟨⟩
      exact ⟨rfl, nofun⟩
  | gives hnext =>
      refine ⟨nofun, fun _ => nofun, ?_⟩
      rintro result ⟨⟩
      refine ⟨rfl, ?_⟩
      rintro value next ⟨⟩
      exact hnext.to

/-- A letter of two bytes and a line break, in any number of brackets. -/
def bracketed : Construction Unit (fun _ => List Char) (List Char) :=
  .orElse (.second (.satisfy (· == '(')) (.first (.ref ()) (.afterBlanks (.satisfy (· == ')')))))
    (.literal ['λ', '\n'])

/-- Two pairs of brackets and a line break are read from behind a letter of two bytes. -/
theorem places_stay_valid_bracketed :
    (BytePlace.mk "xλ((λ\n) )é" 3).Valid ∧
      (bracketed.bytes (Definitions.bytes (fun _ => bracketed) 2) ⟨"xλ((λ\n) )é", 3⟩).run =
        .ok (some (['λ', '\n'], ⟨"xλ((λ\n) )é", 11⟩)) ∧
      (BytePlace.mk "xλ((λ\n) )é" 3).To ⟨"xλ((λ\n) )é", 11⟩ := by
  have hvalid : (BytePlace.mk "xλ((λ\n) )é" 3).Valid :=
    (Text.isValid_iff ..).mpr ⟨['x', 'λ'], "((λ\n) )é".toList, by decide, by decide⟩
  have hrun : (bracketed.bytes (Definitions.bytes (fun _ => bracketed) 2) ⟨"xλ((λ\n) )é", 3⟩).run =
      .ok (some (['λ', '\n'], ⟨"xλ((λ\n) )é", 11⟩)) := by
    decide +kernel
  obtain ⟨c, -, -, -, hresult⟩ := places_stay_valid (fun _ => bracketed) bracketed 2 hvalid
  exact ⟨hvalid, hrun, (hresult _ hrun).2 _ _ rfl⟩

end Construction

end NormalOrder
