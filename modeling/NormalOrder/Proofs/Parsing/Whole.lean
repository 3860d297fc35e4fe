/- Reading whole texts: when it succeeds, and where it stops. -/
import Mathlib.Data.List.TakeWhile
import NormalOrder.Program.Source
import NormalOrder.Proofs.Parsing.Reading

namespace NormalOrder

/-- The error where `rest` is left of `text`. -/
def ParseError.leaving (text rest : List Char) : ParseError :=
  unexpected (String.ofList (Cursor.restOfLine ⟨[], rest⟩)) (text.count '\n' - rest.count '\n' + 1)

theorem ParseError.stopped_eq_leaving (c : Cursor) :
    stopped c = leaving c.source c.rest := by
  have hcount : c.source.count '\n' - c.rest.count '\n' = c.taken.count '\n' := by
    rw [Cursor.source, List.count_append, List.count_reverse]
    omega
  rw [leaving, hcount]
  rfl

theorem Parser.Local.source_eq {α : Type} {p : Parser α} (h : p.Local) {c next : Cursor} {value : α}
    (hstep : p c = some (value, next)) : next.source = c.source :=
  (h.leads hstep).source_eq

/-- Reading a whole text, told by what the parser gives on it from its first character on that is no
blank. -/
theorem Parser.readAll_eq {α : Type} {p : Parser α} (hp : p.Local) (text : String) :
    p.readAll text =
      let content := text.toList.dropWhile Text.isBlank
      if content.isEmpty then .error .nothing
      else
        match p.read content with
        | none => .error (.leaving text.toList content)
        | some (value, rest) =>
          let last := rest.dropWhile Text.isBlank
          if last.isEmpty then .ok value else .error (.leaving text.toList last) := by
  have hstart : ((Cursor.start text).skipWhile Text.isBlank).source = text.toList := by
    rw [Cursor.skipWhile, Cursor.source_advance, Cursor.source_start]
  have hrest : ((Cursor.start text).skipWhile Text.isBlank).rest =
      text.toList.dropWhile Text.isBlank := Cursor.rest_skipWhile ..
  rw [readAll]
  generalize (Cursor.start text).skipWhile Text.isBlank = content at hstart hrest
  have hread := hp.read_rest content
  dsimp only
  rw [Cursor.atEnd, ParseError.stopped_eq_leaving, hstart, ← hrest, ← hread]
  cases hstep : p content with
  | none => rfl
  | some step =>
      obtain ⟨value, next⟩ := step
      have hnext : (next.skipWhile Text.isBlank).source = text.toList := by
        rw [Cursor.skipWhile, Cursor.source_advance, hp.source_eq hstep, hstart]
      dsimp only [Option.map_some]
      rw [Cursor.atEnd, ParseError.stopped_eq_leaving, hnext, Cursor.rest_skipWhile]

theorem Parser.readAll_eq_ok_iff {α : Type} {p : Parser α} (hp : p.Local) {text : String}
    {value : α} :
    p.readAll text = .ok value ↔
      text.toList.dropWhile Text.isBlank ≠ [] ∧
        ∃ rest, p.read (text.toList.dropWhile Text.isBlank) = some (value, rest) ∧
          ∀ c ∈ rest, Text.isBlank c = true := by
  rw [readAll_eq hp]
  generalize text.toList.dropWhile Text.isBlank = content
  dsimp only
  cases content with
  | nil => simp
  | cons c content =>
      rw [List.isEmpty_cons, if_neg Bool.false_ne_true]
      cases p.read (c :: content) with
      | none => simp
      | some step =>
          obtain ⟨v, rest⟩ := step
          dsimp only
          simp only [List.isEmpty_iff, List.dropWhile_eq_nil_iff]
          by_cases hrest : ∀ c ∈ rest, Text.isBlank c = true
          · rw [if_pos hrest]
            constructor
            · rintro h
              cases h
              exact ⟨List.cons_ne_nil _ _, rest, rfl, hrest⟩
            · rintro ⟨-, r, h, -⟩
              cases h
              rfl
          · rw [if_neg hrest]
            constructor
            · intro h
              cases h
            · rintro ⟨-, r, h, hr⟩
              cases h
              exact absurd hr hrest

end NormalOrder
