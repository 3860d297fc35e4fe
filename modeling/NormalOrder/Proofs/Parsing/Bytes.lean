/- Places in a text by byte offset.

A place may be told by the bytes before it. Then a slice of the text has to begin and end where a
character does, and where it does not there is no slice. The places that are between characters are
those of cursors, and moving a cursor over characters moves its place over their bytes. -/
import NormalOrder.Parsing.Cursor

namespace NormalOrder

namespace Text

/-- The bytes of characters in UTF-8. -/
def size : List Char → Nat
  | [] => 0
  | c :: text => c.utf8Size + size text

/-- A text cut after so many bytes, unless that is inside a character or behind the end. -/
def cut? : (bytes : Nat) → (text : List Char) → Option (List Char × List Char)
  | 0, text => some ([], text)
  | _ + 1, [] => none
  | bytes + 1, c :: text =>
    if c.utf8Size ≤ bytes + 1 then
      (cut? (bytes + 1 - c.utf8Size) text).map fun (before, after) => (c :: before, after)
    else none

variable {text before after : List Char} {n : Nat}

@[simp] theorem size_nil : size [] = 0 := rfl

@[simp] theorem size_cons (c : Char) (text : List Char) :
    size (c :: text) = c.utf8Size + size text := rfl

@[simp] theorem size_append (text more : List Char) :
    size (text ++ more) = size text + size more := by
  induction text with
  | nil => exact (Nat.zero_add _).symm
  | cons c text ih => rw [List.cons_append, size_cons, ih, size_cons, Nat.add_assoc]

theorem size_eq_utf8ByteSize (text : List Char) :
    size text = (String.ofList text).utf8ByteSize := by
  induction text with
  | nil => rfl
  | cons c text ih =>
      rw [size_cons, ih, String.ofList_cons, String.utf8ByteSize_append,
        String.utf8ByteSize_singleton]

theorem size_pos (h : text ≠ []) : 0 < size text := by
  cases text with
  | nil => exact absurd rfl h
  | cons c text =>
      rw [size_cons]
      exact Nat.add_pos_left c.utf8Size_pos _

theorem cut?_append (before after : List Char) :
    cut? (size before) (before ++ after) = some (before, after) := by
  induction before with
  | nil => cases after <;> rfl
  | cons c before ih =>
      obtain ⟨n, hn⟩ : ∃ n, c.utf8Size + size before = n + 1 :=
        Nat.exists_eq_add_one.mpr (size_cons c before ▸ size_pos (List.cons_ne_nil c before))
      rw [size_cons, hn, List.cons_append, cut?, if_pos (by omega), ← hn, Nat.add_sub_cancel_left,
        ih, Option.map_some]

theorem cut?_eq_some_iff :
    cut? n text = some (before, after) ↔ text = before ++ after ∧ n = size before := by
  constructor
  · intro h
    induction text generalizing n before with
    | nil =>
        cases n with
        | zero =>
            cases h
            exact ⟨rfl, rfl⟩
        | succ n => cases h
    | cons c text ih =>
        cases n with
        | zero =>
            cases h
            exact ⟨rfl, rfl⟩
        | succ n =>
            rw [cut?] at h
            split at h
            · obtain ⟨⟨used, rest⟩, hcut, hsome⟩ := Option.map_eq_some_iff.mp h
              cases hsome
              obtain ⟨rfl, hn⟩ := ih hcut
              exact ⟨rfl, by rw [size_cons]; omega⟩
            · cases h
  · rintro ⟨rfl, rfl⟩
    exact cut?_append before after

/-- A text can be cut wherever a position of it is. -/
theorem isValid_iff (s : String) (n : Nat) :
    String.Pos.Raw.IsValid s ⟨n⟩ ↔
      ∃ before after, s.toList = before ++ after ∧ n = size before := by
  rw [String.Pos.Raw.isValid_iff_exists_append]
  constructor
  · rintro ⟨s₁, s₂, rfl, h⟩
    refine ⟨s₁.toList, s₂.toList, String.toList_append, ?_⟩
    rw [size_eq_utf8ByteSize, String.ofList_toList]
    exact congrArg String.Pos.Raw.byteIdx h
  · rintro ⟨before, after, hs, rfl⟩
    refine ⟨.ofList before, .ofList after, ?_, ?_⟩
    · rw [← String.ofList_append, ← hs, String.ofList_toList]
    · rw [size_eq_utf8ByteSize]
      rfl

end Text

/-- A place in a text, told by the bytes of the text before it. -/
structure BytePlace where
  source : String
  offset : Nat
deriving DecidableEq

namespace BytePlace

/-- A place is in its text, and not inside a character. -/
def Valid (p : BytePlace) : Prop :=
  String.Pos.Raw.IsValid p.source ⟨p.offset⟩

/-- The text from a place on, if it can be sliced there. -/
def rest? (p : BytePlace) : Option (List Char) :=
  (Text.cut? p.offset p.source.toList).map Prod.snd

/-- The line of a place, counted from one by the text before it, if it can be sliced there. -/
def line? (p : BytePlace) : Option Nat :=
  (Text.cut? p.offset p.source.toList).map fun (before, _) => before.count '\n' + 1

/-- The text of a place's source from the place to another offset, if it can be sliced there. -/
def slice? (p : BytePlace) (stop : Nat) : Option (List Char) := do
  let rest ← p.rest?
  let (used, _) ← Text.cut? (stop - p.offset) rest
  return used

def advance (p : BytePlace) (bytes : Nat) : BytePlace :=
  { p with offset := p.offset + bytes }

/-- Another valid place of the same text, not before the first, where the text can be sliced, and as
many lines on as there are line breaks between them. -/
structure To (p q : BytePlace) : Prop where
  source_eq : q.source = p.source
  offset_le : p.offset ≤ q.offset
  inside : q.offset ≤ q.source.utf8ByteSize
  valid : q.Valid
  rest : ∃ text, q.rest? = some text
  line : ∃ used n, p.slice? q.offset = some used ∧ p.line? = some n ∧
    q.line? = some (n + used.count '\n')

end BytePlace

namespace Cursor

def place (c : Cursor) : BytePlace :=
  ⟨String.ofList c.source, c.offset⟩

/-- The cursor after characters at the front of what is left to read. -/
def Leads (c next : Cursor) : Prop :=
  ∃ used, c.rest = used ++ next.rest ∧ next.taken = used.reverse ++ c.taken

variable {c d e : Cursor}

theorem leads_refl (c : Cursor) : c.Leads c :=
  ⟨[], rfl, rfl⟩

theorem Leads.trans (h : c.Leads d) (h' : d.Leads e) : c.Leads e := by
  obtain ⟨used, hrest, htaken⟩ := h
  obtain ⟨more, hrest', htaken'⟩ := h'
  refine ⟨used ++ more, ?_, ?_⟩
  · rw [hrest, hrest', List.append_assoc]
  · rw [htaken', htaken, List.reverse_append, List.append_assoc]

theorem cut?_place (c : Cursor) :
    Text.cut? c.place.offset c.place.source.toList = some (c.taken.reverse, c.rest) := by
  rw [place, Cursor.offset, String.toList_ofList, ← Text.size_eq_utf8ByteSize]
  exact Text.cut?_append c.taken.reverse c.rest

theorem rest?_place (c : Cursor) : c.place.rest? = some c.rest := by
  rw [BytePlace.rest?, cut?_place, Option.map_some]

theorem line?_place (c : Cursor) : c.place.line? = some c.lineNumber := by
  rw [BytePlace.line?, cut?_place]
  exact congrArg (fun n => some (n + 1)) (List.count_reverse ..)

theorem offset_eq_size (c : Cursor) : c.place.offset = Text.size c.taken.reverse :=
  (Text.size_eq_utf8ByteSize _).symm

theorem valid_place (c : Cursor) : c.place.Valid :=
  (Text.isValid_iff ..).mpr ⟨c.taken.reverse, c.rest, String.toList_ofList, c.offset_eq_size⟩

/-- The valid places are those of cursors. -/
theorem exists_place_eq {p : BytePlace} (h : p.Valid) : ∃ c : Cursor, c.place = p := by
  obtain ⟨before, after, hsource, hoffset⟩ := (Text.isValid_iff ..).mp h
  refine ⟨⟨before.reverse, after⟩, ?_⟩
  rw [place, Cursor.source, Cursor.offset, List.reverse_reverse, ← Text.size_eq_utf8ByteSize,
    ← hoffset, ← hsource, String.ofList_toList]

theorem Leads.source_eq (h : c.Leads d) : d.source = c.source := by
  obtain ⟨used, hrest, htaken⟩ := h
  rw [Cursor.source, Cursor.source, hrest, htaken, List.reverse_append, List.reverse_reverse,
    List.append_assoc]

theorem offset_place_of_taken {used : List Char} (h : d.taken = used.reverse ++ c.taken) :
    d.place.offset = c.place.offset + Text.size used := by
  rw [offset_eq_size, offset_eq_size, h, List.reverse_append, List.reverse_reverse,
    Text.size_append]

/-- The place of a cursor over characters is behind their bytes and as many lines on as there are
line breaks among them. -/
theorem Leads.to (h : c.Leads d) : c.place.To d.place := by
  have hsource := h.source_eq
  obtain ⟨used, hrest, htaken⟩ := h
  have hoffset := offset_place_of_taken htaken
  have hslice : c.place.slice? d.place.offset = some used := by
    rw [BytePlace.slice?, rest?_place, hoffset, Nat.add_sub_cancel_left, hrest]
    simp only [Option.bind_eq_bind, Option.bind_some, Text.cut?_append]
    rfl
  have hline : d.lineNumber = c.lineNumber + used.count '\n' := by
    rw [lineNumber, lineNumber, htaken, List.count_append, List.count_reverse]
    omega
  exact
    { source_eq := congrArg String.ofList hsource
      offset_le := hoffset ▸ Nat.le_add_right ..
      inside := d.valid_place.le_rawEndPos
      valid := d.valid_place
      rest := ⟨_, d.rest?_place⟩
      line := ⟨used, _, hslice, c.line?_place, by rw [line?_place, hline]⟩ }

/-- A cursor that is led to and has the same offset is the one that leads to it. -/
theorem Leads.eq_of_offset_eq (h : c.Leads d) (hoffset : d.place.offset = c.place.offset) :
    d = c := by
  obtain ⟨used, hrest, htaken⟩ := h
  cases used with
  | nil =>
      obtain ⟨taken, rest⟩ := d
      cases hrest
      cases htaken
      rfl
  | cons ch used =>
      have hsize := Text.size_pos (List.cons_ne_nil ch used)
      have hadd := offset_place_of_taken htaken
      omega

/-- In one text a cursor leads to every cursor that is not before it. -/
theorem leads_of_offset_le (hsource : d.source = c.source) (hle : c.offset ≤ d.offset) :
    c.Leads d := by
  rcases List.append_eq_append_iff.mp hsource with ⟨back, htaken, hrest⟩ | ⟨used, htaken, hrest⟩
  · have hback : c.taken = back.reverse ++ d.taken := by
      rw [List.reverse_eq_append_iff.mp htaken, List.reverse_reverse]
    cases back with
    | nil => exact ⟨[], hrest.symm, hback.symm⟩
    | cons ch back =>
        have hoffset : c.offset = d.offset + Text.size (ch :: back) :=
          offset_place_of_taken hback
        have hpos := Text.size_pos (List.cons_ne_nil ch back)
        omega
  · refine ⟨used, hrest, ?_⟩
    rw [List.reverse_eq_append_iff.mp htaken, List.reverse_reverse]

/-- Reading characters moves the place by their bytes. -/
theorem place_advance {used left : List Char} (h : c.rest = used ++ left) :
    (c.advance used.length).place = c.place.advance (Text.size used) := by
  have hoffset : (c.advance used.length).place.offset = c.place.offset + Text.size used := by
    refine offset_place_of_taken ?_
    rw [advance, h, List.take_left]
  rw [BytePlace.advance, ← hoffset, place, place, source_advance]

theorem leads_advance (c : Cursor) (n : Nat) : c.Leads (c.advance n) :=
  ⟨c.rest.take n, (List.take_append_drop n c.rest).symm, rfl⟩

theorem Leads.shorter (h : c.Leads d) (hoffset : d.place.offset ≠ c.place.offset) :
    d.rest.length < c.rest.length ∧ Text.size d.rest < Text.size c.rest := by
  obtain ⟨used, hrest, htaken⟩ := h
  have hadd := offset_place_of_taken htaken
  cases used with
  | nil => exact absurd hadd hoffset
  | cons ch used =>
      have hsize := Text.size_pos (List.cons_ne_nil ch used)
      rw [hrest, List.length_append, List.length_cons, Text.size_append]
      omega

/-- The bytes of a text are those before a cursor and those after it. -/
theorem utf8ByteSize_source (c : Cursor) :
    c.place.source.utf8ByteSize = c.place.offset + Text.size c.rest := by
  rw [offset_eq_size, ← Text.size_append, Text.size_eq_utf8ByteSize]
  rfl

end Cursor

end NormalOrder
