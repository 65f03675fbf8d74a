import CilCoverage.Text.Fields
import Mathlib.Data.List.Forall2

/-!
# Texts with given fields and lines

`Spaced` says how fields stand in a text: with blanks between any two of them and possibly around
them. Every text has one list of fields, which is what `fields` gives (`spaced_iff`).

`Lined` says how lines stand in a text: each with a line feed behind it or a carriage return and a
line feed, which the last one may lack. Since a carriage return can also end a line, a text may have
more than one list of lines, and `Lined.forall₂_splitOn` compares any of them with the pieces
between line feeds.
-/

set_option autoImplicit false

namespace CilCoverage.Text

/-- The text is empty or starts with a blank. -/
def StartsBlank (text : List Char) : Prop :=
  ∀ character ∈ text.head?, isBlank character = true

/-- A text of the given fields with blanks between and possibly around them. -/
inductive Spaced : List Char → List (List Char) → Prop
  | gap {gap : List Char} : (∀ character ∈ gap, isBlank character = true) → Spaced gap []
  | field {gap field rest : List Char} {fields : List (List Char)} :
    (∀ character ∈ gap, isBlank character = true) →
    field ≠ [] → (∀ character ∈ field, isBlank character = false) →
    StartsBlank rest → Spaced rest fields → Spaced (gap ++ field ++ rest) (field :: fields)

/-- A text of the given lines, each with its ending, which the last line may lack. -/
inductive Lined : List (List Char) → List Char → Prop
  | none : Lined [] []
  | last {line : List Char} : '\n' ∉ line → Lined [line] line
  | ended {line ending text : List Char} {lines : List (List Char)} : '\n' ∉ line →
    ending = ['\n'] ∨ ending = ['\r', '\n'] → Lined lines text →
    Lined (line :: lines) (line ++ ending ++ text)

/-- Texts are split like lists. -/
theorem splitBy_eq_splitOnP (separates : Char → Bool) (text : List Char) :
    splitBy separates text = text.splitOnP separates := by
  induction text with
  | nil => rfl
  | cons character rest ih =>
    rw [List.splitOnP_cons_eq_if_modifyHead, splitBy, ih]
    cases hpieces : rest.splitOnP separates with
    | nil => exact absurd hpieces (List.splitOnP_ne_nil separates rest)
    | cons piece pieces => rfl

/-- Lines are split at line feeds. -/
theorem lines_eq_splitOn (text : List Char) : lines text = text.splitOn '\n' := by
  rw [lines, splitBy_eq_splitOnP, List.splitOn_eq_splitOnP]

section Fields

variable {gap field text : List Char} {found : List (List Char)}

/-- Blanks in front do not matter. -/
theorem fields_append_of_blank (hgap : ∀ character ∈ gap, isBlank character = true) :
    fields (gap ++ text) = fields text := by
  induction gap with
  | nil => rfl
  | cons character rest ih =>
    rw [List.forall_mem_cons] at hgap
    rw [← ih hgap.2, List.cons_append, fields, splitBy, if_pos hgap.1]
    rfl

/-- What has no blank, and a blank or nothing behind it, is the first field. -/
theorem fields_append_of_field (hne : field ≠ [])
    (hfield : ∀ character ∈ field, isBlank character = false) (hstart : StartsBlank text) :
    fields (field ++ text) = field :: fields text := by
  have hkept (pieces : List (List Char)) :
      ((field :: pieces).filter fun piece => !piece.isEmpty)
        = field :: pieces.filter fun piece => !piece.isEmpty := by
    refine List.filter_cons_of_pos ?_
    simpa using hne
  cases text with
  | nil =>
    rw [fields, splitBy_eq_splitOnP, List.append_nil, List.splitOnP_eq_singleton hfield, hkept]
    rfl
  | cons blank rest =>
    have hblank : isBlank blank = true := hstart blank rfl
    have hgap : ∀ character ∈ [blank], isBlank character = true := by simpa using hblank
    have hrest : fields (blank :: rest) = fields rest := fields_append_of_blank hgap
    rw [fields, splitBy_eq_splitOnP, List.splitOnP_append_cons_of_forall_mem hfield _ hblank,
      hkept, hrest, fields, splitBy_eq_splitOnP]

/-- A spaced text has the fields it is made of. -/
theorem Spaced.fields_eq (h : Spaced text found) : fields text = found := by
  induction h with
  | @gap gap hgap =>
    rw [← List.append_nil gap, fields_append_of_blank hgap]
    rfl
  | field hgap hne hfield hstart _ ih =>
    rw [List.append_assoc, fields_append_of_blank hgap, fields_append_of_field hne hfield hstart, ih]

/-- A text may be spaced in front. -/
theorem Spaced.cons_blank (h : Spaced text found) {character : Char}
    (hblank : isBlank character = true) : Spaced (character :: text) found := by
  cases h with
  | gap hgap => exact .gap (List.forall_mem_cons.mpr ⟨hblank, hgap⟩)
  | field hgap hne hfield hstart hrest =>
    exact .field (List.forall_mem_cons.mpr ⟨hblank, hgap⟩) hne hfield hstart hrest

/-- A text may be spaced at its end. -/
theorem Spaced.append_blank (h : Spaced text found) {character : Char}
    (hblank : isBlank character = true) : Spaced (text ++ [character]) found := by
  induction h with
  | gap hgap => exact .gap (List.forall_mem_append.mpr ⟨hgap, by simpa using hblank⟩)
  | @field gap field rest _ hgap hne hfield hstart _ ih =>
    rw [List.append_assoc (gap ++ field)]
    refine .field hgap hne hfield ?_ ih
    intro first hfirst
    rw [List.head?_append, Option.mem_def, Option.or_eq_some_iff] at hfirst
    rcases hfirst with hfirst | ⟨-, hlast⟩
    · exact hstart first hfirst
    · obtain rfl := Option.some.inj hlast
      exact hblank

/-- A character that is no blank starts a field of its own or lengthens the first one. -/
theorem Spaced.cons_of_not_blank (h : Spaced text found) {character : Char}
    (hblank : isBlank character = false) : ∃ found', Spaced (character :: text) found' := by
  have hgap : ∀ character ∈ [], isBlank character = true := by simp
  by_cases hstart : StartsBlank text
  · have hfield : ∀ other ∈ [character], isBlank other = false := by simpa using hblank
    exact ⟨_, .field hgap (List.cons_ne_nil _ _) hfield hstart h⟩
  · cases h with
    | gap hblanks =>
      exact absurd (fun first hfirst => hblanks first (List.mem_of_mem_head? hfirst)) hstart
    | @field gap field rest fields hblanks _ hfield hrest hspaced =>
      cases gap with
      | nil =>
        exact ⟨_, .field hgap (List.cons_ne_nil _ _) (List.forall_mem_cons.mpr ⟨hblank, hfield⟩)
          hrest hspaced⟩
      | cons blank gap =>
        refine absurd (fun first hfirst => ?_) hstart
        obtain rfl := Option.some.inj hfirst
        exact hblanks blank List.mem_cons_self

/-- Every text is made of fields. -/
theorem exists_spaced (text : List Char) : ∃ found, Spaced text found := by
  induction text with
  | nil => exact ⟨[], .gap (by simp)⟩
  | cons character rest ih =>
    obtain ⟨found, h⟩ := ih
    cases hblank : isBlank character with
    | true => exact ⟨found, h.cons_blank hblank⟩
    | false => exact h.cons_of_not_blank hblank

/-- The fields of a text are those that it spaces out. -/
theorem spaced_iff : Spaced text found ↔ fields text = found := by
  constructor
  · exact Spaced.fields_eq
  · rintro rfl
    obtain ⟨found, h⟩ := exists_spaced text
    rwa [h.fields_eq]

end Fields

/-- What holds of the lines of a text holds of the pieces between its line feeds, if a carriage
return at the end of a line changes nothing. An empty piece may follow the last ending. -/
theorem Lined.forall₂_splitOn {α : Type} {R : List Char → α → Prop} {unwritten : α}
    {lines : List (List Char)} {text : List Char} {items : List α}
    (hreturn : ∀ line item, R line item → R (line ++ ['\r']) item) (hempty : R [] unwritten)
    (h : Lined lines text) (hitems : List.Forall₂ R lines items) :
    ∃ behind, (behind = [] ∨ behind = [unwritten])
      ∧ List.Forall₂ R (text.splitOn '\n') (items ++ behind) := by
  induction h generalizing items with
  | none =>
    cases hitems
    exact ⟨_, .inr rfl, .cons hempty .nil⟩
  | last hline =>
    refine ⟨[], .inl rfl, ?_⟩
    rwa [List.splitOn_eq_singleton hline, List.append_nil]
  | @ended line ending text lines hline hending _ ih =>
    obtain ⟨item, items, hitem, hrest, rfl⟩ := List.forall₂_cons_left_iff.mp hitems
    obtain ⟨behind, hbehind, hpieces⟩ := ih hrest
    have hsplit {piece : List Char} (hpiece : '\n' ∉ piece) :
        (piece ++ ['\n'] ++ text).splitOn '\n' = piece :: text.splitOn '\n' := by
      rw [List.append_assoc, List.singleton_append,
        List.splitOn_append_cons_self_of_not_mem hpiece]
    refine ⟨behind, hbehind, ?_⟩
    rcases hending with rfl | rfl
    · rw [hsplit hline]
      exact .cons hitem hpieces
    · have hpiece : '\n' ∉ line ++ ['\r'] := by simpa using hline
      have htext : line ++ ['\r', '\n'] ++ text = line ++ ['\r'] ++ ['\n'] ++ text := by simp
      rw [htext, hsplit hpiece]
      exact .cons (hreturn line item hitem) hpieces

end CilCoverage.Text
