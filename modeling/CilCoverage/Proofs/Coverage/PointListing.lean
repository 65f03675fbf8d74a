import CilCoverage.Coverage.Points
import CilCoverage.Proofs.Outcome
import CilCoverage.Proofs.Text.Fields
import CilCoverage.Proofs.Text.Numerals
import Mathlib.Data.List.TakeWhile

/-!
# Listings of points

`WrittenAs` says which lines stand for which point or for none: spaced fields that are the keyword
and the numbers of the point (`Points.Says`), and perhaps a comment behind them. `Refused` says what
is wrong with the fields of any other line.

`parse_exactly` states that reading undoes writing for every way to write points, and for every text
whether and why it is refused. Both follow from what a single line is read as
(`readLine_eq_ok_iff`, `readLine_eq_error_iff`) and from how lines are put together
(`parse_eq_ok_iff`, `parse_eq_error_iff`).
-/

set_option autoImplicit false

namespace CilCoverage.Points

open Text

/-- A numeral of a number of 32 bits. -/
def IsNumber (field : List Char) : Prop :=
  ∃ value < UInt32.size, Numeral field value

/-- What the fields of a line stand for. -/
inductive Says : List (List Char) → Line → Prop
  | blank : Says [] .blank
  | statement {offset id : List Char} {point : StatementPoint} :
    Numeral offset point.offset.toNat → Numeral id point.id.toNat →
    Says ["seq".toList, offset, id] (.statement point)
  | branch {offset path id : List Char} {point : BranchPoint} :
    Numeral offset point.offset.toNat → Numeral path point.path.toNat →
    Numeral id point.id.toNat → Says ["branch".toList, offset, path, id] (.branch point)

/-- A line of the given fields, with or without a comment. -/
def Written (line : List Char) (fields : List (List Char)) : Prop :=
  ∃ content comment, line = content ++ comment ∧ '#' ∉ content
    ∧ (comment = [] ∨ ∃ remark, comment = '#' :: remark) ∧ Spaced content fields

/-- A line that stands for a point or for none. -/
def WrittenAs (line : List Char) (entry : Line) : Prop :=
  ∃ fields, Written line fields ∧ Says fields entry

/-- The points of both kinds in one list, each kind in its order, and blank lines among them. -/
inductive Interleaved : Points → List Line → Prop
  | none : Interleaved { statements := [], branches := [] } []
  | blank {points : Points} {entries : List Line} :
    Interleaved points entries → Interleaved points (.blank :: entries)
  | statement {points : Points} {entries : List Line} {point : StatementPoint} :
    Interleaved points entries →
    Interleaved { points with statements := point :: points.statements }
      (.statement point :: entries)
  | branch {points : Points} {entries : List Line} {point : BranchPoint} :
    Interleaved points entries →
    Interleaved { points with branches := point :: points.branches }
      (.branch point :: entries)

/-- Why fields that stand for nothing are refused: for the first of them behind the keyword that is
no number, whatever the keyword and however many there are, and else for their form. -/
inductive Refused (number : Nat) : List (List Char) → Error → Prop
  | field {keyword field : List Char} {before after : List (List Char)} :
    (∀ earlier ∈ before, IsNumber earlier) → ¬ IsNumber field →
    Refused number (keyword :: (before ++ field :: after))
      (.malformed (.pointNumber number (String.ofList field)))
  | form {keyword : List Char} {rest : List (List Char)} :
    (∀ field ∈ rest, IsNumber field) → (¬ ∃ entry, Says (keyword :: rest) entry) →
    Refused number (keyword :: rest) (.malformed (.pointForm number))

section Fields

variable {number : Nat} {field keyword : List Char} {rest fields : List (List Char)} {entry : Line}
  {cause : Error}

/-- A numeral of a number below the modulus of 32 bits is read as it. -/
theorem readNumeral_size_iff {value : Nat} :
    readNumeral UInt32.size field = .ok value ↔ Numeral field value ∧ value < UInt32.size :=
  readNumeral_eq_ok_iff (by decide)

/-- A field is read as a number if it is a numeral of it. -/
theorem readNumber_eq_ok_iff {value : UInt32} :
    readNumber number field = .ok value ↔ Numeral field value.toNat := by
  have hback (hnumeral : Numeral field value.toNat) :
      readNumeral UInt32.size field = .ok value.toNat :=
    readNumeral_size_iff.mpr ⟨hnumeral, value.toNat_lt_size⟩
  rw [readNumber]
  cases hread : readNumeral UInt32.size field with
  | ok found =>
    obtain ⟨hnumeral, hlt⟩ := readNumeral_size_iff.mp hread
    constructor
    · rintro ⟨⟩
      rwa [UInt32.toNat_ofNat_of_lt' hlt]
    · intro h
      rw [hback h] at hread
      cases hread
      exact congrArg Except.ok value.ofNat_toNat
  | error fault =>
    constructor
    · nofun
    · intro h
      rw [hback h] at hread
      cases hread

/-- A field is a number if it is read as one. -/
theorem isNumber_iff (number : Nat) :
    IsNumber field ↔ ∃ value, readNumber number field = .ok value := by
  simp only [readNumber_eq_ok_iff]
  constructor
  · rintro ⟨value, hlt, hnumeral⟩
    refine ⟨UInt32.ofNat value, ?_⟩
    rwa [UInt32.toNat_ofNat_of_lt' hlt]
  · rintro ⟨value, hnumeral⟩
    exact ⟨value.toNat, value.toNat_lt_size, hnumeral⟩

/-- A field that is no number is refused by its text. -/
theorem readNumber_eq_error_iff :
    readNumber number field = .error cause
      ↔ ¬ IsNumber field ∧ cause = .malformed (.pointNumber number (String.ofList field)) := by
  rw [isNumber_iff number, readNumber]
  cases readNumeral UInt32.size field with
  | ok value =>
    constructor
    · nofun
    · rintro ⟨hnone, -⟩
      exact absurd ⟨_, rfl⟩ hnone
  | error fault =>
    constructor
    · rintro ⟨⟩
      exact ⟨nofun, rfl⟩
    · rintro ⟨-, rfl⟩
      rfl

/-- Two numbers behind `seq` make a statement point, and three behind `branch` a branch point. -/
theorem readPoint_eq_ok_iff {numbers : List UInt32} :
    readPoint number keyword numbers = .ok entry
      ↔ (∃ offset id, keyword = "seq".toList ∧ numbers = [offset, id]
          ∧ entry = .statement { offset, id })
        ∨ ∃ offset path id, keyword = "branch".toList ∧ numbers = [offset, path, id]
          ∧ entry = .branch { offset, path, id } := by
  have hword {word : String} (h : String.ofList keyword = word) : keyword = word.toList := by
    rw [← h, String.toList_ofList]
  constructor
  · intro h
    rw [readPoint.eq_def] at h
    split at h
    next offset id hkeyword =>
      cases h
      exact .inl ⟨offset, id, hword hkeyword, rfl, rfl⟩
    next offset path id hkeyword =>
      cases h
      exact .inr ⟨offset, path, id, hword hkeyword, rfl, rfl⟩
    · cases h
  · rintro (⟨offset, id, rfl, rfl, rfl⟩ | ⟨offset, path, id, rfl, rfl, rfl⟩)
    · rw [readPoint]
      exact String.ofList_toList
    · rw [readPoint]
      exact String.ofList_toList

/-- All other numbers are refused for the form of the line. -/
theorem readPoint_eq_error {numbers : List UInt32}
    (h : readPoint number keyword numbers = .error cause) :
    cause = .malformed (.pointForm number) := by
  rw [readPoint.eq_def] at h
  split at h <;> cases h
  rfl

/-- Reads what the fields of a line stand for. -/
def readFields (number : Nat) : List (List Char) → Except Error Line
  | [] => .ok .blank
  | keyword :: rest => rest.mapM (readNumber number) >>= readPoint number keyword

/-- Fields are read as what they say. -/
theorem readFields_eq_ok_iff : readFields number fields = .ok entry ↔ Says fields entry := by
  cases fields with
  | nil =>
    constructor
    · rintro ⟨⟩
      exact .blank
    · rintro ⟨⟩
      rfl
  | cons keyword rest =>
    rw [readFields, bind_eq_ok_iff]
    simp only [mapM_eq_ok_iff, readNumber_eq_ok_iff, readPoint_eq_ok_iff]
    constructor
    · rintro ⟨numbers, hnumbers, ⟨offset, id, rfl, rfl, rfl⟩ | ⟨offset, path, id, rfl, rfl, rfl⟩⟩
      · obtain _ | ⟨hoffset, _ | ⟨hid, ⟨⟩⟩⟩ := hnumbers
        exact .statement hoffset hid
      · obtain _ | ⟨hoffset, _ | ⟨hpath, _ | ⟨hid, ⟨⟩⟩⟩⟩ := hnumbers
        exact .branch hoffset hpath hid
    · rintro (_ | ⟨hoffset, hid⟩ | ⟨hoffset, hpath, hid⟩)
      · exact ⟨_, .cons hoffset (.cons hid .nil), .inl ⟨_, _, rfl, rfl, rfl⟩⟩
      · exact ⟨_, .cons hoffset (.cons hpath (.cons hid .nil)), .inr ⟨_, _, _, rfl, rfl, rfl⟩⟩

/-- The form only matters if all numbers are read, since they are read before it is looked at. -/
theorem readFields_eq_error_iff :
    readFields number fields = .error cause ↔ Refused number fields cause := by
  have hform {keyword : List Char} {rest : List (List Char)} {numbers : List UInt32}
      (hread : rest.mapM (readNumber number) = .ok numbers) :
      readFields number (keyword :: rest) = readPoint number keyword numbers := by
    rw [readFields, hread]
    rfl
  constructor
  · intro h
    cases fields with
    | nil => cases h
    | cons keyword rest =>
      cases hread : rest.mapM (readNumber number) with
      | error fault =>
        rw [readFields, hread] at h
        obtain ⟨before, field, after, rfl, hbefore, hfield⟩ := mapM_eq_error_iff.mp hread
        cases h
        obtain ⟨hnone, rfl⟩ := readNumber_eq_error_iff.mp hfield
        exact .field (fun earlier hmem => (isNumber_iff number).mpr (hbefore earlier hmem)) hnone
      | ok numbers =>
        have hnumbers := exists_mapM_eq_ok_iff.mp ⟨numbers, hread⟩
        obtain rfl := readPoint_eq_error (hform hread ▸ h)
        refine .form (fun field hmem => (isNumber_iff number).mpr (hnumbers field hmem)) ?_
        rintro ⟨entry, hsays⟩
        rw [readFields_eq_ok_iff.mpr hsays] at h
        cases h
  · rintro (⟨hbefore, hfield⟩ | @⟨keyword, rest, hnumbers, hnone⟩)
    · rw [readFields, mapM_eq_error_iff.mpr ⟨_, _, _, rfl,
        fun earlier hmem => (isNumber_iff number).mp (hbefore earlier hmem),
        readNumber_eq_error_iff.mpr ⟨hfield, rfl⟩⟩]
      rfl
    · obtain ⟨numbers, hread⟩ := exists_mapM_eq_ok_iff.mpr
        fun field hmem => (isNumber_iff number).mp (hnumbers field hmem)
      cases hpoint : readFields number (keyword :: rest) with
      | ok entry => exact absurd ⟨entry, readFields_eq_ok_iff.mp hpoint⟩ hnone
      | error fault =>
        rw [hform hread] at hpoint
        rw [readPoint_eq_error hpoint]

end Fields

section Lines

variable {number : Nat} {line : List Char} {fields : List (List Char)} {entry : Line}
  {cause : Error}

/-- A line is written with the fields in front of its comment. -/
theorem written_iff :
    Written line fields ↔ Text.fields (line.takeWhile (· != '#')) = fields := by
  rw [← spaced_iff]
  constructor
  · rintro ⟨content, comment, rfl, hcontent, hcomment, hspaced⟩
    have hkept : ∀ character ∈ content, (character != '#') = true := by
      intro character hmem
      rw [bne_iff_ne]
      rintro rfl
      exact hcontent hmem
    have hnone : comment.takeWhile (· != '#') = [] := by
      rcases hcomment with rfl | ⟨remark, rfl⟩ <;> rfl
    rwa [List.takeWhile_append_of_pos hkept, hnone, List.append_nil]
  · intro hspaced
    refine ⟨_, line.dropWhile (· != '#'), List.takeWhile_append_dropWhile.symm, ?_, ?_, hspaced⟩
    · intro hmem
      exact absurd (List.mem_takeWhile_imp hmem) (by decide)
    · have hhead := List.head?_dropWhile_not (· != '#') line
      cases hdrop : line.dropWhile (· != '#') with
      | nil => exact .inl rfl
      | cons first remark =>
        rw [hdrop] at hhead
        have hfirst : (first != '#') = false := hhead
        rw [bne_eq_false_iff_eq] at hfirst
        exact .inr ⟨remark, by rw [hfirst]⟩

/-- Reading a line is reading the fields in front of its comment. -/
theorem readLine_eq_readFields (number : Nat) (line : List Char) :
    readLine number line = readFields number (Text.fields (line.takeWhile (· != '#'))) := by
  rw [readLine]
  cases Text.fields (line.takeWhile (· != '#')) <;> rfl

/-- A line is read as what it stands for, whatever its number. -/
theorem readLine_eq_ok_iff : readLine number line = .ok entry ↔ WrittenAs line entry := by
  simp only [WrittenAs, written_iff, exists_eq_left', readLine_eq_readFields, readFields_eq_ok_iff]

/-- A line is refused for the reason that its fields are. -/
theorem readLine_eq_error_iff :
    readLine number line = .error cause
      ↔ ∃ fields, Written line fields ∧ Refused number fields cause := by
  simp only [written_iff, exists_eq_left', readLine_eq_readFields, readFields_eq_error_iff]

/-- A carriage return at the end of a line is a blank or belongs to the comment. -/
theorem WrittenAs.append_return (h : WrittenAs line entry) : WrittenAs (line ++ ['\r']) entry := by
  obtain ⟨fields, ⟨content, comment, rfl, hcontent, hcomment, hspaced⟩, hsays⟩ := h
  refine ⟨fields, ?_, hsays⟩
  rcases hcomment with rfl | ⟨remark, rfl⟩
  · refine ⟨content ++ ['\r'], [], by simp, by simpa using hcontent, .inl rfl, ?_⟩
    exact hspaced.append_blank (by decide)
  · exact ⟨content, '#' :: (remark ++ ['\r']), by simp, hcontent, .inr ⟨_, rfl⟩, hspaced⟩

/-- Points are collected from the lines in their order. -/
theorem interleaved_iff {points : Points} {entries : List Line} :
    Interleaved points entries ↔ ofLines entries = points := by
  constructor
  · intro h
    induction h with
    | none => rfl
    | blank _ ih => exact ih
    | statement _ ih | branch _ ih =>
      rw [← ih]
      rfl
  · rintro rfl
    induction entries with
    | nil => exact .none
    | cons entry rest ih =>
      cases entry with
      | blank => exact .blank ih
      | statement point => exact .statement ih
      | branch point => exact .branch ih

end Lines

section Texts

variable {text : String} {points : Points} {cause : Error}

/-- A text is parsed if each line stands for a point or for none. -/
theorem parse_eq_ok_iff :
    parse text = .ok points
      ↔ ∃ entries, List.Forall₂ WrittenAs (text.toList.splitOn '\n') entries
          ∧ Interleaved points entries := by
  rw [parse, bind_eq_ok_iff, lines_eq_splitOn]
  simp only [mapM_eq_ok_iff, readLine_eq_ok_iff, interleaved_iff]
  refine exists_congr fun entries => and_congr ?_ ⟨Except.ok.inj, congrArg Except.ok⟩
  rw [← List.forall₂_map_left_iff, List.zipIdx_map_fst]

/-- A text is refused as its first line is that is not written as a point or as none. -/
theorem parse_eq_error_iff :
    parse text = .error cause
      ↔ ∃ before line after fields, text.toList.splitOn '\n' = before ++ line :: after
          ∧ (∀ earlier ∈ before, ∃ entry, WrittenAs earlier entry)
          ∧ Written line fields ∧ Refused (before.length + 1) fields cause := by
  have hlines : parse text = .error cause
      ↔ ((text.toList.splitOn '\n').zipIdx 1).mapM (fun item => readLine item.2 item.1)
          = .error cause := by
    rw [parse, lines_eq_splitOn]
    exact bind_pure_eq_error_iff
  have hwritten (before : List (List Char)) :
      (∀ earlier ∈ before.zipIdx 1, ∃ entry, readLine earlier.2 earlier.1 = .ok entry)
        ↔ ∀ earlier ∈ before, ∃ entry, WrittenAs earlier entry := by
    simp only [readLine_eq_ok_iff]
    rw [← List.forall_mem_map (f := Prod.fst) (P := fun line => ∃ entry, WrittenAs line entry),
      List.zipIdx_map_fst]
  rw [hlines, mapM_eq_error_iff]
  constructor
  · rintro ⟨_, _, _, hnumbered, hbefore, hline⟩
    obtain ⟨before, rest, hsplit, rfl, hrest⟩ := List.zipIdx_eq_append_iff.mp hnumbered
    obtain ⟨line, after, rfl, rfl, -⟩ := List.zipIdx_eq_cons_iff.mp hrest.symm
    obtain ⟨fields, hfields, hrefused⟩ := readLine_eq_error_iff.mp hline
    rw [Nat.add_comm] at hrefused
    exact ⟨before, line, after, fields, hsplit, (hwritten before).mp hbefore, hfields, hrefused⟩
  · rintro ⟨before, line, after, fields, hsplit, hbefore, hfields, hrefused⟩
    rw [Nat.add_comm] at hrefused
    refine ⟨before.zipIdx 1, (line, 1 + before.length), after.zipIdx (1 + before.length + 1), ?_,
      (hwritten before).mpr hbefore, readLine_eq_error_iff.mpr ⟨fields, hfields, hrefused⟩⟩
    rw [hsplit, List.zipIdx_append, List.zipIdx_cons]

/-- A text is refused if a line stands for nothing. -/
theorem exists_parse_eq_error_iff :
    (∃ cause, parse text = .error cause)
      ↔ ∃ line ∈ text.toList.splitOn '\n', ¬ ∃ entry, WrittenAs line entry := by
  constructor
  · rintro ⟨cause, h⟩
    obtain ⟨before, line, after, fields, hsplit, -, hfields⟩ := parse_eq_error_iff.mp h
    refine ⟨line, by simp [hsplit], ?_⟩
    rintro ⟨entry, hentry⟩
    have herror := readLine_eq_error_iff.mpr ⟨fields, hfields⟩
    rw [readLine_eq_ok_iff.mpr hentry] at herror
    cases herror
  · rintro ⟨line, hmem, hnone⟩
    cases hparse : parse text with
    | error cause => exact ⟨cause, rfl⟩
    | ok points =>
      obtain ⟨entries, hentries, -⟩ := parse_eq_ok_iff.mp hparse
      have hread : (text.toList.splitOn '\n').mapM (readLine 1) = .ok entries :=
        mapM_eq_ok_iff.mpr (hentries.imp fun _ _ => readLine_eq_ok_iff.mpr)
      obtain ⟨entry, hentry⟩ := exists_mapM_eq_ok_iff.mp ⟨_, hread⟩ line hmem
      exact absurd ⟨entry, readLine_eq_ok_iff.mp hentry⟩ hnone

end Texts

/-- Reading a listing gives the points that were written, however they were interleaved, numbered,
spaced, commented and ended, blank lines among them or not.

A text is refused exactly if one of its lines is not written as a point or as none. Here the pieces
between line feeds are its lines: a carriage return before a line feed is then a blank. The error is
that of the first such line, with its number from 1: for the first field behind its keyword that is
no number if there is one, even if the keyword is not known or the number of fields is wrong, and
else for its form. -/
theorem parse_exactly :
    (∀ (points : Points) (entries : List Line) (lines : List (List Char)) (text : List Char),
      Interleaved points entries → List.Forall₂ WrittenAs lines entries → Lined lines text →
        parse (String.ofList text) = .ok points)
      ∧ ∀ text : String,
          ((∃ cause, parse text = .error cause)
            ↔ ∃ line ∈ text.toList.splitOn '\n', ¬ ∃ entry, WrittenAs line entry)
          ∧ ∀ cause, parse text = .error cause
              ↔ ∃ before line after fields, text.toList.splitOn '\n' = before ++ line :: after
                  ∧ (∀ earlier ∈ before, ∃ entry, WrittenAs earlier entry)
                  ∧ Written line fields ∧ Refused (before.length + 1) fields cause := by
  refine ⟨?_, fun text => ⟨exists_parse_eq_error_iff, fun cause => parse_eq_error_iff⟩⟩
  intro points entries lines text hpoints hwritten hlined
  have hempty : WrittenAs [] .blank :=
    ⟨[], ⟨[], [], rfl, by simp, .inl rfl, .gap (by simp)⟩, .blank⟩
  obtain ⟨behind, hbehind, hpieces⟩ := hlined.forall₂_splitOn
    (fun _ _ h => h.append_return) hempty hwritten
  refine parse_eq_ok_iff.mpr ⟨entries ++ behind, ?_, ?_⟩
  · rwa [String.toList_ofList]
  · rw [interleaved_iff] at hpoints ⊢
    rw [← hpoints]
    rcases hbehind with rfl | rfl
    · rw [List.append_nil]
    · simp [ofLines]

/-- A comment, a branch point between two statement points, and an empty line. -/
def mixedLines : List (List Char) :=
  ["\t# offset id", "seq 0x00 1", "\u00A0branch 0X1f +0 4294967295# last", "",
    "seq\u3000007 0x+fF "].map String.toList

/-- What those lines stand for. -/
def mixedEntries : List Line :=
  [.blank, .statement { offset := 0, id := 1 },
    .branch { offset := 31, path := 0, id := 4294967295 }, .blank,
    .statement { offset := 7, id := 255 }]

/-- A point, a line of an unknown keyword with two faulty numbers, and a line that is too short. -/
def faultyText : String := "seq 1 2 # two\nprobe 0x+1 7x 4294967296\nseq 3"

/-- Points in hexadecimal and decimal, between blanks of all kinds. -/
theorem parse_exactly_mixedLines :
    parse ("\t# offset id\r\nseq 0x00 1\n\u00A0branch 0X1f +0 4294967295# last\r\n\n"
          ++ "seq\u3000007 0x+fF ")
        = .ok {
          statements := [{ offset := 0, id := 1 }, { offset := 7, id := 255 }]
          branches := [{ offset := 31, path := 0, id := 4294967295 }] }
      ∧ parse faultyText = .error (.malformed (.pointNumber 2 "7x")) := by
  obtain ⟨haccepts, hrefuses⟩ := parse_exactly
  constructor
  · have hwritten : List.Forall₂ WrittenAs mixedLines mixedEntries := by
      have hread : mixedLines.mapM (readLine 1) = .ok mixedEntries := by decide +kernel
      exact (mapM_eq_ok_iff.mp hread).imp fun _ _ => readLine_eq_ok_iff.mp
    have hlined : Lined mixedLines _ :=
      .ended (by decide +kernel) (.inr rfl) <| .ended (by decide +kernel) (.inl rfl) <|
        .ended (by decide +kernel) (.inr rfl) <| .ended (by decide +kernel) (.inl rfl) <|
          .last (by decide +kernel)
    have hparse := haccepts _ mixedEntries mixedLines _ (interleaved_iff.mpr rfl) hwritten hlined
    refine Eq.trans (congrArg parse ?_) hparse
    decide +kernel
  · have hfirst : IsNumber "0x+1".toList :=
      (isNumber_iff 2).mpr ⟨1, by decide +kernel⟩
    have hsecond : ¬ IsNumber "7x".toList := by
      have hread : readNumber 2 "7x".toList = .error (.malformed (.pointNumber 2 "7x")) := by
        decide +kernel
      exact (readNumber_eq_error_iff.mp hread).1
    have hline : readLine 1 "seq 1 2 # two".toList = .ok (.statement { offset := 1, id := 2 }) := by
      decide +kernel
    have hrefused : Refused 2 (["probe", "0x+1", "7x", "4294967296"].map String.toList)
        (.malformed (.pointNumber 2 "7x")) := by
      have h := @Refused.field 2 "probe".toList "7x".toList ["0x+1".toList] ["4294967296".toList]
        (by simpa using hfirst) hsecond
      rwa [String.ofList_toList] at h
    exact ((hrefuses faultyText).2 _).mpr ⟨["seq 1 2 # two".toList],
      "probe 0x+1 7x 4294967296".toList, ["seq 3".toList], _, by decide +kernel,
      by simpa using ⟨_, readLine_eq_ok_iff.mp hline⟩, written_iff.mpr (by decide +kernel),
      hrefused⟩

end CilCoverage.Points
