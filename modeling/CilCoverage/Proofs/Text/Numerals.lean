import CilCoverage.Text.Numeral
import Mathlib.Data.List.Forall2
import Mathlib.Data.Nat.Digits.Defs
import Mathlib.Tactic.Ring

/-!
# What numerals denote

`Numeral` says which texts are numerals and of which numbers, without regard to how they are read:
digits in either letter case behind at most one `+`, in base sixteen behind `0x` or `0X` and in base
ten otherwise. A row of digits denotes its positional value, so zeros may lead it.

`readNumeral_eq_ok_iff` says that exactly the numerals of numbers below the bound are read. Reading
stops at the first digit with which the bound is reached. That refuses no more than a comparison at
the end would, since digits never make a number smaller.
-/

set_option autoImplicit false

namespace CilCoverage.Text

/-- A character that is a digit of a base up to sixteen, in either letter case. -/
def Digit (base : Nat) (character : Char) (digit : Nat) : Prop :=
  digit < base ∧ (character = digit.digitChar ∨ character = digit.digitChar.toUpper)

/-- A row of digits, the highest first, and the number it denotes. -/
def Denotes (base : Nat) (characters : List Char) (value : Nat) : Prop :=
  ∃ digits, List.Forall₂ (Digit base) characters digits ∧ value = Nat.ofDigits base digits.reverse

/-- Some digits behind at most one `+`. -/
def SignedDenotes (base : Nat) (text : List Char) (value : Nat) : Prop :=
  ∃ sign characters, (sign = [] ∨ sign = ['+']) ∧ characters ≠ [] ∧ text = sign ++ characters
    ∧ Denotes base characters value

/-- A decimal or hexadecimal numeral and its number. -/
inductive Numeral : List Char → Nat → Prop
  | decimal {text : List Char} {value : Nat} : SignedDenotes 10 text value → Numeral text value
  | hexadecimal {mark : Char} {text : List Char} {value : Nat} : mark = 'x' ∨ mark = 'X' →
    SignedDenotes 16 text value → Numeral ('0' :: mark :: text) value

/-- Exactly the digits of the base have a value. -/
theorem digitValue?_eq_some_iff {base : Nat} (hbase : base ≤ 16) {character : Char} {digit : Nat} :
    digitValue? base character = some digit ↔ Digit base character digit := by
  have hbelow : digitValue? base character = some digit
      ↔ digitValue? 16 character = some digit ∧ digit < base := by
    simp only [digitValue?]
    grind
  have hchar : ∀ digit : Fin 16, digitValue? 16 digit.val.digitChar = some digit.val
      ∧ digitValue? 16 digit.val.digitChar.toUpper = some digit.val := by
    decide
  have hcode : ∀ code : Fin 128, ∀ digit ∈ digitValue? 16 (Char.ofNat code),
      Char.ofNat code = digit.digitChar ∨ Char.ofNat code = digit.digitChar.toUpper := by
    decide +kernel
  rw [hbelow]
  constructor
  · rintro ⟨hvalue, hlt⟩
    have hascii : character.toNat < 128 := by
      simp only [digitValue?] at hvalue
      grind
    have hfound := hcode ⟨character.toNat, hascii⟩ digit
    rw [Char.ofNat_toNat] at hfound
    exact ⟨hlt, hfound hvalue⟩
  · rintro ⟨hlt, rfl | rfl⟩
    · exact ⟨(hchar ⟨digit, hlt.trans_le hbase⟩).1, hlt⟩
    · exact ⟨(hchar ⟨digit, hlt.trans_le hbase⟩).2, hlt⟩

/-- Appending digits one after the other gives the positional value. -/
theorem ofDigits_reverse_cons (base value digit : Nat) (digits : List Nat) :
    value * base ^ (digits.length + 1) + Nat.ofDigits base (digit :: digits).reverse
      = (value * base + digit) * base ^ digits.length + Nat.ofDigits base digits.reverse := by
  rw [List.reverse_cons, Nat.ofDigits_append, Nat.ofDigits_singleton, List.length_reverse]
  ring

section Reading

variable {base bound value result : Nat} {characters text : List Char}

/-- What is read is the given number with the digits appended to it. -/
theorem readDigits_eq_ok_iff (hpos : 0 < base) (hbase : base ≤ 16) (hvalue : value < bound) :
    readDigits base bound value characters = .ok result
      ↔ (∃ digits, List.Forall₂ (Digit base) characters digits
          ∧ result = value * base ^ digits.length + Nat.ofDigits base digits.reverse)
        ∧ result < bound := by
  induction characters generalizing value with
  | nil =>
    constructor
    · rintro ⟨⟩
      exact ⟨⟨[], .nil, by simp⟩, hvalue⟩
    · rintro ⟨⟨digits, ⟨⟩, rfl⟩, -⟩
      simp [readDigits]
  | cons character rest ih =>
    rw [readDigits]
    cases hfound : digitValue? base character with
    | none =>
      constructor
      · nofun
      · rintro ⟨⟨digits, hdigits, -⟩, -⟩
        obtain ⟨digit, _, hdigit, -, -⟩ := List.forall₂_cons_left_iff.mp hdigits
        rw [(digitValue?_eq_some_iff hbase).mpr hdigit] at hfound
        cases hfound
    | some digit =>
      show (if value * base + digit < bound then _ else _) = _ ↔ _
      constructor
      · intro hread
        split at hread
        next hlt =>
          obtain ⟨⟨digits, hdigits, hresult⟩, hbelow⟩ := (ih hlt).mp hread
          refine ⟨⟨digit :: digits, .cons ((digitValue?_eq_some_iff hbase).mp hfound) hdigits, ?_⟩,
            hbelow⟩
          rw [List.length_cons, ofDigits_reverse_cons, hresult]
        · cases hread
      · rintro ⟨⟨_, hall, hresult⟩, hbelow⟩
        obtain ⟨other, digits, hother, hdigits, rfl⟩ := List.forall₂_cons_left_iff.mp hall
        rw [(digitValue?_eq_some_iff hbase).mpr hother] at hfound
        obtain rfl := Option.some.inj hfound
        rw [List.length_cons, ofDigits_reverse_cons] at hresult
        -- Digits never make a number smaller, so a result below the bound was below it all along.
        have hgrows : value * base + other ≤ (value * base + other) * base ^ digits.length :=
          Nat.le_mul_of_pos_right _ (Nat.pow_pos hpos)
        have hlt : value * base + other < bound := by omega
        rw [if_pos hlt]
        exact (ih hlt).mpr ⟨⟨digits, hdigits, hresult⟩, hbelow⟩

/-- Every character of a row of digits is a digit. -/
theorem Denotes.digitValue?_ne_none (h : Denotes base characters result) (hbase : base ≤ 16)
    {character : Char} (hmem : character ∈ characters) : digitValue? base character ≠ none := by
  obtain ⟨digits, hdigits, -⟩ := h
  induction hdigits with
  | nil => cases hmem
  | cons hdigit _ ih =>
    cases hmem with
    | head =>
      rw [(digitValue?_eq_some_iff hbase).mpr hdigit]
      nofun
    | tail _ hmem => exact ih hmem

/-- A sign is no digit. -/
theorem digitValue?_sign (base : Nat) : digitValue? base '+' = none := by
  simp [digitValue?]

/-- Behind a sign there are plain digits. -/
theorem signedDenotes_sign_iff (hbase : base ≤ 16) :
    SignedDenotes base ('+' :: characters) result
      ↔ characters ≠ [] ∧ Denotes base characters result := by
  constructor
  · rintro ⟨_, digits, rfl | rfl, hne, htext, hdenotes⟩
    · obtain rfl : '+' :: characters = digits := htext
      exact absurd (digitValue?_sign base)
        (hdenotes.digitValue?_ne_none hbase List.mem_cons_self)
    · obtain rfl := (List.cons.inj htext).2
      exact ⟨hne, hdenotes⟩
  · rintro ⟨hne, hdenotes⟩
    exact ⟨['+'], characters, .inr rfl, hne, rfl, hdenotes⟩

/-- Without a sign there are plain digits only. -/
theorem signedDenotes_iff (hplain : ∀ rest, text ≠ '+' :: rest) :
    SignedDenotes base text result ↔ text ≠ [] ∧ Denotes base text result := by
  constructor
  · rintro ⟨_, digits, rfl | rfl, hne, rfl, hdenotes⟩
    · exact ⟨hne, hdenotes⟩
    · exact absurd rfl (hplain digits)
  · rintro ⟨hne, hdenotes⟩
    exact ⟨[], text, .inl rfl, hne, rfl, hdenotes⟩

/-- Digits are read as the number they denote, if that is below the bound. -/
theorem readSignedDigits_eq_ok_iff (hpos : 0 < base) (hbase : base ≤ 16) (hbound : 0 < bound) :
    readSignedDigits base bound text = .ok result
      ↔ SignedDenotes base text result ∧ result < bound := by
  have hdigits (characters : List Char) :
      readDigits base bound 0 characters = .ok result
        ↔ Denotes base characters result ∧ result < bound := by
    simp only [readDigits_eq_ok_iff hpos hbase hbound, Denotes, Nat.zero_mul, Nat.zero_add]
  rw [readSignedDigits.eq_def]
  split
  · have hplain : ∀ rest : List Char, [] ≠ '+' :: rest := nofun
    rw [signedDenotes_iff hplain]
    simp
  · rw [signedDenotes_sign_iff hbase]
    simp
  next rest hsome =>
    have hne : rest ≠ [] := fun h => hsome h
    rw [hdigits, signedDenotes_sign_iff hbase, and_iff_right hne]
  next hsome _ hplain =>
    have hne : text ≠ [] := fun h => hsome h
    rw [hdigits, signedDenotes_iff hplain, and_iff_right hne]

/-- The mark of hexadecimal digits is no decimal digit, so it leaves one way to read on. -/
theorem numeral_hexadecimal_iff {mark : Char} (hmark : mark = 'x' ∨ mark = 'X') :
    Numeral ('0' :: mark :: text) result ↔ SignedDenotes 16 text result := by
  constructor
  · rintro (hdecimal | ⟨-, hdenotes⟩)
    · obtain ⟨-, hdenotes⟩ := (signedDenotes_iff fun rest h => by cases h).mp hdecimal
      have hnone : digitValue? 10 mark = none := by rcases hmark with rfl | rfl <;> decide
      exact absurd hnone (hdenotes.digitValue?_ne_none (by decide) (by simp))
    · exact hdenotes
  · exact .hexadecimal hmark

/-- The numerals of numbers below the bound are read, as those numbers, and nothing else is. -/
theorem readNumeral_eq_ok_iff (hbound : 0 < bound) :
    readNumeral bound text = .ok result ↔ Numeral text result ∧ result < bound := by
  rw [readNumeral.eq_def]
  split
  · rw [readSignedDigits_eq_ok_iff (by decide) (by decide) hbound,
      numeral_hexadecimal_iff (.inl rfl)]
  · rw [readSignedDigits_eq_ok_iff (by decide) (by decide) hbound,
      numeral_hexadecimal_iff (.inr rfl)]
  next hlower hupper =>
    have hdecimal : Numeral text result ↔ SignedDenotes 10 text result := by
      constructor
      · rintro (hdenotes | ⟨rfl | rfl, -⟩)
        · exact hdenotes
        · exact absurd rfl (hlower _)
        · exact absurd rfl (hupper _)
      · exact .decimal
    rw [readSignedDigits_eq_ok_iff (by decide) (by decide) hbound, hdecimal]

end Reading

end CilCoverage.Text
