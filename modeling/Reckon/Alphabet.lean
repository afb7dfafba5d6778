/-!
  The characters of the statement language: blanks separate tokens, letters and digits make
  words and numbers, a mark is a token of its own, and every other character is foreign.
  The four classes have no character in common (`not_blank_of_letter` and its companions), so
  the first character of a lexeme settles what it is.
-/

namespace Reckon

/-- A blank is a space, a tab, a line feed, a vertical tab, a form feed or a carriage return. -/
def isBlank (c : Char) : Bool :=
  c == ' ' || c == '\t' || c == '\n' || c == '\x0b' || c == '\x0c' || c == '\r'

/-- Letters are the fifty-two ASCII ones. -/
def isLetter (c : Char) : Bool := c.isAlpha

/-- Digits are the ten ASCII ones. -/
def isDigit (c : Char) : Bool := c.isDigit

/-- A word goes on with letters and digits. -/
def isWordPart (c : Char) : Bool := isLetter c || isDigit c

/-- The eight marks are the operators, the equals sign, the parentheses and the semicolon. -/
def isMark (c : Char) : Bool :=
  c == '+' || c == '-' || c == '*' || c == '/' || c == '=' || c == '(' || c == ')' || c == ';'

/-- A foreign character belongs to no class, so no token can hold it. -/
def isForeign (c : Char) : Bool := !(isBlank c || isLetter c || isDigit c || isMark c)

/-! ## The classes are disjoint -/

theorem eq_of_blank {c : Char} (h : isBlank c = true) :
    c = ' ' ∨ c = '\t' ∨ c = '\n' ∨ c = '\x0b' ∨ c = '\x0c' ∨ c = '\r' := by
  simpa [isBlank, or_assoc] using h

theorem eq_of_mark {c : Char} (h : isMark c = true) :
    c = '+' ∨ c = '-' ∨ c = '*' ∨ c = '/' ∨ c = '=' ∨ c = '(' ∨ c = ')' ∨ c = ';' := by
  simpa [isMark, or_assoc] using h

theorem not_wordPart_of_blank {c : Char} (h : isBlank c = true) : isWordPart c = false := by
  rcases eq_of_blank h with rfl | rfl | rfl | rfl | rfl | rfl <;> decide

theorem not_mark_of_blank {c : Char} (h : isBlank c = true) : isMark c = false := by
  rcases eq_of_blank h with rfl | rfl | rfl | rfl | rfl | rfl <;> decide

theorem not_wordPart_of_mark {c : Char} (h : isMark c = true) : isWordPart c = false := by
  rcases eq_of_mark h with rfl | rfl | rfl | rfl | rfl | rfl | rfl | rfl <;> decide

theorem not_blank_of_wordPart {c : Char} (h : isWordPart c = true) : isBlank c = false := by
  cases hb : isBlank c with
  | false => rfl
  | true => rw [not_wordPart_of_blank hb] at h; exact absurd h (by decide)

theorem wordPart_of_letter {c : Char} (h : isLetter c = true) : isWordPart c = true := by
  simp [isWordPart, h]

theorem wordPart_of_digit {c : Char} (h : isDigit c = true) : isWordPart c = true := by
  simp [isWordPart, h]

theorem not_blank_of_letter {c : Char} (h : isLetter c = true) : isBlank c = false :=
  not_blank_of_wordPart (wordPart_of_letter h)

theorem not_blank_of_digit {c : Char} (h : isDigit c = true) : isBlank c = false :=
  not_blank_of_wordPart (wordPart_of_digit h)

theorem not_blank_of_mark {c : Char} (h : isMark c = true) : isBlank c = false := by
  cases hb : isBlank c with
  | false => rfl
  | true => rw [not_mark_of_blank hb] at h; exact absurd h (by decide)

/-- The letters are two rows of characters. -/
theorem isLetter_iff {c : Char} :
    isLetter c = true ↔ ('A' ≤ c ∧ c ≤ 'Z') ∨ ('a' ≤ c ∧ c ≤ 'z') := by
  change (decide (c.val ≥ 'A'.val ∧ c.val ≤ 'Z'.val) ||
    (decide (c.val ≥ 'a'.val) && decide (c.val ≤ 'z'.val))) = true ↔ _
  simp only [Bool.or_eq_true, Bool.and_eq_true, decide_eq_true_eq, Char.le_def, ge_iff_le]

/-- Letters come after the digits. -/
theorem nine_lt_letter {c : Char} (h : isLetter c = true) : '9'.toNat < c.toNat := by
  simp only [isLetter_iff, Char.le_def, UInt32.le_iff_toNat_le] at h
  have hupper : 'A'.val.toNat = 65 := rfl
  have hlower : 'a'.val.toNat = 97 := rfl
  change 57 < c.val.toNat
  omega

theorem not_digit_of_letter {c : Char} (h : isLetter c = true) : isDigit c = false := by
  have hlt := nine_lt_letter h
  cases hd : isDigit c with
  | false => rfl
  | true =>
    have hle := (Char.isDigit_iff_toNat.mp hd).2
    omega

theorem not_letter_of_digit {c : Char} (h : isDigit c = true) : isLetter c = false := by
  cases hl : isLetter c with
  | false => rfl
  | true => rw [not_digit_of_letter hl] at h; exact absurd h (by decide)

end Reckon
