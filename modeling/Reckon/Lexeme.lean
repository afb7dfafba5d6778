import Reckon.Token

/-!
  The first lexeme of a text: the longest word or number, or one mark. `text_append_rest` says
  that a lexeme and what follows it are the text again, `text_ne_nil` that it is never empty, so
  reading lexeme after lexeme comes to an end, and `first?_eq_none_iff` that only a character
  outside the language (or a blank, or no character at all) starts none.
-/

namespace Reckon

/-- A lexeme at the start of a text, and the rest of that text. -/
structure Lexeme where
  kind : Token.Kind
  text : List Char
  rest : List Char
  deriving DecidableEq, Repr

namespace Lexeme

/-- The lexeme that a text starts with. A letter starts the longest run of letters and digits, a
digit the longest run of digits, and a mark stands alone. -/
def first? : List Char → Option Lexeme
  | [] => none
  | c :: cs =>
    if isLetter c then
      some ⟨.identifier, c :: cs.takeWhile isWordPart, cs.dropWhile isWordPart⟩
    else if isDigit c then
      some ⟨.number, c :: cs.takeWhile isDigit, cs.dropWhile isDigit⟩
    else
      (Token.Kind.ofMark? c).map fun kind => ⟨kind, [c], cs⟩

theorem first?_letter {c : Char} (h : isLetter c = true) (cs : List Char) :
    first? (c :: cs) =
      some ⟨.identifier, c :: cs.takeWhile isWordPart, cs.dropWhile isWordPart⟩ := by
  simp [first?, h]

theorem first?_digit {c : Char} (h : isDigit c = true) (cs : List Char) :
    first? (c :: cs) = some ⟨.number, c :: cs.takeWhile isDigit, cs.dropWhile isDigit⟩ := by
  have hl : isLetter c = false := by
    cases hc : isLetter c with
    | false => rfl
    | true => rw [not_digit_of_letter hc] at h; exact absurd h (by decide)
  simp [first?, h, hl]

theorem first?_mark {c : Char} {k : Token.Kind} (h : Token.Kind.ofMark? c = some k)
    (cs : List Char) : first? (c :: cs) = some ⟨k, [c], cs⟩ := by
  have hm : isMark c = true := by rw [← Token.Kind.isSome_ofMark?, h]; rfl
  have hw := not_wordPart_of_mark hm
  simp only [isWordPart, Bool.or_eq_false_iff] at hw
  simp [first?, hw.1, hw.2, h]

theorem text_append_rest {cs : List Char} {l : Lexeme} (h : first? cs = some l) :
    l.text ++ l.rest = cs := by
  cases cs with
  | nil => simp [first?] at h
  | cons c cs =>
    simp only [first?] at h
    split at h
    · cases h; simp
    · split at h
      · cases h; simp
      · obtain ⟨k, _, rfl⟩ := Option.map_eq_some_iff.mp h; rfl

theorem text_ne_nil {cs : List Char} {l : Lexeme} (h : first? cs = some l) : l.text ≠ [] := by
  cases cs with
  | nil => simp [first?] at h
  | cons c cs =>
    simp only [first?] at h
    split at h
    · cases h; simp
    · split at h
      · cases h; simp
      · obtain ⟨k, _, rfl⟩ := Option.map_eq_some_iff.mp h; simp

theorem length_rest_lt {cs : List Char} {l : Lexeme} (h : first? cs = some l) :
    l.rest.length < cs.length := by
  rw [← text_append_rest h, List.length_append]
  have := List.length_pos_iff.mpr (text_ne_nil h)
  omega

theorem kind_ne_ending {cs : List Char} {l : Lexeme} (h : first? cs = some l) :
    l.kind ≠ .ending := by
  cases cs with
  | nil => simp [first?] at h
  | cons c cs =>
    simp only [first?] at h
    split at h
    · cases h; simp
    · split at h
      · cases h; simp
      · obtain ⟨k, hk, rfl⟩ := Option.map_eq_some_iff.mp h
        rintro rfl
        simp [Token.Kind.ofMark?_eq_some_iff, Token.Kind.mark?] at hk

/-- A text whose first character is no blank starts no lexeme exactly if that is foreign. -/
theorem first?_cons_eq_none_iff {c : Char} {cs : List Char} (hb : isBlank c = false) :
    first? (c :: cs) = none ↔ isForeign c = true := by
  have hm := Token.Kind.isSome_ofMark? c
  cases hl : isLetter c <;> cases hd : isDigit c <;> cases ho : Token.Kind.ofMark? c <;>
    simp_all [first?, isForeign]

end Lexeme

end Reckon
