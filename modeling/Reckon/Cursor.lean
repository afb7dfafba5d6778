import Reckon.Fault
import Reckon.Lexeme

/-!
  A cursor stands in a text and reads one token at a time. It knows the characters that it has
  still to read and the index of the first of them. Reading skips blanks, also when nothing
  legible follows them; at the end of the text it yields the ending over and over, and at a
  foreign character the same fault over and over. Reading a token moves the cursor forward
  (`length_rest_lt_of_read`).
-/

namespace Reckon

/-- A place in a text: what follows it and how many characters come before it. -/
structure Cursor where
  rest : List Char
  position : Nat
  deriving DecidableEq, Repr

namespace Cursor

/-- The cursor at the start of a text. -/
def ofString (text : String) : Cursor := ⟨text.toList, 0⟩

/-- Moves past the blanks at the cursor. -/
def skipBlanks (c : Cursor) : Cursor :=
  ⟨c.rest.dropWhile isBlank, c.position + (c.rest.takeWhile isBlank).length⟩

/-- Moves past a lexeme at the cursor. -/
def skip (c : Cursor) (l : Lexeme) : Cursor := ⟨l.rest, c.position + l.text.length⟩

/-- The token that a lexeme at the cursor makes. -/
def token (c : Cursor) (l : Lexeme) : Token := ⟨l.kind, String.ofList l.text, c.position⟩

/-- Reads what stands at the cursor, which has no blank there. -/
def readHere : EStateM LexFault Cursor Token := fun c =>
  match c.rest with
  | [] => .ok (.ending c.position) c
  | x :: _ =>
    match Lexeme.first? c.rest with
    | some l => .ok (c.token l) (c.skip l)
    | none => .error ⟨x, c.position⟩ c

/-- Reads the next token. -/
def read : EStateM LexFault Cursor Token := fun c => readHere c.skipBlanks

theorem length_skipBlanks_le (c : Cursor) : c.skipBlanks.rest.length ≤ c.rest.length :=
  (List.dropWhile_sublist _).length_le

theorem skipBlanks_skipBlanks (c : Cursor) : c.skipBlanks.skipBlanks = c.skipBlanks := by
  have h : ∀ cs : List Char, (cs.dropWhile isBlank).takeWhile isBlank = [] := by
    intro cs
    induction cs with
    | nil => rfl
    | cons x cs ih =>
      rw [List.dropWhile_cons]; split
      · exact ih
      · next hx => simp [hx]
  have h' := List.takeWhile_append_dropWhile (p := isBlank) (l := c.rest.dropWhile isBlank)
  rw [h, List.nil_append] at h'
  simp [skipBlanks, h, h']

theorem length_rest_lt_of_readHere {c c' : Cursor} {t : Token} (h : readHere c = .ok t c')
    (hk : t.kind ≠ .ending) : c'.rest.length < c.rest.length := by
  unfold readHere at h
  split at h
  · cases h; exact absurd rfl hk
  · split at h
    · next hl => cases h; exact Lexeme.length_rest_lt hl
    · cases h

/-- A token other than the ending takes at least one character. -/
theorem length_rest_lt_of_read {c c' : Cursor} {t : Token} (h : c.read = .ok t c')
    (hk : t.kind ≠ .ending) : c'.rest.length < c.rest.length :=
  Nat.lt_of_lt_of_le (length_rest_lt_of_readHere h hk) (length_skipBlanks_le c)

end Cursor

end Reckon
