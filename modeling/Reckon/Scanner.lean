import Reckon.Cursor

/-!
  A scanner is a cursor with two ways of reading. `read` yields token after token and repeats the
  ending, or the fault of a foreign character, for ever. `next?` yields the tokens of a finite
  sequence: it stops for good once it has met the ending or reported a fault. The two share the
  cursor, but `read` neither looks at nor sets the mark that the sequence is finished.
-/

namespace Reckon

/-- A cursor, and whether the sequence of its tokens has ended. -/
structure Scanner where
  cursor : Cursor
  finished : Bool := false
  deriving DecidableEq, Repr

namespace Scanner

/-- A scanner at the start of a text. -/
def ofString (text : String) : Scanner := ⟨.ofString text, false⟩

/-- Reads the next token, be the sequence finished or not. -/
def read : EStateM LexFault Scanner Token := fun s =>
  match s.cursor.read with
  | .ok t c => .ok t { s with cursor := c }
  | .error f c => .error f { s with cursor := c }

/-- The next member of the sequence, `none` from its end on. -/
def next? (s : Scanner) : Option (Except LexFault Token) × Scanner :=
  if s.finished then (none, s)
  else
    match s.cursor.read with
    | .error f c => (some (.error f), ⟨c, true⟩)
    | .ok t c => if t.kind = .ending then (none, ⟨c, true⟩) else (some (.ok t), ⟨c, false⟩)

/-- Once finished, the sequence yields nothing and the cursor stays. -/
theorem next?_of_finished {s : Scanner} (h : s.finished = true) : s.next? = (none, s) := by
  simp [next?, h]

end Scanner

end Reckon
