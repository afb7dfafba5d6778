import Reckon.Cursor

/-!
  The tokens ahead of a cursor, all at once: finitely many tokens, and then either the end of the
  text or a foreign character. Read one by one, a stream never runs out, since its ending is
  repeated for ever. `Cursor.stream_eq` ties the stream to the reading of the cursor, and
  `tokenize` is the stream of a whole text, if no foreign character ends it.
-/

namespace Reckon

/-- Tokens in order, and what comes for ever after them: the end of the text at a position, or a
foreign character. -/
structure TokenStream where
  tokens : List Token
  ending : Except LexFault Nat
  deriving Repr

namespace TokenStream

/-- Puts a token in front. -/
def cons (t : Token) (s : TokenStream) : TokenStream := { s with tokens := t :: s.tokens }

/-- Reads the first token, or the ending if there is none; the ending stays. -/
def next : EStateM LexFault TokenStream Token := fun s =>
  match s.tokens with
  | t :: rest => .ok t { s with tokens := rest }
  | [] =>
    match s.ending with
    | .ok position => .ok (.ending position) s
    | .error f => .error f s

/-- All tokens of a stream that ends with the text. -/
def toExcept (s : TokenStream) : Except LexFault (List Token) := s.ending.map fun _ => s.tokens

theorem next_cons (t : Token) (s : TokenStream) : next (s.cons t) = .ok t s := rfl

end TokenStream

namespace Cursor

/-- All tokens ahead of a cursor. -/
def stream (c : Cursor) : TokenStream :=
  match _h : c.read with
  | .error f _ => ⟨[], .error f⟩
  | .ok t c' =>
    if _hk : t.kind = .ending then ⟨[], .ok t.position⟩
    else c'.stream.cons t
termination_by c.rest.length
decreasing_by exact length_rest_lt_of_read ‹_› ‹_›

/-- The stream of a cursor, by what the cursor reads next. -/
theorem stream_eq (c : Cursor) :
    c.stream =
      match c.read with
      | .error f _ => ⟨[], .error f⟩
      | .ok t c' => if t.kind = .ending then ⟨[], .ok t.position⟩ else c'.stream.cons t := by
  rw [stream]
  split <;> simp_all

end Cursor

/-- All tokens of a text, or the fault of its first foreign character. -/
def tokenize (text : String) : Except LexFault (List Token) :=
  (Cursor.ofString text).stream.toExcept

end Reckon
