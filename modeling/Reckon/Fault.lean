/-!
  What can go wrong with a statement, sorted by cause: a character that fits no token, a token
  that fits no statement, an operation without a result. Each cause has one wording, and a fault
  of the whole run says first which of the three it is.
-/

namespace Reckon

/-- A character that no token starts with. -/
structure LexFault where
  character : Char
  position : Nat
  deriving DecidableEq, Repr

/-- The wording of a lexical fault. -/
def LexFault.message (f : LexFault) : String :=
  "unknown character `" ++ f.character.toString ++ "` at position " ++ toString f.position

/-- A token, found where the grammar or one of the limits has no room for it. -/
inductive SyntaxFault where
  /-- One kind of token could stand here, and another token does. -/
  | unexpectedToken (found expected : String) (position : Nat)
  /-- An operand has to begin here, and this token begins none. -/
  | unexpectedFactor (found : String) (position : Nat)
  /-- A statement has to begin here with the name that it assigns. -/
  | expectedIdentifier (found : String) (position : Nat)
  /-- The parenthesis or the operator at this place goes past the depth limit. -/
  | nestingTooDeep (limit position : Nat)
  /-- The number at this place is greater than every value. -/
  | integerOutOfRange (literal : String) (position : Nat)
  deriving DecidableEq, Repr

/-- The wording of a syntax fault, which ends with what could stand at its place, if that is one
kind of token. -/
def SyntaxFault.message : SyntaxFault → String
  | unexpectedToken found expected position =>
    "unexpected token " ++ found ++ " at position " ++ toString position ++ ", expected " ++
      expected
  | unexpectedFactor found position =>
    "unexpected factor " ++ found ++ " at position " ++ toString position
  | expectedIdentifier found position =>
    "expected identifier in assignment, found " ++ found ++ " at position " ++ toString position
  | nestingTooDeep limit position =>
    "expression nested deeper than " ++ toString limit ++ " levels at position " ++
      toString position
  | integerOutOfRange literal position =>
    "integer literal `" ++ literal ++ "` at position " ++ toString position ++ " is out of range"

/-- An operation on two values that has no value. -/
inductive RunFault where
  | divisionByZero
  /-- The exact result of the operation with this symbol lies outside the range of values. -/
  | overflow (left : Int) (symbol : Char) (right : Int)
  deriving DecidableEq, Repr

/-- The wording of a fault of an operation, with the operation itself if its result is too great
or too small. -/
def RunFault.message : RunFault → String
  | divisionByZero => "division by zero"
  | overflow left symbol right =>
    "integer overflow evaluating " ++ toString left ++ " " ++ symbol.toString ++ " " ++
      toString right

/-- Any fault of a statement, from its text to its value. -/
inductive Fault where
  | lexical (fault : LexFault)
  | grammatical (fault : SyntaxFault)
  | arithmetic (fault : RunFault)
  deriving DecidableEq, Repr

/-- The wording of a fault, behind the stage that it comes from. -/
def Fault.message : Fault → String
  | lexical f => "lex error: " ++ f.message
  | grammatical f => "parse error: " ++ f.message
  | arithmetic f => "runtime error: " ++ f.message

end Reckon
