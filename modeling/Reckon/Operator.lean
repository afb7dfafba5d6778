import Reckon.Fault
import Reckon.Integer
import Reckon.Token

/-!
  The four operators: which token writes each, how tightly it binds, and what it computes. A
  result is a value of the language or it is none; division drops the fraction, toward zero, and
  a division by zero is told apart from a result outside the range.
-/

namespace Reckon

/-- An operator between two operands. -/
inductive Operator where
  | add
  | subtract
  | multiply
  | divide
  deriving DecidableEq, Repr

namespace Operator

/-- The character that writes an operator. -/
def symbol : Operator → Char
  | add => '+'
  | subtract => '-'
  | multiply => '*'
  | divide => '/'

/-- The operator that a token between terms writes. -/
def additive : Token.Kind → Option Operator
  | .plus => some add
  | .minus => some subtract
  | _ => none

/-- The operator that a token between factors writes. -/
def multiplicative : Token.Kind → Option Operator
  | .times => some multiply
  | .slash => some divide
  | _ => none

/-- The result as a value, if there is one. A division by zero has none, and neither has an
operation whose result lies outside the range. -/
def checked : Operator → Int → Int → Option Int
  | add, a, b => Integer.ofInt? (a + b)
  | subtract, a, b => Integer.ofInt? (a - b)
  | multiply, a, b => Integer.ofInt? (a * b)
  | divide, a, b => if b = 0 then none else Integer.ofInt? (a.tdiv b)

/-- The result of the operation, or why there is none. A divisor of zero is looked at first. -/
def apply (op : Operator) (a b : Int) : Except RunFault Int :=
  if op = divide ∧ b = 0 then .error .divisionByZero
  else
    match op.checked a b with
    | some n => .ok n
    | none => .error (.overflow a op.symbol b)

theorem symbol_injective {p q : Operator} (h : p.symbol = q.symbol) : p = q := by
  revert h; cases p <;> cases q <;> decide

end Operator

end Reckon
