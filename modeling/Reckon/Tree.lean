import Reckon.Operator

/-!
  Syntax trees and how they are written. A tree is a number, a variable, an operation on two
  trees or the assignment of a tree's value to a name. Every operation is written in parentheses
  of its own, so the text shows how the operators group.
-/

namespace Reckon

/-- A syntax tree. An assignment has a value too, so it can stand wherever a tree can. -/
inductive Tree where
  | number (value : Int)
  | var (name : String)
  | binary (op : Operator) (left right : Tree)
  | assign (name : String) (value : Tree)
  deriving DecidableEq, Repr

namespace Tree

/-- The text of a tree. -/
def text : Tree → String
  | number value => toString value
  | var name => name
  | binary op left right =>
    "(" ++ left.text ++ " " ++ op.symbol.toString ++ " " ++ right.text ++ ")"
  | assign name value => name ++ " = " ++ value.text

end Tree

end Reckon
