import Reckon.TokenStream
import Reckon.Tree

/-!
  The parser reads statements of the form `name = expression ;` where

    expression := term (('+' | '-') term)*
    term       := factor (('*' | '/') factor)*
    factor     := NUMBER | IDENTIFIER | '(' expression ')'

  and the operators of one level group to the left. It looks one token ahead, and it can be asked
  for one statement after the other: what it keeps in between, also after a fault, is the token
  at hand, the tokens ahead and the count of groups that were entered and not completed.

  Two limits hold, both of `maxDepth`: so many groups may be open at a time, and so high may the
  tree of an expression grow. The first is checked at the opening parenthesis, and with it the
  recursion of `expressionWithin` can go down only so many levels; the second is checked when an
  operator joins two operands, and with it `chainFrom` comes to an end.
-/

namespace Reckon

/-- The greatest height of an expression's tree, and the greatest number of open groups. -/
def maxDepth : Nat := 256

/-- The token at hand, the tokens after it, and how many groups are open. -/
structure Parser where
  current : Token
  ahead : TokenStream
  nesting : Nat := 0
  deriving Repr

/-- A step of the parser; a fault too leaves a parser behind. -/
abbrev Parsing := EStateM Fault Parser

/-- The tree of a part of an expression, and its height. -/
structure Subtree where
  tree : Tree
  height : Nat
  deriving DecidableEq, Repr

namespace Subtree

/-- A tree without operators. -/
def leaf (tree : Tree) : Subtree := ⟨tree, 1⟩

/-- The tree of an operation, one higher than its higher operand. -/
def join (op : Operator) (left right : Subtree) : Subtree :=
  ⟨.binary op left.tree right.tree, max left.height right.height + 1⟩

theorem height_lt_height_join (op : Operator) (left right : Subtree) :
    left.height < (left.join op right).height := by
  simp only [join]; omega

end Subtree

namespace Parser

/-! ## Single tokens -/

/-- A parser whose token at hand is the first of a stream. -/
def start (s : TokenStream) : Except Fault Parser :=
  match s.next with
  | .ok t ahead => .ok { current := t, ahead }
  | .error f _ => .error (.lexical f)

/-- A parser at the start of a text. -/
def ofString (text : String) : Except Fault Parser := start (Cursor.ofString text).stream

/-- Goes on to the next token. A foreign character leaves the token at hand where it is. -/
def advance : Parsing Unit := fun p =>
  match p.ahead.next with
  | .ok t ahead => .ok () { p with current := t, ahead }
  | .error f ahead => .error (.lexical f) { p with ahead }

/-- Takes the text out of the token at hand, which stays there without it until the next token is
read. -/
def takeText : Parsing String := fun p =>
  .ok p.current.text { p with current := { p.current with text := "" } }

/-- Goes past a token of this kind, which has to be at hand. -/
def expect (kind : Token.Kind) : Parsing Unit := do
  let t := (← get).current
  if t.kind = kind then advance
  else throw (.grammatical (.unexpectedToken t.describe kind.phrase t.position))

theorem expect_eq (kind : Token.Kind) (p : Parser) :
    expect kind p =
      if p.current.kind = kind then advance p
      else
        .error (.grammatical
          (.unexpectedToken p.current.describe kind.phrase p.current.position)) p := by
  change (if p.current.kind = kind then advance else throw _ : Parsing Unit) p = _
  split <;> rfl

/-- The fault of the parenthesis or operator that goes past the depth limit. -/
def tooDeep (position : Nat) : Fault := .grammatical (.nestingTooDeep maxDepth position)

/-! ## Expressions -/

/-- Goes past a number and takes its value. -/
def number : Parsing Subtree := do
  let t := (← get).current
  match Integer.ofLiteral? t.text with
  | some value => advance; return .leaf (.number value)
  | none => throw (.grammatical (.integerOutOfRange t.text t.position))

/-- Goes past an identifier and takes it as a variable. -/
def variableName : Parsing Subtree := do
  let name ← takeText
  advance
  return .leaf (.var name)

/-- Reads a group in parentheses. It counts as open until its inside is complete. -/
def group (inside : Parsing Subtree) : Parsing Subtree := do
  let p ← get
  if maxDepth ≤ p.nesting then throw (tooDeep p.current.position)
  else
    advance
    modify fun p => { p with nesting := p.nesting + 1 }
    let s ← inside
    modify fun p => { p with nesting := p.nesting - 1 }
    expect .rightParen
    return s

/-- Reads an operand without operators outside parentheses. -/
def factor (inside : Parsing Subtree) : Parsing Subtree := do
  let t := (← get).current
  match t.kind with
  | .number => number
  | .identifier => variableName
  | .leftParen => group inside
  | _ => throw (.grammatical (.unexpectedFactor t.describe t.position))

/-- Goes on from a left operand as long as an operator of one level is at hand, and joins each
next operand to what was read before it. -/
def chainFrom (level : Token.Kind → Option Operator) (operand : Parsing Subtree)
    (left : Subtree) : Parsing Subtree := do
  let t := (← get).current
  match level t.kind with
  | none => return left
  | some op =>
    advance
    let right ← operand
    if _h : (left.join op right).height ≤ maxDepth then
      chainFrom level operand (left.join op right)
    else throw (tooDeep t.position)
termination_by maxDepth + 1 - left.height
decreasing_by
  have := left.height_lt_height_join op right
  omega

/-- Reads operands of one level with the operators between them. -/
def chain (level : Token.Kind → Option Operator) (operand : Parsing Subtree) :
    Parsing Subtree := do
  chainFrom level operand (← operand)

/-- Reads factors and the operators between them. -/
def term (inside : Parsing Subtree) : Parsing Subtree :=
  chain Operator.multiplicative (factor inside)

/-- Reads terms and the operators between them; `inside` reads what stands in a group. -/
def sum (inside : Parsing Subtree) : Parsing Subtree :=
  chain Operator.additive (term inside)

/-- Reads an expression with groups in it, so many levels down; `below` stands for the levels
beneath. -/
def expressionWithin (below : Parsing Subtree) : Nat → Parsing Subtree
  | 0 => below
  | levels + 1 => sum (expressionWithin below levels)

/-- Reads an expression. One level more than there can be open groups is enough, so what is put
beneath the last one does not matter. -/
def expression : Parsing Subtree :=
  expressionWithin (do throw (tooDeep (← get).current.position)) (maxDepth + 1)

/-! ## Statements -/

/-- Goes past the name that a statement assigns. -/
def target : Parsing String := do
  let t := (← get).current
  if t.kind = .identifier then
    let name ← takeText
    advance
    return name
  else throw (.grammatical (.expectedIdentifier t.describe t.position))

/-- Reads one statement. What follows its semicolon is only looked at, for one token. -/
def statement : Parsing Tree := do
  let name ← target
  expect .equals
  let value ← expression
  expect .semicolon
  return .assign name value.tree

end Parser

/-- The tree of the statement that a text starts with. -/
def parse (text : String) : Except Fault Tree :=
  match Parser.ofString text with
  | .error f => .error f
  | .ok p =>
    match Parser.statement.run p with
    | .ok tree _ => .ok tree
    | .error f _ => .error f

end Reckon
