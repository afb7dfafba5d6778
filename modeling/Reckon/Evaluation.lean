import Reckon.Store
import Reckon.Tree

/-!
  The value of a tree over a store. Operands are evaluated from left to right and the first fault
  ends the evaluation. An assignment changes the store when its value is known, so assignments
  that were complete before a fault stay. A variable without a value reads zero and is not added.
-/

namespace Reckon

/-- A step of the evaluation; a fault too leaves a store behind. -/
abbrev Evaluation := EStateM RunFault Store

/-- Applies an operator to two values. -/
def Operator.evaluate (op : Operator) (a b : Int) : Evaluation Int :=
  match op.apply a b with
  | .ok n => pure n
  | .error f => throw f

/-- The value of a tree. -/
def Tree.eval : Tree → Evaluation Int
  | .number value => pure value
  | .var name => do return (← get).read name
  | .binary op left right => do
    let a ← left.eval
    let b ← right.eval
    op.evaluate a b
  | .assign name value => do
    let n ← value.eval
    modify fun s => s.insert name n
    return n

namespace Tree

/-! ## Trees with parts over a store -/

theorem eval_binary (op : Operator) (left right : Tree) (s : Store) :
    (binary op left right).eval s =
      match left.eval s with
      | .error f s => .error f s
      | .ok a s =>
        match right.eval s with
        | .error f s => .error f s
        | .ok b s =>
          match op.apply a b with
          | .ok n => .ok n s
          | .error f => .error f s := by
  simp only [eval, bind, EStateM.bind]
  cases left.eval s with
  | error f s => rfl
  | ok a s =>
    dsimp only
    cases right.eval s with
    | error f s => rfl
    | ok b s =>
      dsimp only [Operator.evaluate]
      cases op.apply a b <;> rfl

theorem eval_assign (name : String) (value : Tree) (s : Store) :
    (assign name value).eval s =
      match value.eval s with
      | .error f s => .error f s
      | .ok n s => .ok n (s.insert name n) := by
  simp only [eval, bind, EStateM.bind]
  cases value.eval s <;> rfl

end Tree

end Reckon
