import Reckon.Evaluation
import Reckon.Parser

/-!
  A session runs statement after statement over one store. A statement that cannot be read leaves
  the store alone. `execute` runs one statement over an empty store and keeps the result together
  with the store, and `Outcome.report` writes both, a line for the result and one for each name.
-/

namespace Reckon

/-- A step of a session; a fault too leaves a store behind. -/
abbrev Session := EStateM Fault Store

namespace Session

/-- Evaluates a tree over the session's store. -/
def interpret (tree : Tree) : Session Int := EStateM.adaptExcept Fault.arithmetic tree.eval

/-- Runs the statement that a text starts with. -/
def run (source : String) : Session Int :=
  match parse source with
  | .ok tree => interpret tree
  | .error f => throw f

theorem interpret_eq (tree : Tree) (s : Store) :
    interpret tree s =
      match tree.eval s with
      | .ok n s => .ok n s
      | .error f s => .error (.arithmetic f) s := by
  simp only [interpret, EStateM.adaptExcept]
  cases tree.eval s <;> rfl

/-- A text that starts with a statement is run as that statement's tree. -/
theorem run_of_parse_eq_ok {source : String} {tree : Tree} (h : parse source = .ok tree) :
    run source = interpret tree := by
  simp [run, h]

/-- A text that starts with no statement leaves the store alone. -/
theorem run_of_parse_eq_error {source : String} {f : Fault} (h : parse source = .error f)
    (s : Store) : run source s = .error f s := by
  simp [run, h]; rfl

end Session

/-- What a statement leaves behind: its value and the store. -/
structure Outcome where
  result : Int
  store : Store

namespace Outcome

/-- A line that gives the value of a name. -/
def line (entry : String × Int) : String := entry.1 ++ " = " ++ toString entry.2 ++ "\n"

/-- The result on a line of its own, then the entries of the store, in the order of the names. -/
def report (o : Outcome) : String :=
  "Result: " ++ toString o.result ++ "\n" ++ String.join (o.store.entries.map line)

end Outcome

/-- Runs the statement that a text starts with, over an empty store. -/
def execute (source : String) : Except Fault Outcome :=
  match EStateM.run (Session.run source) Store.empty with
  | .ok result store => .ok ⟨result, store⟩
  | .error f _ => .error f

end Reckon
