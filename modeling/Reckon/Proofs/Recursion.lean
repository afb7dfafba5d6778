import Mathlib.Control.Monad.Basic
import Reckon.Evaluation
import Reckon.Proofs.Nesting

/-!
  How deep the recursions go. An expression reads the groups in it as expressions of their own, and
  nothing in the text bounds how many of them stand inside each other; what bounds the recursion is
  the count of open groups. With `k` groups open, `maxDepth + 1 - k` levels are enough for every
  text: what is put beneath the last of them is never come to, so that it can be anything
  (`expressionWithin_congr`).

  The bound in the definition of an expression therefore cannot be told from none: the expression
  is the one solution of its recursion equation (`eq_sum_iff`).

  The trees that are read are no higher than `maxDepth + 1`, so evaluating and writing them goes
  down no more levels than that (`Tree.evalWithin_eq`, `Tree.textWithin_eq`).
-/

namespace Reckon

/-! ## Trees, so many levels down -/

namespace Tree

/-- The value of a tree, so many levels down; `below` stands for the value of what is beneath. -/
def evalWithin (below : Evaluation Int) : Nat → Tree → Evaluation Int
  | 0, _ => below
  | _ + 1, number value => pure value
  | _ + 1, var name => do return (← get).read name
  | levels + 1, binary op left right => do
    let a ← evalWithin below levels left
    let b ← evalWithin below levels right
    op.evaluate a b
  | levels + 1, assign name value => do
    let n ← evalWithin below levels value
    modify fun s => s.insert name n
    return n

/-- The text of a tree, so many levels down; `below` stands for the text of what is beneath. -/
def textWithin (below : String) : Nat → Tree → String
  | 0, _ => below
  | _ + 1, number value => toString value
  | _ + 1, var name => name
  | levels + 1, binary op left right =>
    "(" ++ textWithin below levels left ++ " " ++ op.symbol.toString ++ " " ++
      textWithin below levels right ++ ")"
  | levels + 1, assign name value => name ++ " = " ++ textWithin below levels value

variable {t : Tree} {levels : Nat}

/-- Every tree takes a level of its own. -/
theorem exists_levels (h : t.height ≤ levels) : ∃ n, levels = n + 1 :=
  Nat.exists_eq_succ_of_ne_zero (Nat.ne_of_gt (Nat.lt_of_lt_of_le t.height_pos h))

/-- The operands of a tree have one level less. -/
theorem height_operands_le {op : Operator} {left right : Tree}
    (h : (binary op left right).height ≤ levels + 1) :
    left.height ≤ levels ∧ right.height ≤ levels := by
  unfold height at h
  omega

/-- As many levels as a tree is high are enough to evaluate it. -/
theorem evalWithin_eq (below : Evaluation Int) (h : t.height ≤ levels) :
    t.evalWithin below levels = t.eval := by
  induction t generalizing levels with
  | number value => obtain ⟨n, rfl⟩ := exists_levels h; rfl
  | var name => obtain ⟨n, rfl⟩ := exists_levels h; rfl
  | binary op left right ihl ihr =>
    obtain ⟨n, rfl⟩ := exists_levels h
    obtain ⟨hl, hr⟩ := height_operands_le h
    simp only [evalWithin, eval, ihl hl, ihr hr]
  | assign name value ih =>
    obtain ⟨n, rfl⟩ := exists_levels h
    simp only [evalWithin, eval, ih (Nat.le_of_succ_le_succ h)]

/-- As many levels as a tree is high are enough to write it. -/
theorem textWithin_eq (below : String) (h : t.height ≤ levels) :
    t.textWithin below levels = t.text := by
  induction t generalizing levels with
  | number value => obtain ⟨n, rfl⟩ := exists_levels h; rfl
  | var name => obtain ⟨n, rfl⟩ := exists_levels h; rfl
  | binary op left right ihl ihr =>
    obtain ⟨n, rfl⟩ := exists_levels h
    obtain ⟨hl, hr⟩ := height_operands_le h
    simp only [textWithin, text, ihl hl, ihr hr]
  | assign name value ih =>
    obtain ⟨n, rfl⟩ := exists_levels h
    simp only [textWithin, text, ih (Nat.le_of_succ_le_succ h)]

end Tree

namespace Parser

open Parsing

variable {p : Parser} {x y : Parsing Subtree} {m n : Nonterminal} {k : Nat}

/-! ## Runs that agree where they are used -/

theorem Sound.nesting_eq {q : Parser} {s : Subtree} (h : Sound m x) (hx : x p = .ok s q) :
    q.nesting = p.nesting := by
  obtain ⟨⟨ts, hr⟩, -⟩ := h hx
  exact hr.passes.nesting_eq

theorem factor_congr (h : group x p = group y p) : factor x p = factor y p := by
  simp only [factor, get_bind]
  cases p.current.kind with
  | leftParen => exact h
  | _ => rfl

variable {level : Token.Kind → Option Operator}

/-- The loop reads its operands with as many open groups as there were at its start. The induction
is on the loop itself, from what was read before it. -/
theorem chainFrom_congr (hy : Sound n y) (h : ∀ q : Parser, q.nesting = k → x q = y q)
    (left : Subtree) (hp : p.nesting = k) :
    chainFrom level x left p = chainFrom level y left p := by
  induction left using chainFrom.induct generalizing p with
  | case1 left ih =>
    rw [chainFrom, chainFrom, get_bind, get_bind]
    cases level p.current.kind with
    | none => rfl
    | some op =>
      refine bind_congr fun _ p' ha => ?_
      have hp' : p'.nesting = k := (nesting_of_advance ha).trans hp
      rw [bind_congr_left (h p' hp')]
      refine bind_congr fun right q hr => ?_
      have hq : q.nesting = k := (hy.nesting_eq hr).trans hp'
      split
      · next hh => exact ih op right hh hq
      · rfl

theorem chain_congr (hy : Sound n y) (h : ∀ q : Parser, q.nesting = k → x q = y q)
    (hp : p.nesting = k) : chain level x p = chain level y p := by
  unfold chain
  rw [bind_congr_left (h p hp)]
  refine bind_congr fun left q hl => ?_
  exact chainFrom_congr hy h left ((hy.nesting_eq hl).trans hp)

/-- An expression depends on how its groups are read only where it comes to one: with one more open
group, and below the limit. -/
theorem sum_congr (hy : Sound .expression y)
    (h : p.nesting < maxDepth → ∀ q : Parser, q.nesting = p.nesting + 1 → x q = y q) :
    sum x p = sum y p := by
  have hfactor : ∀ q : Parser, q.nesting = p.nesting → factor x q = factor y q := fun q hq =>
    factor_congr (group_congr (hq ▸ h))
  have hterm : ∀ q : Parser, q.nesting = p.nesting → term x q = term y q := fun q hq =>
    chain_congr (sound_factor hy) hfactor hq
  exact chain_congr (sound_chain .product (sound_factor hy)) hterm rfl

/-! ## Enough levels -/

variable {below below' : Parsing Subtree}

/-- With a level for each group that can still be opened, and one for the expression itself, neither
the number of levels nor what is beneath them matters. The induction is on the levels: a group takes
one of them, and one of the groups that can be opened. -/
theorem expressionWithin_congr (hbelow : Sound .expression below') {levels levels' : Nat}
    (h : maxDepth - p.nesting < levels) (h' : maxDepth - p.nesting < levels') :
    expressionWithin below levels p = expressionWithin below' levels' p := by
  induction levels generalizing levels' p with
  | zero => exact absurd h (Nat.not_lt_zero _)
  | succ levels ih =>
    obtain ⟨levels', rfl⟩ := Nat.exists_eq_succ_of_ne_zero (Nat.ne_zero_of_lt h')
    refine sum_congr (sound_expressionWithin hbelow levels') fun hn q hq => ?_
    exact ih (by omega) (by omega)

/-- An expression is read with as many levels as can be come to, and with any more. -/
theorem expressionWithin_eq_expression (below : Parsing Subtree) {levels : Nat}
    (h : maxDepth - p.nesting < levels) : expressionWithin below levels p = expression p := by
  refine expressionWithin_congr ?_ h (by omega)
  intro p s q h
  exact absurd h throw_ne_ok

theorem expressionWithin_of_eq_sum (h : x = sum x) (levels : Nat) :
    expressionWithin x levels = x := by
  induction levels with
  | zero => rfl
  | succ levels ih =>
    rw [expressionWithin, ih]
    exact h.symm

/-- Without any bound on the levels, an expression is a sum whose groups hold expressions; and
nothing else is. -/
theorem eq_sum_iff : x = sum x ↔ x = expression := by
  constructor
  · intro h
    funext p
    have hlevels : maxDepth - p.nesting < maxDepth + 1 := by omega
    rw [← expressionWithin_eq_expression x hlevels, expressionWithin_of_eq_sum h]
  · rintro rfl
    funext p
    -- the sum of expressions is an expression with one level more
    have hlevels : maxDepth - p.nesting < maxDepth + 2 := by omega
    exact (expressionWithin_eq_expression _ hlevels).symm

/-! ## Statements -/

/-- Reads one statement, whose expression is read so many levels down; `below` stands for the
levels beneath. -/
def statementWithin (below : Parsing Subtree) (levels : Nat) : Parsing Tree := do
  let name ← target
  expect .equals
  let value ← expressionWithin below levels
  expect .semicolon
  return .assign name value.tree

/-- The expression of a statement is read with the count of open groups that the statement starts
with. -/
theorem statementWithin_eq_statement (below : Parsing Subtree) {levels : Nat}
    (h : maxDepth - p.nesting < levels) : statementWithin below levels p = statement p := by
  refine bind_congr fun name p₁ ht => ?_
  refine bind_congr fun _ p₂ he => ?_
  have hnest : p₂.nesting = p.nesting :=
    nesting_of_advances (target_eq_ok.mp ht).2.1 (expect_eq_ok.mp he).2
  rw [← hnest] at h
  exact bind_congr_left (expressionWithin_eq_expression below h)

/-- Whatever was scanned and parsed before, with `k` groups open a parser reads a statement in
`maxDepth + 1 - k` levels of expressions: with these or more it gives the same answer and is left
the same, whatever stands beneath them. No bound on the levels is to be seen, as the expression is
the one solution of its recursion. A tree that is read is no higher than `maxDepth + 1`, and with so
many levels or more it is evaluated and written, whatever stands beneath them. -/
theorem recursion_bounded (text : String) (steps : List Scanner.Step) (p : Parser)
    (h : ((Scanner.ofString text).after steps).parser = .ok p) (n : Nat) :
    (p.after n).nesting ≤ maxDepth ∧
    (∀ below levels, maxDepth + 1 - (p.after n).nesting ≤ levels →
      statementWithin below levels (p.after n) = statement (p.after n)) ∧
    (∀ x, x = sum x ↔ x = expression) ∧
    ∀ t, (p.after n).answer = .ok t → t.height ≤ maxDepth + 1 ∧
      (∀ below levels, maxDepth + 1 ≤ levels → t.evalWithin below levels = t.eval) ∧
      ∀ below levels, maxDepth + 1 ≤ levels → t.textWithin below levels = t.text := by
  obtain ⟨-, hn⟩ := rests_after h n
  refine ⟨hn, fun below levels hl => ?_, fun x => eq_sum_iff, fun t ht => ?_⟩
  · exact statementWithin_eq_statement below (by omega)
  · obtain ⟨q, hq⟩ := answer_eq_ok_iff.mp ht
    obtain ⟨ts, name, e, rfl, -, -, hh, -⟩ := statement_reads hq
    have hheight : (Tree.assign name e).height ≤ maxDepth + 1 := Nat.succ_le_succ hh
    exact ⟨hheight, fun below levels hl => Tree.evalWithin_eq below (hheight.trans hl),
      fun below levels hl => Tree.textWithin_eq below (hheight.trans hl)⟩

/-- A failure has left two of three groups open, so two levels less than at the start are enough. -/
theorem recursion_bounded_two_open :
    ∃ p, ((Scanner.ofString "; y = (((1 z = 8 / (2 + w);").after [.read]).parser = .ok p ∧
      (p.after 1).nesting = 2 ∧
      (∀ below, statementWithin below 255 (p.after 1) = statement (p.after 1)) ∧
      ∃ t, (p.after 1).answer = .ok t ∧ t.height = 4 ∧
        (∀ below, t.evalWithin below 257 = t.eval) ∧
        ∀ below, t.textWithin below 257 = "z = (8 / (2 + w))" := by
  have hrun : ∃ p, ((Scanner.ofString "; y = (((1 z = 8 / (2 + w);").after [.read]).parser = .ok p ∧
      (p.after 1).nesting = 2 ∧ (p.after 1).answer = .ok (.assign "z"
        (.binary .divide (.number 8) (.binary .add (.number 2) (.var "w")))) := by
    have hcheck : (((Scanner.ofString "; y = (((1 z = 8 / (2 + w);").after [.read]).parser.map
        fun p => ((p.after 1).nesting, (p.after 1).answer)) = .ok (2, .ok (.assign "z"
          (.binary .divide (.number 8) (.binary .add (.number 2) (.var "w"))))) := by
      decide +kernel
    obtain ⟨p, hp, hafter⟩ := exists_of_map_eq_ok hcheck
    exact ⟨p, hp, Prod.mk.inj hafter⟩
  obtain ⟨p, hp, hnest, hanswer⟩ := hrun
  obtain ⟨-, hstatement, -, htree⟩ :=
    recursion_bounded "; y = (((1 z = 8 / (2 + w);" [.read] p hp 1
  obtain ⟨-, heval, htext⟩ := htree _ hanswer
  rw [hnest] at hstatement
  refine ⟨p, hp, hnest, fun below => hstatement below 255 (by decide), _, hanswer, by decide,
    fun below => heval below 257 (by decide), fun below => ?_⟩
  exact (htext below 257 (by decide)).trans (by decide +kernel)

end Parser

end Reckon
