import Reckon.Proofs.Grammar
import Reckon.Proofs.Reading

/-!
  What the parser reads is a phrase of the grammar. `Reads` collects what a successful reading of
  an expression, a term or a factor amounts to: the tokens that were passed derive from the
  nonterminal, the tree is that of the derivation, the height that is counted along is the height
  of the tree, and the limits hold. `sound_expression` and `statement_reads` say so of the two
  entry points. The open groups come in because a group is read with the count raised by one.
-/

namespace Reckon

open Operator (additive multiplicative)

/-- The tokens that a phrase ends before: its loops have gone on as long as they could. -/
def Nonterminal.Stops : Nonterminal → Token.Kind → Prop
  | .factor, _ => True
  | .term, k => multiplicative k = none
  | .expression, k => additive k = none ∧ multiplicative k = none

/-- A chain of the one nonterminal joins phrases of the other by the operators of one level. -/
inductive Chains : Nonterminal → Nonterminal → (Token.Kind → Option Operator) → Prop where
  | sum : Chains .expression .term additive
  | product : Chains .term .factor multiplicative

namespace Chains

variable {m n : Nonterminal} {level : Token.Kind → Option Operator}

theorem single {ts : List Token} {e : Tree} (h : Chains m n level) (he : Derives n ts e) :
    Derives m ts e := by
  cases h with
  | sum => exact .term he
  | product => exact .factor he

theorem join {ts us : List Token} {o : Token} {op : Operator} {a b : Tree} (h : Chains m n level)
    (ha : Derives m ts a) (ho : level o.kind = some op) (hb : Derives n us b) :
    Derives m (ts ++ o :: us) (.binary op a b) := by
  cases h with
  | sum => exact .sum ha ho hb
  | product => exact .product ha ho hb

theorem operator {k : Token.Kind} {op : Operator} (h : Chains m n level)
    (ho : level k = some op) : additive k = some op ∨ multiplicative k = some op := by
  cases h with
  | sum => exact .inl ho
  | product => exact .inr ho

/-- A chain ends before a token that neither its last phrase nor the chain goes on with. -/
theorem stops {k : Token.Kind} (h : Chains m n level) (hn : n.Stops k) (hk : level k = none) :
    m.Stops k := by
  cases h with
  | sum => exact ⟨hk, hn⟩
  | product => exact hk

end Chains

namespace Parser

variable {p q r : Parser} {s : Subtree}

/-- Reading a phrase of the nonterminal went from `p` over the tokens to `q`. -/
structure Reads (m : Nonterminal) (p : Parser) (ts : List Token) (s : Subtree) (q : Parser) :
    Prop where
  derives : Derives m ts s.tree
  passes : Passes p ts q
  height_eq : s.height = s.tree.height
  height_le : s.height ≤ maxDepth
  fits : Fits p.nesting ts

/-- Whatever this step reads is a phrase of the nonterminal, and ends where it has to. -/
def Sound (m : Nonterminal) (x : Parsing Subtree) : Prop :=
  ∀ {p s q}, x p = .ok s q → (∃ ts, Reads m p ts s q) ∧ m.Stops q.current.kind

/-! ## Factors -/

theorem height_leaf_le (t : Tree) : (Subtree.leaf t).height ≤ maxDepth := by
  show 1 ≤ maxDepth
  decide

theorem reads_number (hk : p.current.kind = .number) (h : number p = .ok s q) :
    Reads .factor p [p.current] s q := by
  obtain ⟨n, hn, ha, rfl⟩ := number_eq_ok.mp h
  obtain ⟨rfl, hle⟩ := Integer.ofLiteral?_eq_some_iff.mp hn
  exact ⟨.number hk, .single ha, rfl, height_leaf_le _,
    fits_singleton.mpr ⟨fun _ => hle, by simp [hk]⟩⟩

theorem reads_variableName (hk : p.current.kind = .identifier) (h : variableName p = .ok s q) :
    Reads .factor p [p.current] s q := by
  obtain ⟨ha, rfl⟩ := variableName_eq_ok.mp h
  exact ⟨.identifier hk, .single ha, rfl, height_leaf_le _,
    fits_of_ne (by simp [hk]) (by simp [hk]) _⟩

theorem reads_group {inside : Parsing Subtree} (hinside : Sound .expression inside)
    (hk : p.current.kind = .leftParen) (h : group inside p = .ok s r) :
    ∃ ts, Reads .factor p ts s r := by
  obtain ⟨hn, p', q, ha, hi, hr, hc⟩ := group_eq_ok.mp h
  obtain ⟨⟨ts, he⟩, -⟩ := hinside hi
  have hnest : p'.nesting = p.nesting := nesting_of_advance ha
  -- the count goes back to what it was before the group
  have hback : q.nesting - 1 = p'.nesting := by rw [he.passes.nesting_eq]; rfl
  rw [hback] at hc
  have hin : Passes p' ts { q with nesting := p'.nesting } := he.passes.of_nesting p'.nesting
  refine ⟨p.current :: (ts ++ [q.current]), .group hk he.derives hr,
    .cons ha (hin.append (.single hc)), he.height_eq, he.height_le, ?_⟩
  exact (fits_group hk hr).mpr ⟨hn, hnest ▸ he.fits⟩

theorem sound_factor {inside : Parsing Subtree} (hinside : Sound .expression inside) :
    Sound .factor (factor inside) := by
  intro p s q h
  refine ⟨?_, trivial⟩
  rcases factor_eq_ok.mp h with ⟨hk, h⟩ | ⟨hk, h⟩ | ⟨hk, h⟩
  · exact ⟨_, reads_number hk h⟩
  · exact ⟨_, reads_variableName hk h⟩
  · exact reads_group hinside hk h

/-! ## Chains -/

variable {m n : Nonterminal} {level : Token.Kind → Option Operator} {operand : Parsing Subtree}

/-- One round of the loop joins the operand after an operator to what was read before it. -/
theorem Reads.join (hc : Chains m n level) {p' p'' : Parser} {ts us : List Token}
    {left right : Subtree} {op : Operator} (hl : Reads m p ts left q)
    (ho : level q.current.kind = some op) (ha : advance q = .ok () p')
    (hr : Reads n p' us right p'') (hh : (left.join op right).height ≤ maxDepth) :
    Reads m p (ts ++ q.current :: us) (left.join op right) p'' := by
  have hnest : p'.nesting = p.nesting := (nesting_of_advance ha).trans hl.passes.nesting_eq
  refine ⟨hc.join hl.derives ho hr.derives, hl.passes.append (.cons ha hr.passes), ?_, hh, ?_⟩
  · simp only [Subtree.join, Tree.height, hl.height_eq, hr.height_eq]
  · exact (fits_operation hl.derives (hc.operator ho)).mpr ⟨hl.fits, hnest ▸ hr.fits⟩

/-- The loop goes on reading one phrase. The induction is on the loop itself, from what was read
before it. -/
theorem reads_chainFrom (hc : Chains m n level) (hop : Sound n operand) {left : Subtree} {ts}
    (hl : Reads m p ts left q) (hs : n.Stops q.current.kind)
    (h : chainFrom level operand left q = .ok s r) :
    (∃ ts, Reads m p ts s r) ∧ m.Stops r.current.kind := by
  induction left using chainFrom.induct generalizing q ts with
  | case1 left ih =>
    rcases chainFrom_eq_ok.mp h with ⟨hk, rfl, rfl⟩ | ⟨op, p', right, p'', ho, ha, hr, hh, h⟩
    · exact ⟨⟨ts, hl⟩, hc.stops hs hk⟩
    · obtain ⟨⟨us, hr⟩, hs⟩ := hop hr
      exact ih op right hh (hl.join hc ho ha hr hh) hs h

theorem sound_chain (hc : Chains m n level) (hop : Sound n operand) :
    Sound m (chain level operand) := by
  intro p s r h
  obtain ⟨left, q, ho, h⟩ := chain_eq_ok.mp h
  obtain ⟨⟨ts, hl⟩, hs⟩ := hop ho
  exact reads_chainFrom hc hop { hl with derives := hc.single hl.derives } hs h

/-! ## Expressions and statements -/

theorem sound_expressionWithin {below : Parsing Subtree} (hbelow : Sound .expression below)
    (levels : Nat) : Sound .expression (expressionWithin below levels) := by
  induction levels with
  | zero => exact hbelow
  | succ levels ih => exact sound_chain .sum (sound_chain .product (sound_factor ih))

theorem sound_expression : Sound .expression expression := by
  apply sound_expressionWithin
  intro p s q h
  exact absurd h Parsing.throw_ne_ok

/-- A statement that was read is a statement of the grammar within the limits. -/
theorem statement_reads {t : Tree} (h : statement p = .ok t q) :
    ∃ ts name e, t = .assign name e ∧ Statement ts name e ∧ Passes p ts q ∧ e.height ≤ maxDepth ∧
      Fits p.nesting ts := by
  obtain ⟨name, p₁, p₂, value, p₃, ht, he, hv, hs, rfl⟩ := statement_eq_ok.mp h
  obtain ⟨hx, ha, rfl⟩ := target_eq_ok.mp ht
  obtain ⟨hq, hb⟩ := expect_eq_ok.mp he
  obtain ⟨hk, hc⟩ := expect_eq_ok.mp hs
  obtain ⟨⟨ts, hr⟩, -⟩ := sound_expression hv
  have hnest : p₂.nesting = p.nesting := nesting_of_advances ha hb
  refine ⟨p.current :: p₁.current :: (ts ++ [p₃.current]), _, _, rfl,
    .assign hx hq hr.derives hk, .cons ha (.cons hb (hr.passes.append (.single hc))),
    hr.height_eq ▸ hr.height_le, ?_⟩
  exact (fits_statement hx hq hk).mpr (hnest ▸ hr.fits)

end Parser

end Reckon
