import Reckon.Proofs.Grammar
import Reckon.Proofs.Reading

/-!
  The parser reads every phrase of the grammar within the limits, and builds the tree of its
  derivation. Derivations of expressions and terms grow at the right end, while the loops of the
  parser consume from the left; so the induction says of such a phrase only that reading it leads
  to the loop with its tree in hand (`Resumes`), and what follows decides whether the loop goes on.
  The tokens open groups within the limit, so the levels of `expressionWithin` suffice.
-/

namespace Reckon

open Operator (additive multiplicative)

theorem Operator.multiplicative_of_additive {k : Token.Kind} {op : Operator}
    (h : additive k = some op) : multiplicative k = none := by
  cases k <;> simp_all [Operator.additive, Operator.multiplicative]

/-- A tree together with its height. -/
def Tree.subtree (e : Tree) : Subtree := ⟨e, e.height⟩

namespace Parser

variable {p q r : Parser} {inside : Parsing Subtree}

/-- Reading a phrase with this tree leads from `p` to the loop of the nonterminal at `q`. -/
def Resumes (inside : Parsing Subtree) : Nonterminal → Parser → Tree → Parser → Prop
  | .factor, p, e, q => factor inside p = .ok e.subtree q
  | .term, p, e, q => term inside p = chainFrom multiplicative (factor inside) e.subtree q
  | .expression, p, e, q =>
    multiplicative q.current.kind = none →
      sum inside p = chainFrom additive (term inside) e.subtree q

/-- A term ends where the loop stops. -/
theorem Resumes.term_eq_ok {e : Tree} (h : Resumes inside .term p e q)
    (hq : multiplicative q.current.kind = none) : term inside p = .ok e.subtree q :=
  Eq.trans h (chainFrom_of_none hq)

/-- An expression ends where the loops stop. -/
theorem Resumes.sum_eq_ok {e : Tree} (h : Resumes inside .expression p e q)
    (hm : multiplicative q.current.kind = none) (ha : additive q.current.kind = none) :
    sum inside p = .ok e.subtree q :=
  (h hm).trans (chainFrom_of_none ha)

/-- A group is read if its inside is, with one more group open. -/
theorem resumes_group {ts : List Token} {l t : Token} {e : Tree} (hl : l.kind = .leftParen)
    (ht : t.kind = .rightParen) (hp : Passes p (l :: (ts ++ [t])) r) (hn : p.nesting < maxDepth)
    (hinside : ∀ {p' q}, Passes p' ts q → p'.nesting = p.nesting + 1 →
      q.current.kind = .rightParen → inside p' = .ok e.subtree q) :
    factor inside p = .ok e.subtree r := by
  obtain ⟨rfl, p', ha, htail⟩ := passes_cons_iff.mp hp
  obtain ⟨q, hts, hq⟩ := passes_append_iff.mp htail
  obtain ⟨rfl, r', hc, hr⟩ := passes_cons_iff.mp hq
  cases hr
  have hnest : p'.nesting = p.nesting := nesting_of_advance ha
  have hi := hinside (hts.of_nesting (p'.nesting + 1)) (congrArg (· + 1) hnest) ht
  refine factor_eq_ok.mpr (.inr (.inr ⟨hl, group_eq_ok.mpr ⟨hn, p', _, ha, hi, ht, ?_⟩⟩))
  show advance { q with nesting := p'.nesting } = .ok () r
  rw [← hts.nesting_eq]
  exact hc

/-- Reading two phrases with an operator between them stops before the operator and after it. -/
theorem exists_passes_operation {m : Nonterminal} {ts us : List Token} {o : Token} {op : Operator}
    {a : Tree} (ha : Derives m ts a)
    (ho : additive o.kind = some op ∨ multiplicative o.kind = some op)
    (hp : Passes p (ts ++ o :: us) r) (hf : Fits p.nesting (ts ++ o :: us)) :
    ∃ q p', q.current = o ∧ advance q = .ok () p' ∧ p'.nesting = p.nesting ∧
      (Passes p ts q ∧ Fits p.nesting ts) ∧ Passes p' us r ∧ Fits p'.nesting us := by
  obtain ⟨q, hts, hq⟩ := passes_append_iff.mp hp
  obtain ⟨rfl, p', hadv, hus⟩ := passes_cons_iff.mp hq
  obtain ⟨hfa, hfb⟩ := (fits_operation ha ho).mp hf
  have hnest : p'.nesting = p.nesting := (nesting_of_advance hadv).trans hts.nesting_eq
  exact ⟨q, p', rfl, hadv, hnest, ⟨hts, hfa⟩, hus, hnest ▸ hfb⟩

variable {below : Parsing Subtree}

/-- Reading follows every derivation, if there are levels left for all groups that can be opened.
The induction is on the derivation. -/
theorem resumes_of_derives {m : Nonterminal} {ts : List Token} {e : Tree} (h : Derives m ts e) :
    ∀ {p q : Parser} {levels : Nat}, Passes p ts q → Fits p.nesting ts → e.height ≤ maxDepth →
      maxDepth ≤ p.nesting + levels → Resumes (expressionWithin below levels) m p e q := by
  induction h with
  | number ht =>
    intro p q levels hp hf hh hn
    obtain ⟨rfl, q, ha, hq⟩ := passes_cons_iff.mp hp
    cases hq
    have hv := Integer.ofLiteral?_eq_some_iff.mpr ⟨rfl, (fits_singleton.mp hf).1 ht⟩
    exact factor_eq_ok.mpr (.inl ⟨ht, number_eq_ok.mpr ⟨_, hv, ha, rfl⟩⟩)
  | identifier ht =>
    intro p q levels hp hf hh hn
    obtain ⟨rfl, q, ha, hq⟩ := passes_cons_iff.mp hp
    cases hq
    exact factor_eq_ok.mpr (.inr (.inl ⟨ht, variableName_eq_ok.mpr ⟨ha, rfl⟩⟩))
  | @group l t ts e hl he ht ih =>
    intro p q levels hp hf hh hn
    obtain ⟨hlt, hfi⟩ := (fits_group hl ht).mp hf
    -- an open group is left, so a level is left too
    obtain ⟨levels, rfl⟩ : ∃ k, levels = k + 1 := ⟨levels - 1, by omega⟩
    refine resumes_group hl ht hp hlt ?_
    intro p' q' hp' hn' hk
    have hres := @ih p' q' levels hp' (hn' ▸ hfi) hh (by omega)
    exact hres.sum_eq_ok (by rw [hk]; rfl) (by rw [hk]; rfl)
  | factor he ih =>
    intro p q levels hp hf hh hn
    exact chain_of_ok (ih hp hf hh hn)
  | @product ts us o op a b ha ho hb iha ihb =>
    intro p r levels hp hf hh hn
    obtain ⟨q, p', rfl, hadv, hnest, ⟨hts, hfa⟩, hus, hfb⟩ :=
      exists_passes_operation ha (.inr ho) hp hf
    obtain ⟨hha, hhb⟩ := Tree.height_operands hh
    have hfactor := @ihb p' r levels hus hfb hhb (by omega)
    exact Eq.trans (iha hts hfa hha hn) (chainFrom_of_some ho hadv hfactor hh)
  | term he ih =>
    intro p q levels hp hf hh hn hm
    exact chain_of_ok ((ih hp hf hh hn).term_eq_ok hm)
  | @sum ts us o op a b ha ho hb iha ihb =>
    intro p r levels hp hf hh hn hm
    obtain ⟨q, p', rfl, hadv, hnest, ⟨hts, hfa⟩, hus, hfb⟩ :=
      exists_passes_operation ha (.inl ho) hp hf
    obtain ⟨hha, hhb⟩ := Tree.height_operands hh
    have hterm := (@ihb p' r levels hus hfb hhb (by omega)).term_eq_ok hm
    exact (iha hts hfa hha hn (Operator.multiplicative_of_additive ho)).trans
      (chainFrom_of_some ho hadv hterm hh)

/-- Every expression of the grammar within the limits is read. -/
theorem expression_eq_ok {ts : List Token} {e : Tree} (h : Derives .expression ts e)
    (hp : Passes p ts q) (hf : Fits p.nesting ts) (hh : e.height ≤ maxDepth)
    (hm : multiplicative q.current.kind = none) (ha : additive q.current.kind = none) :
    expression p = .ok e.subtree q := by
  have hlevels : maxDepth ≤ p.nesting + maxDepth := Nat.le_add_left _ _
  exact (resumes_of_derives h hp hf hh hlevels).sum_eq_ok hm ha

/-- A statement of the grammar within the limits is read up to the token behind its expression. -/
theorem value_of_passes {x o : Token} {ts : List Token} {e : Tree} (hx : x.kind = .identifier)
    (ho : o.kind = .equals) (h : Derives .expression ts e) (hp : Passes p (x :: o :: ts) q)
    (hf : Fits p.nesting ts) (hh : e.height ≤ maxDepth) (hs : q.current.kind = .semicolon) :
    ∃ p₁ p₂, target p = .ok x.text p₁ ∧ expect .equals p₁ = .ok () p₂ ∧
      expression p₂ = .ok e.subtree q := by
  obtain ⟨rfl, p₁, ha, h₁⟩ := passes_cons_iff.mp hp
  obtain ⟨rfl, p₂, hb, h₂⟩ := passes_cons_iff.mp h₁
  have hnest : p₂.nesting = p.nesting := nesting_of_advances ha hb
  have hv := expression_eq_ok h h₂ (hnest ▸ hf) hh (by rw [hs]; rfl) (by rw [hs]; rfl)
  exact ⟨p₁, p₂, target_eq_ok.mpr ⟨hx, ha, rfl⟩, expect_eq_ok.mpr ⟨ho, hb⟩, hv⟩

/-- Every statement of the grammar within the limits is read. -/
theorem statement_eq_ok_of_passes {ts : List Token} {name : String} {e : Tree}
    (h : Statement ts name e) (hp : Passes p ts q) (hf : Fits p.nesting ts)
    (hh : e.height ≤ maxDepth) : statement p = .ok (.assign name e) q := by
  cases h with
  | @assign x o s ts e hx ho he hs =>
    obtain ⟨p₃, hts, h₃⟩ := passes_append_iff.mp (show Passes p ((x :: o :: ts) ++ [s]) q from hp)
    obtain ⟨rfl, p₄, hc, h₄⟩ := passes_cons_iff.mp h₃
    cases h₄
    obtain ⟨p₁, p₂, ht, hq, hv⟩ :=
      value_of_passes hx ho he hts ((fits_statement hx ho hs).mp hf) hh hs
    exact statement_eq_ok.mpr ⟨_, p₁, p₂, _, p₃, ht, hq, hv, expect_eq_ok.mpr ⟨hs, hc⟩, rfl⟩

end Parser

end Reckon
