import Reckon.Proofs.Lifetime

/-!
  Two runs of the parser, side by side. A `Coupling` says when two streams correspond: reading
  from both gives tokens of one kind and one text, at places that correspond, and streams that
  correspond again. `Coupling.respects_statement` carries this through the parser: from coupled
  parsers a statement is read in both runs with one outcome, which is the same tree, or faults
  that differ in their places only.

  The parser looks at kinds and texts to decide and copies positions into its faults, and that is
  the whole proof: one lemma for each function, in the order of the definitions. A coupling may
  name faults of the first run after which the two have nothing more to do with each other
  (`Apart`).
-/

namespace Reckon

/-! ## Places in faults -/

namespace SyntaxFault

/-- The place that a fault names. -/
def position : SyntaxFault → Nat
  | unexpectedToken _ _ position => position
  | unexpectedFactor _ position => position
  | expectedIdentifier _ position => position
  | nestingTooDeep _ position => position
  | integerOutOfRange _ position => position

/-- The same fault at another place. -/
def moveTo (position : Nat) : SyntaxFault → SyntaxFault
  | unexpectedToken found expected _ => unexpectedToken found expected position
  | unexpectedFactor found _ => unexpectedFactor found position
  | expectedIdentifier found _ => expectedIdentifier found position
  | nestingTooDeep limit _ => nestingTooDeep limit position
  | integerOutOfRange literal _ => integerOutOfRange literal position

theorem moveTo_position (g : SyntaxFault) : g.moveTo g.position = g := by
  cases g <;> rfl

end SyntaxFault

/-! ## Couplings -/

/-- When the streams, the places and the lexical faults of two runs correspond. -/
structure Coupling where
  Ahead : TokenStream → TokenStream → Prop
  Place : Nat → Nat → Prop
  Lexical : LexFault → LexFault → Prop
  /-- The lexical faults of the first run after which nothing is said about the second. -/
  Apart : LexFault → Prop
  next_ok : ∀ {s s' : TokenStream} {t : Token} {r : TokenStream}, Ahead s s' →
    s.next = .ok t r → ∃ n r', s'.next = .ok { t with position := n } r' ∧
      Place t.position n ∧ Ahead r r'
  next_error : ∀ {s s' : TokenStream} {f : LexFault} {r : TokenStream}, Ahead s s' →
    s.next = .error f r → Apart f ∨ ∃ f' r', s'.next = .error f' r' ∧ Lexical f f' ∧ Ahead r r'

namespace Coupling

variable (C : Coupling)

/-- Two parsers with corresponding tokens at hand and ahead, and equally many open groups. -/
structure Couples (p p' : Parser) : Prop where
  current : ∃ n, p'.current = { p.current with position := n } ∧ C.Place p.current.position n
  ahead : C.Ahead p.ahead p'.ahead
  nesting : p'.nesting = p.nesting

/-- Two faults that differ in their places only, and these correspond. -/
inductive SameFault : Fault → Fault → Prop where
  | lexical {f f' : LexFault} (h : C.Lexical f f') : SameFault (.lexical f) (.lexical f')
  | grammatical {g : SyntaxFault} {n : Nat} (h : C.Place g.position n) :
      SameFault (.grammatical g) (.grammatical (g.moveTo n))

/-- One outcome in both runs, unless the first one ends with a fault that sets them apart. -/
inductive Matches {α : Type} :
    EStateM.Result Fault Parser α → EStateM.Result Fault Parser α → Prop where
  | ok {a : α} {q q' : Parser} (h : C.Couples q q') : Matches (.ok a q) (.ok a q')
  | error {f f' : Fault} {q q' : Parser} (hf : C.SameFault f f') (h : C.Couples q q') :
      Matches (.error f q) (.error f' q')
  | apart {f : LexFault} (h : C.Apart f) (q : Parser) (r : EStateM.Result Fault Parser α) :
      Matches (.error (.lexical f) q) r

/-- From coupled parsers the step has one outcome. -/
def Respects {α : Type} (x : Parsing α) : Prop :=
  ∀ ⦃p p' : Parser⦄, C.Couples p p' → C.Matches (x p) (x p')

variable {C} {α β : Type} {p p' : Parser}

theorem Matches.bind {x y : Parsing α} {f g : α → Parsing β} (h : C.Matches (x p) (y p'))
    (hf : ∀ a q q', C.Couples q q' → C.Matches (f a q) (g a q')) :
    C.Matches ((x >>= f) p) ((y >>= g) p') := by
  simp only [Bind.bind, EStateM.bind]
  generalize x p = u at h
  generalize y p' = v at h
  cases h with
  | @ok a q q' h => exact hf a q q' h
  | error he h => exact .error he h
  | apart he q r => exact .apart he q _

theorem Matches.pure (a : α) (h : C.Couples p p') :
    C.Matches ((Pure.pure a : Parsing α) p) ((Pure.pure a : Parsing α) p') := .ok h

theorem Matches.throw {g : SyntaxFault} {n : Nat} (hg : C.Place g.position n)
    (h : C.Couples p p') :
    C.Matches ((MonadExcept.throw (Fault.grammatical g) : Parsing α) p)
      ((MonadExcept.throw (Fault.grammatical (g.moveTo n)) : Parsing α) p') :=
  .error (.grammatical hg) h

theorem Couples.emptied (h : C.Couples p p') : C.Couples p.emptied p'.emptied := by
  obtain ⟨⟨n, hc, hn⟩, ha, hk⟩ := h
  exact ⟨⟨n, by simp only [Parser.emptied, hc], hn⟩, ha, hk⟩

theorem Couples.of_nesting (h : C.Couples p p') {n n' : Nat} (hn : n' = n) :
    C.Couples { p with nesting := n } { p' with nesting := n' } :=
  ⟨h.current, h.ahead, hn⟩

/-- At the start of streams that correspond, parsers do. -/
theorem couples_of_at {s s' : TokenStream} (ha : C.Ahead s s') (hp : p.At s) (hp' : p'.At s')
    (hn : p'.nesting = p.nesting) : C.Couples p p' := by
  obtain ⟨n, r, hs', hplace, hr⟩ := C.next_ok ha hp
  unfold Parser.At at hp'
  rw [hs'] at hp'
  obtain ⟨hc, rfl⟩ := EStateM.Result.ok.inj hp'
  exact ⟨⟨n, hc.symm, hplace⟩, hr, hn⟩

/-! ## Single tokens -/

theorem respects_advance : C.Respects Parser.advance := by
  intro p p' h
  unfold Parser.advance
  cases hs : p.ahead.next with
  | ok t r =>
    obtain ⟨n, r', hs', hn, hr⟩ := C.next_ok h.ahead hs
    rw [hs']
    exact .ok ⟨⟨n, rfl, hn⟩, hr, h.nesting⟩
  | error f r =>
    rcases C.next_error h.ahead hs with hf | ⟨f', r', hs', hf, hr⟩
    · exact .apart hf _ _
    · rw [hs']
      exact .error (.lexical hf) ⟨h.current, hr, h.nesting⟩

theorem respects_takeText : C.Respects Parser.takeText := by
  intro p p' h
  obtain ⟨n, hc, hn⟩ := h.current
  have htext : p'.current.text = p.current.text := by rw [hc]
  unfold Parser.takeText
  rw [htext]
  exact .ok h.emptied

theorem respects_expect (kind : Token.Kind) : C.Respects (Parser.expect kind) := by
  intro p p' h
  obtain ⟨n, hc, hn⟩ := h.current
  rw [Parser.expect_eq, Parser.expect_eq, hc]
  by_cases hk : p.current.kind = kind
  · simp only [hk, if_true]
    exact respects_advance h
  · simp only [hk, if_false]
    exact .error (.grammatical hn) h

/-! ## Expressions -/

theorem respects_number : C.Respects Parser.number := by
  intro p p' h
  obtain ⟨n, hc, hn⟩ := h.current
  simp only [Parser.number, Parsing.get_bind, hc]
  cases Integer.ofLiteral? p.current.text with
  | none => exact .throw (g := .integerOutOfRange p.current.text p.current.position) hn h
  | some v => exact (respects_advance h).bind fun _ _ _ h => .pure _ h

theorem respects_variableName : C.Respects Parser.variableName := by
  intro p p' h
  refine (respects_takeText h).bind fun name q q' h => ?_
  exact (respects_advance h).bind fun _ _ _ h => .pure _ h

theorem respects_group {inside : Parsing Subtree} (hin : C.Respects inside) :
    C.Respects (Parser.group inside) := by
  intro p p' h
  obtain ⟨n, hc, hn⟩ := h.current
  simp only [Parser.group, Parsing.get_bind, h.nesting, hc]
  by_cases hm : maxDepth ≤ p.nesting
  · simp only [hm, if_true]
    exact .throw (g := .nestingTooDeep maxDepth p.current.position) hn h
  · simp only [hm, if_false]
    refine (respects_advance h).bind fun _ q q' h => ?_
    have henter : C.Matches
        ((modify fun p => { p with nesting := p.nesting + 1 } : Parsing PUnit) q)
        ((modify fun p => { p with nesting := p.nesting + 1 } : Parsing PUnit) q') :=
      .ok (h.of_nesting (congrArg (· + 1) h.nesting))
    refine henter.bind fun _ q q' h => ?_
    refine (hin h).bind fun s q q' h => ?_
    have hleave : C.Matches
        ((modify fun p => { p with nesting := p.nesting - 1 } : Parsing PUnit) q)
        ((modify fun p => { p with nesting := p.nesting - 1 } : Parsing PUnit) q') :=
      .ok (h.of_nesting (congrArg (· - 1) h.nesting))
    refine hleave.bind fun _ q q' h => ?_
    exact (respects_expect .rightParen h).bind fun _ _ _ h => .pure _ h

theorem respects_factor {inside : Parsing Subtree} (hin : C.Respects inside) :
    C.Respects (Parser.factor inside) := by
  intro p p' h
  obtain ⟨n, hc, hn⟩ := h.current
  have hrefuse : C.Matches
      ((MonadExcept.throw (Fault.grammatical
        (.unexpectedFactor p.current.describe p.current.position)) : Parsing Subtree) p)
      ((MonadExcept.throw (Fault.grammatical
        (.unexpectedFactor p'.current.describe p'.current.position)) : Parsing Subtree) p') := by
    rw [hc]
    exact .throw (g := .unexpectedFactor p.current.describe p.current.position) hn h
  have hkind : p'.current.kind = p.current.kind := by rw [hc]
  simp only [Parser.factor, Parsing.get_bind, hkind]
  cases p.current.kind with
  | number => exact respects_number h
  | identifier => exact respects_variableName h
  | leftParen => exact respects_group hin h
  | _ => exact hrefuse

theorem respects_chainFrom {level : Token.Kind → Option Operator} {operand : Parsing Subtree}
    (hop : C.Respects operand) (left : Subtree) :
    C.Respects (Parser.chainFrom level operand left) := by
  induction left using Parser.chainFrom.induct with
  | case1 left ih =>
    intro p p' h
    obtain ⟨n, hc, hn⟩ := h.current
    rw [Parser.chainFrom, Parsing.get_bind, Parsing.get_bind, hc]
    dsimp only
    cases level p.current.kind with
    | none => exact .pure left h
    | some op =>
      refine (respects_advance h).bind fun _ q q' h => ?_
      refine (hop h).bind fun right q q' h => ?_
      by_cases hh : (left.join op right).height ≤ maxDepth
      · simp only [hh, dif_pos]
        exact ih op right hh h
      · simp only [hh, dif_neg, not_false_eq_true]
        exact .throw (g := .nestingTooDeep maxDepth p.current.position) hn h

theorem respects_chain {level : Token.Kind → Option Operator} {operand : Parsing Subtree}
    (hop : C.Respects operand) : C.Respects (Parser.chain level operand) := by
  intro p p' h
  exact (hop h).bind fun left _ _ h => respects_chainFrom hop left h

theorem respects_expressionWithin {below : Parsing Subtree} (hbelow : C.Respects below)
    (levels : Nat) : C.Respects (Parser.expressionWithin below levels) := by
  induction levels with
  | zero => exact hbelow
  | succ levels ih => exact respects_chain (respects_chain (respects_factor ih))

theorem respects_expression : C.Respects Parser.expression := by
  apply respects_expressionWithin
  intro p p' h
  obtain ⟨n, hc, hn⟩ := h.current
  simp only [Parsing.get_bind, hc]
  exact .throw (g := .nestingTooDeep maxDepth p.current.position) hn h

/-! ## Statements -/

theorem respects_target : C.Respects Parser.target := by
  intro p p' h
  obtain ⟨n, hc, hn⟩ := h.current
  have hkind : p'.current.kind = p.current.kind := by rw [hc]
  simp only [Parser.target, Parsing.get_bind, hkind]
  by_cases hk : p.current.kind = .identifier
  · simp only [hk, if_true]
    refine (respects_takeText h).bind fun name q q' h => ?_
    exact (respects_advance h).bind fun _ _ _ h => .pure _ h
  · simp only [hk, if_false]
    rw [hc]
    exact .throw (g := .expectedIdentifier p.current.describe p.current.position) hn h

/-- From coupled parsers a statement is read in both runs with one outcome. -/
theorem respects_statement : C.Respects Parser.statement := by
  intro p p' h
  refine (respects_target h).bind fun name q q' h => ?_
  refine (respects_expect .equals h).bind fun _ q q' h => ?_
  refine (respects_expression h).bind fun value q q' h => ?_
  exact (respects_expect .semicolon h).bind fun _ _ _ h => .pure _ h

/-- Coupled parsers answer with one tree, or with faults that differ in their places only. -/
theorem Couples.answer_cases (h : C.Couples p p') :
    (∃ t, p.answer = .ok t ∧ p'.answer = .ok t) ∨
      (∃ f f', p.answer = .error f ∧ p'.answer = .error f' ∧ C.SameFault f f') ∨
      ∃ f, C.Apart f ∧ p.answer = .error (.lexical f) := by
  have hmatch := respects_statement h
  unfold Parser.answer Parser.call
  generalize Parser.statement p = u at hmatch
  generalize Parser.statement p' = v at hmatch
  cases hmatch with
  | @ok t q q' h => exact .inl ⟨t, rfl, rfl⟩
  | @error f f' q q' hf h => exact .inr (.inl ⟨f, f', rfl, rfl, hf⟩)
  | @apart f hf q r => exact .inr (.inr ⟨f, hf, rfl⟩)

end Coupling

end Reckon
