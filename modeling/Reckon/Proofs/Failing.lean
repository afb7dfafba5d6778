import Reckon.Proofs.Completeness
import Reckon.Proofs.Soundness

/-!
  When a step of the parser fails, with which fault and where it leaves the parser: one
  equivalence for each function, as for the steps that succeed.

  `Fails` collects them for the parts of an expression and `StatementFails` for a statement. Each
  says which tokens were passed, what was complete by then and what was wrong at the token at hand.
  `expression_fails` and `statement_fails` say that every failure of the two entry points is one
  of these. They need a level of the recursion for each group that can be opened, so they speak of
  parsers whose count of open groups is within the limit.
-/

namespace Reckon

open Operator (additive multiplicative)

namespace Parsing

variable {α β : Type} {p q : Parser} {e : Fault}

theorem bind_eq_error {x : Parsing α} {f : α → Parsing β} :
    (x >>= f) p = .error e q ↔ x p = .error e q ∨ ∃ a r, x p = .ok a r ∧ f a r = .error e q := by
  simp only [bind, EStateM.bind]
  cases x p with
  | error f r => simp
  | ok a r =>
    simp only [reduceCtorEq, false_or]
    constructor
    · exact fun h => ⟨a, r, rfl, h⟩
    · rintro ⟨_, _, ⟨⟩, h⟩; exact h

theorem throw_eq_error {f : Fault} : (throw f : Parsing α) p = .error e q ↔ e = f ∧ q = p := by
  change (EStateM.Result.error f p : EStateM.Result Fault Parser α) = .error e q ↔ _
  rw [EStateM.Result.error.injEq]
  exact ⟨fun h => ⟨h.1.symm, h.2.symm⟩, fun h => ⟨h.1.symm, h.2.symm⟩⟩

theorem pure_ne_error {a : α} : (pure a : Parsing α) p ≠ .error e q := by
  intro h
  cases h

theorem modify_ne_error {g : Parser → Parser} :
    (modify g : Parsing PUnit) p ≠ .error e q := by
  intro h
  cases h

theorem takeText_ne_error : Parser.takeText p ≠ .error e q := by
  intro h
  cases h

end Parsing

namespace Parser

open Parsing

variable {p q r : Parser} {f : Fault} {inside : Parsing Subtree}

/-! ## Single tokens -/

/-- The parser without the text of its token at hand. -/
def emptied (p : Parser) : Parser := { p with current := { p.current with text := "" } }

/-- Going on fails at a foreign character and leaves the parser where it is. -/
theorem advance_eq_error :
    advance p = .error f q ↔ ∃ g, p.ahead = ⟨[], .error g⟩ ∧ f = .lexical g ∧ q = p := by
  obtain ⟨t, ⟨tokens, ending⟩, n⟩ := p
  unfold advance TokenStream.next
  cases tokens with
  | cons u us => simp
  | nil =>
    cases ending with
    | ok position => simp
    | error g =>
      simp only [EStateM.Result.error.injEq]
      constructor
      · rintro ⟨rfl, rfl⟩; exact ⟨g, rfl, rfl, rfl⟩
      · rintro ⟨g', h, rfl, rfl⟩; cases h; exact ⟨rfl, rfl⟩

/-- Only a foreign character keeps a parser from starting. -/
theorem start_eq_error {s : TokenStream} :
    start s = .error f ↔ ∃ g, s = ⟨[], .error g⟩ ∧ f = .lexical g := by
  obtain ⟨tokens, ending⟩ := s
  cases tokens with
  | cons t tokens => simp [start, TokenStream.next]
  | nil =>
    cases ending with
    | ok n => simp [start, TokenStream.next]
    | error g => simp [start, TokenStream.next, eq_comm]

theorem expect_eq_error {kind : Token.Kind} :
    expect kind p = .error f q ↔
      (p.current.kind ≠ kind ∧ q = p ∧
        f = .grammatical (.unexpectedToken p.current.describe kind.phrase p.current.position)) ∨
      (p.current.kind = kind ∧ q = p ∧ ∃ g, p.ahead = ⟨[], .error g⟩ ∧ f = .lexical g) := by
  rw [expect_eq]
  by_cases h : p.current.kind = kind
  · simp only [h, if_true, advance_eq_error, ne_eq, not_true, false_and, false_or, true_and]
    constructor
    · rintro ⟨g, hg, hf, hq⟩; exact ⟨hq, g, hg, hf⟩
    · rintro ⟨hq, g, hg, hf⟩; exact ⟨g, hg, hf, hq⟩
  · simp only [h, if_false, EStateM.Result.error.injEq, ne_eq, not_false_eq_true, true_and,
      false_and, or_false]
    exact ⟨fun h => ⟨h.2.symm, h.1.symm⟩, fun h => ⟨h.2.symm, h.1.symm⟩⟩

/-- A token that is expected and not passed stays at hand. -/
theorem eq_of_expect_eq_error {kind : Token.Kind} (h : expect kind p = .error f q) : q = p := by
  rcases expect_eq_error.mp h with ⟨-, hq, -⟩ | ⟨-, hq, -⟩
  · exact hq
  · exact hq

/-! ## Expressions -/

theorem number_eq_error :
    number p = .error f q ↔
      (Integer.ofLiteral? p.current.text = none ∧ q = p ∧
        f = .grammatical (.integerOutOfRange p.current.text p.current.position)) ∨
      (∃ n, Integer.ofLiteral? p.current.text = some n) ∧ advance p = .error f q := by
  simp only [number, get_bind]
  cases hn : Integer.ofLiteral? p.current.text with
  | none =>
    simp only [throw_eq_error, true_and, reduceCtorEq, exists_false, false_and, or_false]
    exact and_comm
  | some n =>
    simp only [bind_eq_error, pure_ne_error, and_false, exists_false, or_false, reduceCtorEq,
      false_and, Option.some.injEq, exists_eq', true_and, false_or]

theorem variableName_eq_error :
    variableName p = .error f q ↔ advance p.emptied = .error f q := by
  simp only [variableName, bind_eq_error, takeText_ne_error, false_or, takeText_eq_ok,
    pure_ne_error, and_false, exists_false, or_false]
  constructor
  · rintro ⟨_, _, ⟨rfl, rfl⟩, h⟩; exact h
  · intro h; exact ⟨_, _, ⟨rfl, rfl⟩, h⟩

theorem group_eq_error :
    group inside p = .error f q ↔
      (maxDepth ≤ p.nesting ∧ q = p ∧ f = tooDeep p.current.position) ∨
      (p.nesting < maxDepth ∧ (advance p = .error f q ∨ ∃ p', advance p = .ok () p' ∧
        (inside { p' with nesting := p'.nesting + 1 } = .error f q ∨
          ∃ s r, inside { p' with nesting := p'.nesting + 1 } = .ok s r ∧
            expect .rightParen { r with nesting := r.nesting - 1 } = .error f q))) := by
  simp only [group, get_bind]
  split
  · next h =>
    have hn : ¬p.nesting < maxDepth := Nat.not_lt.mpr h
    simp only [throw_eq_error, h, true_and, hn, false_and, or_false]
    exact and_comm
  · next h =>
    simp only [bind_eq_error, modify_eq_ok, modify_ne_error, pure_ne_error, false_or, and_false,
      exists_false, or_false]
    constructor
    · rintro (h' | ⟨_, p', ha, ⟨⟩, _, rfl, hi⟩)
      · exact .inr ⟨Nat.not_le.mp h, .inl h'⟩
      · refine .inr ⟨Nat.not_le.mp h, .inr ⟨p', ha, ?_⟩⟩
        rcases hi with hi | ⟨s, r, hi, ⟨⟩, _, rfl, hc⟩
        · exact .inl hi
        · exact .inr ⟨s, r, hi, hc⟩
    · rintro (⟨h', -⟩ | ⟨-, h' | ⟨p', ha, hi⟩⟩)
      · exact absurd h' h
      · exact .inl h'
      · refine .inr ⟨(), p', ha, ⟨⟩, _, rfl, ?_⟩
        rcases hi with hi | ⟨s, r, hi, hc⟩
        · exact .inl hi
        · exact .inr ⟨s, r, hi, ⟨⟩, _, rfl, hc⟩

theorem factor_eq_error :
    factor inside p = .error f q ↔
      (p.current.kind = .number ∧ number p = .error f q) ∨
      (p.current.kind = .identifier ∧ variableName p = .error f q) ∨
      (p.current.kind = .leftParen ∧ group inside p = .error f q) ∨
      ((p.current.kind ≠ .number ∧ p.current.kind ≠ .identifier ∧ p.current.kind ≠ .leftParen) ∧
        q = p ∧ f = .grammatical (.unexpectedFactor p.current.describe p.current.position)) := by
  simp only [factor, get_bind]
  cases hk : p.current.kind <;> simp [throw_eq_error, and_comm]

theorem chainFrom_eq_error {level : Token.Kind → Option Operator} {operand : Parsing Subtree}
    {left : Subtree} :
    chainFrom level operand left p = .error f r ↔
      ∃ op, level p.current.kind = some op ∧
        (advance p = .error f r ∨ ∃ p', advance p = .ok () p' ∧
          (operand p' = .error f r ∨ ∃ right q, operand p' = .ok right q ∧
            (((left.join op right).height ≤ maxDepth ∧
              chainFrom level operand (left.join op right) q = .error f r) ∨
            (maxDepth < (left.join op right).height ∧ r = q ∧
              f = tooDeep p.current.position)))) := by
  rw [chainFrom, get_bind]
  cases hl : level p.current.kind with
  | none => simp [pure_ne_error]
  | some op =>
    simp only [bind_eq_error, Option.some.injEq, exists_eq_left']
    apply or_congr Iff.rfl
    constructor
    · rintro ⟨_, p', ha, h⟩
      refine ⟨p', ha, h.imp_right ?_⟩
      rintro ⟨right, q, ho, h⟩
      refine ⟨right, q, ho, ?_⟩
      split at h
      · next hh => exact .inl ⟨hh, h⟩
      · next hh => exact .inr ⟨Nat.not_le.mp hh, (throw_eq_error.mp h).symm⟩
    · rintro ⟨p', ha, h⟩
      refine ⟨(), p', ha, h.imp_right ?_⟩
      rintro ⟨right, q, ho, ⟨hh, h⟩ | ⟨hh, h⟩⟩
      · refine ⟨right, q, ho, ?_⟩
        rw [dif_pos hh]
        exact h
      · refine ⟨right, q, ho, ?_⟩
        rw [dif_neg (Nat.not_le.mpr hh)]
        exact throw_eq_error.mpr h.symm

theorem chain_eq_error {level : Token.Kind → Option Operator} {operand : Parsing Subtree} :
    chain level operand p = .error f r ↔
      operand p = .error f r ∨
        ∃ left q, operand p = .ok left q ∧ chainFrom level operand left q = .error f r := by
  rw [chain, bind_eq_error]

/-! ## Statements -/

theorem target_eq_error :
    target p = .error f q ↔
      (p.current.kind ≠ .identifier ∧ q = p ∧
        f = .grammatical (.expectedIdentifier p.current.describe p.current.position)) ∨
      (p.current.kind = .identifier ∧ advance p.emptied = .error f q) := by
  simp only [target, get_bind]
  split
  · next h =>
    simp only [bind_eq_error, takeText_ne_error, false_or, takeText_eq_ok, pure_ne_error,
      and_false, exists_false, or_false]
    constructor
    · rintro ⟨_, _, ⟨rfl, rfl⟩, ha⟩; exact .inr ⟨h, ha⟩
    · rintro (⟨hk, -⟩ | ⟨-, ha⟩)
      · exact absurd h hk
      · exact ⟨_, _, ⟨rfl, rfl⟩, ha⟩
  · next h =>
    simp only [throw_eq_error, h, ne_eq, not_false_eq_true, true_and, false_and, or_false]
    exact and_comm

theorem statement_eq_error :
    statement p = .error f q ↔
      target p = .error f q ∨ ∃ name p₁, target p = .ok name p₁ ∧
        (expect .equals p₁ = .error f q ∨ ∃ p₂, expect .equals p₁ = .ok () p₂ ∧
          (expression p₂ = .error f q ∨ ∃ value p₃, expression p₂ = .ok value p₃ ∧
            expect .semicolon p₃ = .error f q)) := by
  simp only [statement, bind_eq_error, pure_ne_error, and_false, exists_false, or_false]
  apply or_congr Iff.rfl
  constructor
  · rintro ⟨name, p₁, ht, h⟩
    refine ⟨name, p₁, ht, h.imp_right ?_⟩
    rintro ⟨_, p₂, he, h⟩
    exact ⟨p₂, he, h⟩
  · rintro ⟨name, p₁, ht, h⟩
    refine ⟨name, p₁, ht, h.imp_right ?_⟩
    rintro ⟨p₂, he, h⟩
    exact ⟨(), p₂, he, h⟩

/-! ## Where a failure leaves the parser -/

/-- This fault, after these tokens, left the parser at `q`: where the tokens lead, perhaps with
another count of open groups, and for a foreign character perhaps without the text of the
identifier in front of it. -/
inductive Leaves : Parser → List Token → Fault → Parser → Prop where
  | whole {p r : Parser} {ts : List Token} {f : Fault} (n : Nat) (h : Passes p ts r) :
      Leaves p ts f { r with nesting := n }
  | emptied {p r : Parser} {ts : List Token} {g : LexFault} (n : Nat) (h : Passes p ts r)
      (hk : r.current.kind = .identifier) (hg : r.ahead = ⟨[], .error g⟩) :
      Leaves p ts (.lexical g) { r.emptied with nesting := n }

theorem Leaves.refl (p : Parser) (f : Fault) : Leaves p [] f p := .whole p.nesting (.nil p)

theorem Leaves.append {ts us : List Token} (h : Passes p ts q) (h' : Leaves q us f r) :
    Leaves p (ts ++ us) f r := by
  cases h' with
  | whole n h' => exact .whole n (h.append h')
  | emptied n h' hk hg => exact .emptied n (h.append h') hk hg

theorem Leaves.cons {ts : List Token} (ha : advance p = .ok () q) (h : Leaves q ts f r) :
    Leaves p (p.current :: ts) f r :=
  Leaves.append (.single ha) h

/-- Which tokens are passed does not depend on the open groups. -/
theorem Leaves.of_nesting {ts : List Token} {n : Nat} (h : Leaves { p with nesting := n } ts f q) :
    Leaves p ts f q := by
  cases h with
  | @whole r _ _ m h =>
    exact @Leaves.whole p { r with nesting := p.nesting } ts f m (h.of_nesting p.nesting)
  | @emptied r _ g m h hk hg =>
    exact @Leaves.emptied p { r with nesting := p.nesting } ts g m (h.of_nesting p.nesting) hk hg

/-- The kind of the token at hand is that of the token which the tokens lead to. -/
theorem Leaves.exists_passes {ts : List Token} (h : Leaves p ts f q) :
    ∃ r, Passes p ts r ∧ r.current.kind = q.current.kind ∧ r.ahead = q.ahead := by
  cases h with
  | whole n h => exact ⟨_, h, rfl, rfl⟩
  | emptied n h hk hg => exact ⟨_, h, rfl, rfl⟩

/-- After a syntax fault the token at hand is the one that the tokens lead to. -/
theorem Leaves.exists_passes_current {ts : List Token} {g : SyntaxFault}
    (h : Leaves p ts (.grammatical g) q) : ∃ r, Passes p ts r ∧ r.current = q.current := by
  cases h with
  | whole n h => exact ⟨_, h, rfl⟩

/-- The count of open groups is the same behind what was read and the token after it. -/
theorem Reads.nesting_of_advance {m : Nonterminal} {p' : Parser} {ts : List Token} {s : Subtree}
    (hr : Reads m p ts s q) (ha : advance q = .ok () p') : p'.nesting = p.nesting :=
  (Parser.nesting_of_advance ha).trans hr.passes.nesting_eq

/-! ## Failures of an expression -/

/-- The tokens start with an expression of the grammar, not too high, that the token after it does
not go on with. -/
def Completes (ts : List Token) : Prop :=
  ∃ us o vs e, ts = us ++ o :: vs ∧ Derives .expression us e ∧ e.height ≤ maxDepth ∧
    Nonterminal.expression.Stops o.kind

/-- Reading a factor fails at the token at hand, before it is passed. -/
inductive Refuses : Parser → Fault → Parser → Prop where
  | unexpected {p : Parser} (hn : p.current.kind ≠ .number) (hi : p.current.kind ≠ .identifier)
      (hl : p.current.kind ≠ .leftParen) :
      Refuses p (.grammatical (.unexpectedFactor p.current.describe p.current.position)) p
  | outOfRange {p : Parser} (hk : p.current.kind = .number)
      (hv : Integer.ofLiteral? p.current.text = none) :
      Refuses p (.grammatical (.integerOutOfRange p.current.text p.current.position)) p
  | tooDeep {p : Parser} (hk : p.current.kind = .leftParen) (hn : maxDepth ≤ p.nesting) :
      Refuses p (tooDeep p.current.position) p
  | number {p : Parser} {g : LexFault} (hk : p.current.kind = .number)
      (hv : ∃ n, Integer.ofLiteral? p.current.text = some n) (hg : p.ahead = ⟨[], .error g⟩) :
      Refuses p (.lexical g) p
  | identifier {p : Parser} {g : LexFault} (hk : p.current.kind = .identifier)
      (hg : p.ahead = ⟨[], .error g⟩) : Refuses p (.lexical g) p.emptied
  | leftParen {p : Parser} {g : LexFault} (hk : p.current.kind = .leftParen)
      (hn : p.nesting < maxDepth) (hg : p.ahead = ⟨[], .error g⟩) : Refuses p (.lexical g) p

/-- Reading a phrase of the nonterminal from `p` passed the tokens and then failed, which left the
parser at `q`. -/
inductive Fails : Nonterminal → Parser → List Token → Fault → Parser → Prop where
  | refused {p q : Parser} {f : Fault} (h : Refuses p f q) : Fails .factor p [] f q
  /-- Inside a group, which is not complete then. -/
  | inside {p p' q : Parser} {ts : List Token} {f : Fault} (hk : p.current.kind = .leftParen)
      (hn : p.nesting < maxDepth) (ha : advance p = .ok () p')
      (h : Fails .expression { p' with nesting := p'.nesting + 1 } ts f q)
      (hc : ¬Completes (ts ++ [q.current])) : Fails .factor p (p.current :: ts) f q
  /-- At the end of a group, of which only the parenthesis is missing. -/
  | close {p p' q r : Parser} {ts : List Token} {s : Subtree} {f : Fault}
      (hk : p.current.kind = .leftParen) (hn : p.nesting < maxDepth) (ha : advance p = .ok () p')
      (hr : Reads .expression { p' with nesting := p'.nesting + 1 } ts s r)
      (hs : Nonterminal.expression.Stops r.current.kind)
      (hc : expect .rightParen { r with nesting := r.nesting - 1 } = .error f q) :
      Fails .factor p (p.current :: ts) f q
  /-- In the first operand of a chain. -/
  | operand {m n : Nonterminal} {level : Token.Kind → Option Operator} {p q : Parser}
      {ts : List Token} {f : Fault} (hc : Chains m n level) (h : Fails n p ts f q) :
      Fails m p ts f q
  /-- At an operator with a foreign character behind it. -/
  | operator {m n : Nonterminal} {level : Token.Kind → Option Operator} {p q : Parser}
      {ts : List Token} {left : Subtree} {op : Operator} {g : LexFault} (hc : Chains m n level)
      (hl : Reads m p ts left q) (ho : level q.current.kind = some op)
      (hg : q.ahead = ⟨[], .error g⟩) : Fails m p ts (.lexical g) q
  /-- In an operand after an operator. -/
  | right {m n : Nonterminal} {level : Token.Kind → Option Operator} {p p' q r : Parser}
      {ts us : List Token} {left : Subtree} {op : Operator} {f : Fault} (hc : Chains m n level)
      (hl : Reads m p ts left q) (ho : level q.current.kind = some op)
      (ha : advance q = .ok () p') (h : Fails n p' us f r) :
      Fails m p (ts ++ q.current :: us) f r
  /-- With two operands whose operation is too high. -/
  | high {m n : Nonterminal} {level : Token.Kind → Option Operator} {p p' q r : Parser}
      {ts us : List Token} {left right : Subtree} {op : Operator} (hc : Chains m n level)
      (hl : Reads m p ts left q) (ho : level q.current.kind = some op)
      (ha : advance q = .ok () p') (hr : Reads n p' us right r) (hs : n.Stops r.current.kind)
      (hh : maxDepth < (left.join op right).height) :
      Fails m p (ts ++ q.current :: us) (Parser.tooDeep q.current.position) r

theorem Refuses.leaves (h : Refuses p f q) : Leaves p [] f q := by
  cases h with
  | identifier hk hg => exact .emptied p.nesting (.nil p) hk hg
  | _ => exact Leaves.refl p _

variable {m : Nonterminal} {ts : List Token}

theorem Fails.leaves (h : Fails m p ts f q) : Leaves p ts f q := by
  induction h with
  | refused h => exact h.leaves
  | inside hk hn ha h hc ih => exact ih.of_nesting.cons ha
  | @close p p' q r ts s f hk hn ha hr hs hc =>
    have hleaves : Leaves { p' with nesting := p'.nesting + 1 } ts f q := by
      rw [eq_of_expect_eq_error hc]
      exact .whole _ hr.passes
    exact hleaves.of_nesting.cons ha
  | operand hc h ih => exact ih
  | @operator m n level p q ts left op g hc hl ho hg => exact .whole q.nesting hl.passes
  | right hc hl ho ha h ih => exact Leaves.append hl.passes (ih.cons ha)
  | @high m n level p p' q r ts us left right op hc hl ho ha hr hs hh =>
    exact .whole r.nesting (hl.passes.append (.cons ha hr.passes))

/-- The tokens that were passed keep the limits. -/
theorem Fails.fits (h : Fails m p ts f q) : Fits p.nesting ts := by
  have hgroup : ∀ {p p' : Parser} {ts : List Token}, p.current.kind = .leftParen →
      p.nesting < maxDepth → advance p = .ok () p' → Fits (p'.nesting + 1) ts →
      Fits p.nesting (p.current :: ts) := by
    intro p p' ts hk hn ha hf
    rw [fits_cons, Token.openGroups_of_leftParen hk, fits_singleton]
    have hnest : p'.nesting = p.nesting := nesting_of_advance ha
    exact ⟨⟨by simp [hk], fun _ => hn⟩, hnest ▸ hf⟩
  have hchain : ∀ {m n : Nonterminal} {level : Token.Kind → Option Operator} {p p' q : Parser}
      {ts us : List Token} {left : Subtree} {op : Operator}, Chains m n level →
      Reads m p ts left q → level q.current.kind = some op → advance q = .ok () p' →
      Fits p'.nesting us → Fits p.nesting (ts ++ q.current :: us) := by
    intro m n level p p' q ts us left op hc hl ho ha hf
    have hnest : p'.nesting = p.nesting := hl.nesting_of_advance ha
    exact (fits_operation hl.derives (hc.operator ho)).mpr ⟨hl.fits, hnest ▸ hf⟩
  induction h with
  | refused h => exact ⟨by simp [NumbersFit], groupsFit_nil _⟩
  | inside hk hn ha h hc ih => exact hgroup hk hn ha ih
  | close hk hn ha hr hs hc => exact hgroup hk hn ha hr.fits
  | operand hc h ih => exact ih
  | operator hc hl ho hg => exact hl.fits
  | right hc hl ho ha h ih => exact hchain hc hl ho ha ih
  | high hc hl ho ha hr hs hh => exact hchain hc hl ho ha hr.fits

/-- The ending is not passed. -/
theorem Fails.kind_ne_ending (h : Fails m p ts f q) : ∀ t ∈ ts, t.kind ≠ .ending := by
  have hreads : ∀ {m : Nonterminal} {p q : Parser} {ts : List Token} {s : Subtree},
      Reads m p ts s q → ∀ t ∈ ts, t.kind ≠ .ending :=
    fun hr t ht => (hr.derives.kind_ne t ht).1
  have hoperator : ∀ {k : Token.Kind} {op : Operator},
      additive k = some op ∨ multiplicative k = some op → k ≠ .ending := by
    intro k op ho
    rcases kind_of_operator ho with rfl | rfl | rfl | rfl <;> simp
  induction h with
  | refused h => simp
  | inside hk hn ha h hc ih => exact List.forall_mem_cons.mpr ⟨by simp [hk], ih⟩
  | close hk hn ha hr hs hc => exact List.forall_mem_cons.mpr ⟨by simp [hk], hreads hr⟩
  | operand hc h ih => exact ih
  | operator hc hl ho hg => exact hreads hl
  | right hc hl ho ha h ih =>
    rw [List.forall_mem_append, List.forall_mem_cons]
    exact ⟨hreads hl, hoperator (hc.operator ho), ih⟩
  | high hc hl ho ha hr hs hh =>
    rw [List.forall_mem_append, List.forall_mem_cons]
    exact ⟨hreads hl, hoperator (hc.operator ho), hreads hr⟩

theorem Refuses.nesting_eq (h : Refuses p f q) : q.nesting = p.nesting := by
  cases h <;> rfl

/-- A group is only entered below the limit, so the count stays within it. -/
theorem Fails.nesting_le (h : Fails m p ts f q) (hn : p.nesting ≤ maxDepth) :
    q.nesting ≤ maxDepth := by
  induction h with
  | refused h => rw [h.nesting_eq]; exact hn
  | @inside p p' q ts f hk hlt ha h hc ih =>
    have hnest : p'.nesting = p.nesting := nesting_of_advance ha
    exact ih (by simp only; omega)
  | @close p p' q r ts s f hk hlt ha hr hs hc =>
    have hnest : p'.nesting = p.nesting := nesting_of_advance ha
    have hback : r.nesting = p'.nesting + 1 := hr.passes.nesting_eq
    rw [eq_of_expect_eq_error hc]
    simp only
    omega
  | operand hc h ih => exact ih hn
  | operator hc hl ho hg => rw [hl.passes.nesting_eq]; exact hn
  | @right m n level p p' q r ts us left op f hc hl ho ha h ih =>
    have hnest : p'.nesting = p.nesting := hl.nesting_of_advance ha
    exact ih (by omega)
  | @high m n level p p' q r ts us left right op hc hl ho ha hr hs hh =>
    have hnest : p'.nesting = p.nesting := hl.nesting_of_advance ha
    rw [hr.passes.nesting_eq]
    omega

/-! ## Every failure of an expression is one of these -/

/-- If at least `k` groups are open, and not too many, a failure of this step is a failure of the
nonterminal. -/
def Explains (k : Nat) (m : Nonterminal) (x : Parsing Subtree) : Prop :=
  ∀ ⦃p f q⦄, k ≤ p.nesting → p.nesting ≤ maxDepth → x p = .error f q → ∃ ts, Fails m p ts f q

theorem refuses_number (hk : p.current.kind = .number) (h : number p = .error f q) :
    Refuses p f q := by
  rcases number_eq_error.mp h with ⟨hv, rfl, rfl⟩ | ⟨hv, ha⟩
  · exact .outOfRange hk hv
  · obtain ⟨g, hg, rfl, rfl⟩ := advance_eq_error.mp ha
    exact .number hk hv hg

theorem refuses_variableName (hk : p.current.kind = .identifier)
    (h : variableName p = .error f q) : Refuses p f q := by
  obtain ⟨g, hg, rfl, rfl⟩ := advance_eq_error.mp (variableName_eq_error.mp h)
  exact .identifier hk hg

variable {below : Parsing Subtree} {levels : Nat}

/-- With enough levels, an expression of the grammar within the limits is read. -/
theorem expressionWithin_eq_ok {e : Tree} (hlevels : maxDepth < p.nesting + levels)
    (hn : p.nesting ≤ maxDepth) (h : Derives .expression ts e) (hp : Passes p ts q)
    (hf : Fits p.nesting ts) (hh : e.height ≤ maxDepth)
    (hs : Nonterminal.expression.Stops q.current.kind) :
    expressionWithin below levels p = .ok e.subtree q := by
  obtain ⟨k, rfl⟩ : ∃ k, levels = k + 1 := ⟨levels - 1, by omega⟩
  exact (resumes_of_derives h hp hf hh (by omega)).sum_eq_ok hs.2 hs.1

/-- An expression on which reading fails is not complete: else it would have been read. -/
theorem Fails.not_completes (h : Fails .expression p ts f q)
    (hrun : expressionWithin below levels p = .error f q)
    (hlevels : maxDepth < p.nesting + levels) (hn : p.nesting ≤ maxDepth) :
    ¬Completes (ts ++ [q.current]) := by
  rintro ⟨us, o, vs, e, heq, he, hh, hs⟩
  obtain ⟨r, hpass, hkind, -⟩ := h.leaves.exists_passes
  -- the expression lies within the tokens that were passed
  obtain ⟨ws, rfl, hw⟩ : ∃ ws, ts = us ++ ws ∧ ws ++ [q.current] = o :: vs := by
    rcases List.append_eq_append_iff.mp heq with ⟨ws, rfl, hw⟩ | ⟨ws, rfl, hw⟩
    · have hws : ws = [] := by
        have hlen := congrArg List.length hw
        rw [List.length_append, List.length_singleton, List.length_cons] at hlen
        exact List.length_eq_zero_iff.mp (by omega)
      rw [hws] at hw ⊢
      exact ⟨[], by simp, hw⟩
    · exact ⟨ws, rfl, hw.symm⟩
  obtain ⟨r₁, hus, hws⟩ := passes_append_iff.mp hpass
  have hr₁ : r₁.current.kind = o.kind := by
    cases ws with
    | nil =>
      cases hws
      rw [hkind, (List.cons.inj hw).1]
    | cons w ws =>
      obtain ⟨rfl, -⟩ := passes_cons_iff.mp hws
      rw [(List.cons.inj hw).1]
  have hok : expressionWithin below levels p = .ok e.subtree r₁ :=
    expressionWithin_eq_ok hlevels hn he hus (fits_append.mp h.fits).1 hh (hr₁ ▸ hs)
  rw [hok] at hrun
  cases hrun

/-- A group needs a level of its own, so the inside has one level less and one open group more. -/
theorem explains_factor (hbelow : Sound .expression below)
    (hin : Explains (maxDepth + 1 - levels) .expression (expressionWithin below levels)) :
    Explains (maxDepth - levels) .factor (factor (expressionWithin below levels)) := by
  intro p f q hk hn h
  rcases factor_eq_error.mp h with ⟨hkind, h⟩ | ⟨hkind, h⟩ | ⟨hkind, h⟩ | ⟨⟨h₁, h₂, h₃⟩, rfl, rfl⟩
  · exact ⟨[], .refused (refuses_number hkind h)⟩
  · exact ⟨[], .refused (refuses_variableName hkind h)⟩
  · rcases group_eq_error.mp h with ⟨hmax, rfl, rfl⟩ | ⟨hlt, ha | ⟨p', ha, hi⟩⟩
    · exact ⟨[], .refused (.tooDeep hkind hmax)⟩
    · obtain ⟨g, hg, rfl, rfl⟩ := advance_eq_error.mp ha
      exact ⟨[], .refused (.leftParen hkind hlt hg)⟩
    · have hnest : p'.nesting = p.nesting := nesting_of_advance ha
      rcases hi with hi | ⟨s, r, hi, hc⟩
      · obtain ⟨ts, hfails⟩ := hin (by simp only; omega) (by simp only; omega) hi
        have hnot := hfails.not_completes hi (by simp only; omega) (by simp only; omega)
        exact ⟨_, .inside hkind hlt ha hfails hnot⟩
      · obtain ⟨⟨ts, hr⟩, hs⟩ := sound_expressionWithin hbelow levels hi
        exact ⟨_, .close hkind hlt ha hr hs hc⟩
  · exact ⟨[], .refused (.unexpected h₁ h₂ h₃)⟩

variable {n : Nonterminal} {level : Token.Kind → Option Operator} {operand : Parsing Subtree}
  {k : Nat}

/-- The loop fails in one of its rounds. The induction is on the loop itself, from what was read
before it. -/
theorem explains_chainFrom (hc : Chains m n level) (hsound : Sound n operand)
    (hop : Explains k n operand) (hk : k ≤ p.nesting) (hn : p.nesting ≤ maxDepth) {left : Subtree}
    (hl : Reads m p ts left q) (h : chainFrom level operand left q = .error f r) :
    ∃ us, Fails m p us f r := by
  induction left using chainFrom.induct generalizing q ts with
  | case1 left ih =>
    obtain ⟨op, ho, ha | ⟨p', ha, h⟩⟩ := chainFrom_eq_error.mp h
    · obtain ⟨g, hg, rfl, rfl⟩ := advance_eq_error.mp ha
      exact ⟨ts, .operator hc hl ho hg⟩
    · have hnest : p'.nesting = p.nesting := hl.nesting_of_advance ha
      rcases h with h | ⟨right, p'', hr, h⟩
      · obtain ⟨us, hfails⟩ := hop (by omega) (by omega) h
        exact ⟨_, .right hc hl ho ha hfails⟩
      · obtain ⟨⟨us, hreads⟩, hs⟩ := hsound hr
        rcases h with ⟨hh, h⟩ | ⟨hh, rfl, rfl⟩
        · exact ih op right hh (hl.join hc ho ha hreads hh) h
        · exact ⟨_, .high hc hl ho ha hreads hs hh⟩

theorem explains_chain (hc : Chains m n level) (hsound : Sound n operand)
    (hop : Explains k n operand) : Explains k m (chain level operand) := by
  intro p f r hk hn h
  rcases chain_eq_error.mp h with h | ⟨left, q, ho, h⟩
  · obtain ⟨ts, hfails⟩ := hop hk hn h
    exact ⟨ts, .operand hc hfails⟩
  · obtain ⟨⟨ts, hl⟩, -⟩ := hsound ho
    exact explains_chainFrom hc hsound hop hk hn { hl with derives := hc.single hl.derives } h

/-- With levels for all groups that can still be opened, what is beneath the last one is never
come to. -/
theorem explains_expressionWithin (hbelow : Sound .expression below) (levels : Nat) :
    Explains (maxDepth + 1 - levels) .expression (expressionWithin below levels) := by
  induction levels with
  | zero =>
    intro p f q hk hn h
    omega
  | succ levels ih =>
    have hsound : Sound .factor (factor (expressionWithin below levels)) :=
      sound_factor (sound_expressionWithin hbelow levels)
    have hterm : Explains (maxDepth - levels) .term (term (expressionWithin below levels)) :=
      explains_chain .product hsound (explains_factor hbelow ih)
    rw [Nat.add_sub_add_right]
    exact explains_chain .sum (sound_chain .product hsound) hterm

theorem expression_fails (hn : p.nesting ≤ maxDepth) (h : expression p = .error f q) :
    ∃ ts, Fails .expression p ts f q := by
  have hbelow : Sound .expression (do throw (tooDeep (← get).current.position)) := by
    intro p s q h
    exact absurd h Parsing.throw_ne_ok
  exact explains_expressionWithin hbelow (maxDepth + 1) (by omega) hn h

/-! ## Failures of a statement -/

/-- Reading a statement from `p` passed the tokens and then failed, which left the parser at
`q`. -/
inductive StatementFails : Parser → List Token → Fault → Parser → Prop where
  /-- The statement does not begin with a name. -/
  | name {p : Parser} (hk : p.current.kind ≠ .identifier) :
      StatementFails p []
        (.grammatical (.expectedIdentifier p.current.describe p.current.position)) p
  | target {p : Parser} {g : LexFault} (hk : p.current.kind = .identifier)
      (hg : p.ahead = ⟨[], .error g⟩) : StatementFails p [] (.lexical g) p.emptied
  | equals {p p₁ q : Parser} {f : Fault} (hk : p.current.kind = .identifier)
      (ha : advance p = .ok () p₁) (he : expect .equals p₁ = .error f q) :
      StatementFails p [p.current] f q
  | value {p p₁ p₂ q : Parser} {ts : List Token} {f : Fault} (hk : p.current.kind = .identifier)
      (ha : advance p = .ok () p₁) (hq : p₁.current.kind = .equals) (hb : advance p₁ = .ok () p₂)
      (h : Fails .expression p₂ ts f q) : StatementFails p (p.current :: p₁.current :: ts) f q
  | semicolon {p p₁ p₂ p₃ q : Parser} {ts : List Token} {s : Subtree} {f : Fault}
      (hk : p.current.kind = .identifier) (ha : advance p = .ok () p₁)
      (hq : p₁.current.kind = .equals) (hb : advance p₁ = .ok () p₂)
      (hr : Reads .expression p₂ ts s p₃) (hs : Nonterminal.expression.Stops p₃.current.kind)
      (he : expect .semicolon p₃ = .error f q) :
      StatementFails p (p.current :: p₁.current :: ts) f q

theorem statement_fails (hn : p.nesting ≤ maxDepth) (h : statement p = .error f q) :
    ∃ ts, StatementFails p ts f q := by
  rcases statement_eq_error.mp h with h | ⟨name, p₁, ht, h⟩
  · rcases target_eq_error.mp h with ⟨hk, rfl, rfl⟩ | ⟨hk, ha⟩
    · exact ⟨[], .name hk⟩
    · obtain ⟨g, hg, rfl, rfl⟩ := advance_eq_error.mp ha
      exact ⟨[], .target hk hg⟩
  · obtain ⟨hk, ha, rfl⟩ := target_eq_ok.mp ht
    rcases h with he | ⟨p₂, he, h⟩
    · exact ⟨_, .equals hk ha he⟩
    · obtain ⟨hq, hb⟩ := expect_eq_ok.mp he
      have hnest : p₂.nesting = p.nesting := nesting_of_advances ha hb
      rcases h with hv | ⟨s, p₃, hv, hc⟩
      · obtain ⟨ts, hfails⟩ := expression_fails (by omega) hv
        exact ⟨_, .value hk ha hq hb hfails⟩
      · obtain ⟨⟨ts, hr⟩, hs⟩ := sound_expression hv
        exact ⟨_, .semicolon hk ha hq hb hr hs hc⟩

theorem StatementFails.leaves (h : StatementFails p ts f q) : Leaves p ts f q := by
  cases h with
  | name hk => exact Leaves.refl p _
  | target hk hg => exact .emptied p.nesting (.nil p) hk hg
  | equals hk ha he =>
    rw [eq_of_expect_eq_error he]
    exact Leaves.cons ha (Leaves.refl _ f)
  | value hk ha hq hb h => exact Leaves.cons ha (h.leaves.cons hb)
  | @semicolon p₁ p₂ p₃ q ts s f hk ha hq hb hr hs he =>
    have hleaves : Leaves p₂ ts f p₃ := .whole p₃.nesting hr.passes
    rw [eq_of_expect_eq_error he]
    exact Leaves.cons ha (hleaves.cons hb)

theorem StatementFails.kind_ne_ending (h : StatementFails p ts f q) :
    ∀ t ∈ ts, t.kind ≠ .ending := by
  have htarget : ∀ {k : Token.Kind}, k = .identifier → k ≠ .ending := by simp
  have hequals : ∀ {k : Token.Kind}, k = .equals → k ≠ .ending := by simp
  cases h with
  | name hk => simp
  | target hk hg => simp
  | equals hk ha he => exact List.forall_mem_singleton.mpr (htarget hk)
  | value hk ha hq hb h =>
    rw [List.forall_mem_cons, List.forall_mem_cons]
    exact ⟨htarget hk, hequals hq, h.kind_ne_ending⟩
  | semicolon hk ha hq hb hr hs he =>
    rw [List.forall_mem_cons, List.forall_mem_cons]
    exact ⟨htarget hk, hequals hq, fun t ht => (hr.derives.kind_ne t ht).1⟩

theorem StatementFails.nesting_le (h : StatementFails p ts f q) (hn : p.nesting ≤ maxDepth) :
    q.nesting ≤ maxDepth := by
  cases h with
  | name hk => exact hn
  | target hk hg => exact hn
  | equals hk ha he =>
    have hnest := nesting_of_advance ha
    rw [eq_of_expect_eq_error he]
    omega
  | value hk ha hq hb h =>
    have hnest := nesting_of_advances ha hb
    exact h.nesting_le (by omega)
  | semicolon hk ha hq hb hr hs he =>
    have hnest := nesting_of_advances ha hb
    have hback := hr.passes.nesting_eq
    rw [eq_of_expect_eq_error he]
    omega

end Parser

end Reckon
