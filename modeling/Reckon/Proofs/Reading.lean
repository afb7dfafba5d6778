import Reckon.Parser

/-!
  When a step of the parser succeeds, what it returns then and where it leaves the parser: one
  equivalence for each function, in terms of the functions that it calls. They are read from left
  to right to take a successful run apart and from right to left to put one together, and nothing
  after this file unfolds the parser.

  `Passes p ts q` says that reading goes from `p` to `q` over the tokens `ts`. `passes_iff` ties
  that to the stream which the parser was started on.
-/

namespace Reckon

namespace Parsing

variable {α β : Type} {p q : Parser}

theorem bind_eq_ok {x : Parsing α} {f : α → Parsing β} {b : β} :
    (x >>= f) p = .ok b q ↔ ∃ a r, x p = .ok a r ∧ f a r = .ok b q := by
  simp only [bind, EStateM.bind]
  cases x p with
  | error f r => simp
  | ok a r =>
    constructor
    · exact fun h => ⟨a, r, rfl, h⟩
    · rintro ⟨_, _, ⟨⟩, h⟩; exact h

theorem pure_eq_ok {a b : α} : (pure a : Parsing α) p = .ok b q ↔ b = a ∧ q = p := by
  simp only [pure, EStateM.pure, EStateM.Result.ok.injEq]
  exact ⟨fun h => ⟨h.1.symm, h.2.symm⟩, fun h => ⟨h.1.symm, h.2.symm⟩⟩

theorem throw_ne_ok {f : Fault} {a : α} : (throw f : Parsing α) p ≠ .ok a q := by
  intro h
  cases h

theorem modify_eq_ok {g : Parser → Parser} {u : PUnit} :
    (modify g : Parsing PUnit) p = .ok u q ↔ q = g p := by
  change (EStateM.Result.ok PUnit.unit (g p) : EStateM.Result Fault Parser PUnit) = .ok u q ↔ _
  rw [EStateM.Result.ok.injEq]
  exact ⟨fun h => h.2.symm, fun h => ⟨rfl, h.symm⟩⟩

/-- A run that starts with a look at the parser. -/
theorem get_bind {f : Parser → Parsing β} : (get >>= f) p = f p p := rfl

end Parsing

namespace TokenStream

variable {r s : TokenStream} {t : Token}

/-- The next token is the first of the stream or, if there is none, the end of the text, which
stays. -/
theorem next_eq_ok :
    s.next = .ok t r ↔
      s = r.cons t ∨ ∃ n, s = ⟨[], .ok n⟩ ∧ t = .ending n ∧ r = s := by
  obtain ⟨tokens, ending⟩ := s
  cases tokens with
  | cons u us =>
    obtain ⟨tokens', ending'⟩ := r
    simp only [next, cons, EStateM.Result.ok.injEq, mk.injEq, List.cons.injEq, reduceCtorEq,
      false_and, exists_false, or_false]
    constructor
    · rintro ⟨rfl, rfl, rfl⟩; exact ⟨⟨rfl, rfl⟩, rfl⟩
    · rintro ⟨⟨rfl, rfl⟩, rfl⟩; exact ⟨rfl, rfl, rfl⟩
  | nil =>
    cases ending with
    | ok n => simp [next, cons, eq_comm]
    | error f => simp [next, cons]

/-- Only the foreign character at the end of a stream is an error, and it stays. -/
theorem next_eq_error {f : LexFault} :
    s.next = .error f r ↔ s = ⟨[], .error f⟩ ∧ r = s := by
  obtain ⟨tokens, ending⟩ := s
  cases tokens with
  | cons u us => simp [next]
  | nil =>
    cases ending with
    | ok n => simp [next]
    | error g => simp [next, eq_comm]

end TokenStream

namespace Parser

open Parsing

variable {p q r : Parser} {s : Subtree}

/-! ## Single tokens -/

/-- The parser stands at the start of the stream, its token at hand being the first. -/
def At (p : Parser) (s : TokenStream) : Prop := s.next = .ok p.current p.ahead

theorem start_eq_ok {s : TokenStream} : start s = .ok p ↔ p.At s ∧ p.nesting = 0 := by
  unfold start At
  cases hn : s.next with
  | error f a => simp
  | ok t a =>
    simp only [Except.ok.injEq, EStateM.Result.ok.injEq]
    constructor
    · rintro rfl; exact ⟨⟨rfl, rfl⟩, rfl⟩
    · rintro ⟨⟨rfl, rfl⟩, h⟩; rw [← h]

theorem advance_eq_ok : advance p = .ok () q ↔ q.At p.ahead ∧ q.nesting = p.nesting := by
  unfold advance At
  cases hn : p.ahead.next with
  | error f a => simp
  | ok t a =>
    simp only [EStateM.Result.ok.injEq, true_and]
    constructor
    · rintro rfl; exact ⟨⟨rfl, rfl⟩, rfl⟩
    · rintro ⟨⟨rfl, rfl⟩, h⟩; rw [← h]

/-- Going on leaves the count of open groups as it is. -/
theorem nesting_of_advance (ha : advance p = .ok () q) : q.nesting = p.nesting :=
  (advance_eq_ok.mp ha).2

theorem nesting_of_advances (ha : advance p = .ok () q) (hb : advance q = .ok () r) :
    r.nesting = p.nesting :=
  (nesting_of_advance hb).trans (nesting_of_advance ha)

/-- Going on does not depend on the token at hand. -/
theorem advance_of_current (t : Token) :
    advance { p with current := t } = .ok () q ↔ advance p = .ok () q := by
  rw [advance_eq_ok, advance_eq_ok]

/-- Going on does not depend on the open groups. -/
theorem advance_of_nesting (n : Nat) (h : advance p = .ok () q) :
    advance { p with nesting := n } = .ok () { q with nesting := n } := by
  rw [advance_eq_ok] at h ⊢
  exact ⟨h.1, rfl⟩

theorem takeText_eq_ok {name : String} :
    takeText p = .ok name q ↔
      name = p.current.text ∧ q = { p with current := { p.current with text := "" } } := by
  unfold takeText
  simp only [EStateM.Result.ok.injEq]
  exact ⟨fun h => ⟨h.1.symm, h.2.symm⟩, fun h => ⟨h.1.symm, h.2.symm⟩⟩

theorem expect_eq_ok {kind : Token.Kind} {u : Unit} :
    expect kind p = .ok u q ↔ p.current.kind = kind ∧ advance p = .ok () q := by
  rw [expect_eq]
  by_cases h : p.current.kind = kind
  · simp [h]
  · simp [h]

/-! ## Expressions -/

theorem number_eq_ok :
    number p = .ok s q ↔
      ∃ n, Integer.ofLiteral? p.current.text = some n ∧ advance p = .ok () q ∧
        s = .leaf (.number n) := by
  simp only [number, get_bind]
  cases hn : Integer.ofLiteral? p.current.text with
  | none => simp [throw_ne_ok]
  | some n =>
    simp only [bind_eq_ok, pure_eq_ok, Option.some.injEq]
    constructor
    · rintro ⟨_, _, ha, rfl, rfl⟩; exact ⟨n, rfl, ha, rfl⟩
    · rintro ⟨_, rfl, ha, rfl⟩; exact ⟨(), q, ha, rfl, rfl⟩

theorem variableName_eq_ok :
    variableName p = .ok s q ↔ advance p = .ok () q ∧ s = .leaf (.var p.current.text) := by
  simp only [variableName, bind_eq_ok, takeText_eq_ok, pure_eq_ok]
  constructor
  · rintro ⟨_, _, ⟨rfl, rfl⟩, _, r, ha, rfl, rfl⟩
    exact ⟨(advance_of_current _).mp ha, rfl⟩
  · rintro ⟨ha, rfl⟩
    exact ⟨_, _, ⟨rfl, rfl⟩, (), q, (advance_of_current _).mpr ha, rfl, rfl⟩

theorem group_eq_ok {inside : Parsing Subtree} :
    group inside p = .ok s r ↔
      p.nesting < maxDepth ∧ ∃ p' q, advance p = .ok () p' ∧
        inside { p' with nesting := p'.nesting + 1 } = .ok s q ∧
        q.current.kind = .rightParen ∧ advance { q with nesting := q.nesting - 1 } = .ok () r := by
  simp only [group, get_bind]
  split
  · next h => simp [throw_ne_ok, Nat.not_lt.mpr h]
  · next h =>
    simp only [bind_eq_ok, modify_eq_ok, expect_eq_ok, pure_eq_ok]
    constructor
    · rintro ⟨_, p', ha, _, _, rfl, t, q, hi, _, _, rfl, _, _, ⟨hk, hc⟩, rfl, rfl⟩
      exact ⟨Nat.not_le.mp h, p', q, ha, hi, hk, hc⟩
    · rintro ⟨-, p', q, ha, hi, hk, hc⟩
      exact ⟨(), p', ha, ⟨⟩, _, rfl, s, q, hi, ⟨⟩, _, rfl, (), r, ⟨hk, hc⟩, rfl, rfl⟩

theorem factor_eq_ok {inside : Parsing Subtree} :
    factor inside p = .ok s q ↔
      (p.current.kind = .number ∧ number p = .ok s q) ∨
      (p.current.kind = .identifier ∧ variableName p = .ok s q) ∨
      (p.current.kind = .leftParen ∧ group inside p = .ok s q) := by
  simp only [factor, get_bind]
  cases hk : p.current.kind <;> simp [throw_ne_ok]

theorem chainFrom_eq_ok {level : Token.Kind → Option Operator} {operand : Parsing Subtree}
    {left : Subtree} :
    chainFrom level operand left p = .ok s r ↔
      (level p.current.kind = none ∧ s = left ∧ r = p) ∨
      ∃ op p' right q, level p.current.kind = some op ∧ advance p = .ok () p' ∧
        operand p' = .ok right q ∧ (left.join op right).height ≤ maxDepth ∧
        chainFrom level operand (left.join op right) q = .ok s r := by
  rw [chainFrom, get_bind]
  cases hl : level p.current.kind with
  | none => simp [pure_eq_ok]
  | some op =>
    simp only [bind_eq_ok, reduceCtorEq, false_and, Option.some.injEq, false_or]
    constructor
    · rintro ⟨_, p', ha, right, q, ho, h⟩
      split at h
      · next hh => exact ⟨op, p', right, q, rfl, ha, ho, hh, h⟩
      · exact absurd h throw_ne_ok
    · rintro ⟨_, p', right, q, rfl, ha, ho, hh, h⟩
      refine ⟨(), p', ha, right, q, ho, ?_⟩
      rw [dif_pos hh]
      exact h

theorem chain_eq_ok {level : Token.Kind → Option Operator} {operand : Parsing Subtree} :
    chain level operand p = .ok s r ↔
      ∃ left q, operand p = .ok left q ∧ chainFrom level operand left q = .ok s r := by
  rw [chain, bind_eq_ok]

/-- Behind its first operand a chain is the loop. -/
theorem chain_of_ok {level : Token.Kind → Option Operator} {operand : Parsing Subtree}
    (h : operand p = .ok s q) : chain level operand p = chainFrom level operand s q := by
  simp only [chain, bind, EStateM.bind, h]

/-- One round of the loop joins the next operand to what it has, if the operation is not too
high. -/
theorem chainFrom_of_some {level : Token.Kind → Option Operator} {operand : Parsing Subtree}
    {left right : Subtree} {op : Operator} {p' : Parser} (ho : level p.current.kind = some op)
    (ha : advance p = .ok () p') (hr : operand p' = .ok right q)
    (hh : (left.join op right).height ≤ maxDepth) :
    chainFrom level operand left p = chainFrom level operand (left.join op right) q := by
  rw [chainFrom, get_bind, ho]
  simp only [bind, EStateM.bind, ha, hr, dif_pos hh]

/-- A chain ends before a token that is no operator of its level. -/
theorem chainFrom_of_none {level : Token.Kind → Option Operator} {operand : Parsing Subtree}
    (h : level p.current.kind = none) : chainFrom level operand s p = .ok s p :=
  chainFrom_eq_ok.mpr (.inl ⟨h, rfl, rfl⟩)

/-! ## Statements -/

theorem target_eq_ok {name : String} :
    target p = .ok name q ↔
      p.current.kind = .identifier ∧ advance p = .ok () q ∧ name = p.current.text := by
  simp only [target, get_bind]
  split
  · next h =>
    simp only [bind_eq_ok, takeText_eq_ok, pure_eq_ok]
    constructor
    · rintro ⟨_, _, ⟨rfl, rfl⟩, _, r, ha, rfl, rfl⟩
      exact ⟨h, (advance_of_current _).mp ha, rfl⟩
    · rintro ⟨-, ha, rfl⟩
      exact ⟨_, _, ⟨rfl, rfl⟩, (), q, (advance_of_current _).mpr ha, rfl, rfl⟩
  · next h => simp [throw_ne_ok, h]

theorem statement_eq_ok {t : Tree} :
    statement p = .ok t r ↔
      ∃ name p₁ p₂ value p₃, target p = .ok name p₁ ∧ expect .equals p₁ = .ok () p₂ ∧
        expression p₂ = .ok value p₃ ∧ expect .semicolon p₃ = .ok () r ∧
        t = .assign name value.tree := by
  simp only [statement, bind_eq_ok, pure_eq_ok]
  constructor
  · rintro ⟨name, p₁, ht, _, p₂, he, value, p₃, hv, _, _, hs, rfl, rfl⟩
    exact ⟨name, p₁, p₂, value, p₃, ht, he, hv, hs, rfl⟩
  · rintro ⟨name, p₁, p₂, value, p₃, ht, he, hv, hs, rfl⟩
    exact ⟨name, p₁, ht, (), p₂, he, value, p₃, hv, (), r, hs, rfl, rfl⟩

/-! ## Runs of tokens -/

/-- Reading goes from the one parser to the other over these tokens. -/
inductive Passes : Parser → List Token → Parser → Prop where
  | nil (p : Parser) : Passes p [] p
  | cons {p q r : Parser} {ts : List Token} (ha : advance p = .ok () q) (h : Passes q ts r) :
      Passes p (p.current :: ts) r

theorem Passes.single (ha : advance p = .ok () q) : Passes p [p.current] q := .cons ha (.nil q)

theorem Passes.append {ts us : List Token} (h : Passes p ts q) (h' : Passes q us r) :
    Passes p (ts ++ us) r := by
  induction h with
  | nil p => exact h'
  | cons ha h ih => exact .cons ha (ih h')

theorem passes_cons_iff {t : Token} {ts : List Token} :
    Passes p (t :: ts) r ↔ t = p.current ∧ ∃ q, advance p = .ok () q ∧ Passes q ts r := by
  constructor
  · rintro (_ | ⟨ha, h⟩)
    exact ⟨rfl, _, ha, h⟩
  · rintro ⟨rfl, q, ha, h⟩
    exact .cons ha h

theorem passes_append_iff {ts us : List Token} :
    Passes p (ts ++ us) r ↔ ∃ q, Passes p ts q ∧ Passes q us r := by
  constructor
  · intro h
    induction ts generalizing p with
    | nil => exact ⟨p, .nil p, h⟩
    | cons t ts ih =>
      obtain ⟨rfl, p', ha, h⟩ := passes_cons_iff.mp h
      obtain ⟨q, hq, hr⟩ := ih h
      exact ⟨q, .cons ha hq, hr⟩
  · rintro ⟨q, h, h'⟩
    exact h.append h'

theorem Passes.nesting_eq {ts : List Token} (h : Passes p ts q) : q.nesting = p.nesting := by
  induction h with
  | nil p => rfl
  | cons ha h ih => rw [ih, nesting_of_advance ha]

/-- Reading does not depend on the open groups. -/
theorem Passes.of_nesting {ts : List Token} (n : Nat) (h : Passes p ts q) :
    Passes { p with nesting := n } ts { q with nesting := n } := by
  induction h with
  | nil p => exact .nil _
  | cons ha h ih => exact .cons (advance_of_nesting n ha) ih

/-! ## The stream under a parser -/

theorem at_cons {t : Token} {ts : List Token} {e : Except LexFault Nat} :
    p.At ⟨t :: ts, e⟩ ↔ t = p.current ∧ ⟨ts, e⟩ = p.ahead := by
  simp [At, TokenStream.next]

theorem at_unique {s : TokenStream} (hp : p.At s) (hq : q.At s) (hn : p.nesting = q.nesting) :
    p = q := by
  unfold At at hp hq
  rw [hp] at hq
  obtain ⟨h, h'⟩ := EStateM.Result.ok.inj hq
  cases p; cases q
  simp_all

/-- A parser can stand at the start of a stream that holds a token or ends with the text. -/
theorem exists_at_iff {ts : List Token} {e : Except LexFault Nat} (n : Nat) :
    (∃ p : Parser, p.At ⟨ts, e⟩ ∧ p.nesting = n) ↔
      (ts = [] → ∃ position, e = .ok position) := by
  cases ts with
  | cons t ts => exact ⟨by simp, fun _ => ⟨⟨t, ⟨ts, e⟩, n⟩, rfl, rfl⟩⟩
  | nil =>
    cases e with
    | ok position =>
      refine ⟨fun _ _ => ⟨position, rfl⟩, fun _ => ?_⟩
      exact ⟨⟨.ending position, ⟨[], .ok position⟩, n⟩, rfl, rfl⟩
    | error f => simp [At, TokenStream.next]

/-- Over tokens at the start of its stream, reading goes to the rest of the stream. -/
theorem passes_iff {ts rest : List Token} {e : Except LexFault Nat} (hp : p.At ⟨ts ++ rest, e⟩) :
    Passes p ts q ↔ q.At ⟨rest, e⟩ ∧ q.nesting = p.nesting := by
  induction ts generalizing p with
  | nil =>
    constructor
    · rintro ⟨⟩; exact ⟨hp, rfl⟩
    · rintro ⟨hq, hn⟩; rw [at_unique hq hp hn]; exact .nil p
  | cons t ts ih =>
    obtain ⟨rfl, hts⟩ := at_cons.mp hp
    rw [passes_cons_iff]
    constructor
    · rintro ⟨-, p', ha, h⟩
      obtain ⟨hp', hn⟩ := advance_eq_ok.mp ha
      rw [← hn, ← ih (hts ▸ hp')]
      exact h
    · rintro ⟨hq, hn⟩
      have hlive : ts ++ rest = [] → ∃ position, e = .ok position := fun h =>
        (exists_at_iff q.nesting).mp ⟨q, hq, rfl⟩ (List.append_eq_nil_iff.mp h).2
      obtain ⟨p', hp', hn'⟩ := (exists_at_iff p.nesting).mpr hlive
      exact ⟨rfl, p', advance_eq_ok.mpr ⟨hts ▸ hp', hn'⟩, (ih hp').mpr ⟨hq, hn.trans hn'.symm⟩⟩

/-- Tokens that are passed and are not the ending come from the stream. -/
theorem Passes.exists_rest {ts : List Token} {s : TokenStream} (h : Passes p ts q)
    (hp : p.At s) (hts : ∀ t ∈ ts, t.kind ≠ .ending) :
    ∃ rest, s.tokens = ts ++ rest ∧ q.At ⟨rest, s.ending⟩ := by
  induction h generalizing s with
  | nil p => exact ⟨s.tokens, rfl, hp⟩
  | @cons p q r ts ha h ih =>
    rw [List.forall_mem_cons] at hts
    obtain ⟨tokens, e⟩ := s
    cases tokens with
    | nil =>
      cases e with
      | error f => cases hp
      | ok position =>
        obtain ⟨hc, -⟩ := EStateM.Result.ok.inj hp
        exact absurd (congrArg Token.kind hc.symm) hts.1
    | cons t tokens =>
      obtain ⟨rfl, hts'⟩ := at_cons.mp hp
      obtain ⟨rest, htokens, hr⟩ := ih (hts' ▸ (advance_eq_ok.mp ha).1) hts.2
      exact ⟨rest, congrArg (p.current :: ·) htokens, hr⟩

end Parser

end Reckon
