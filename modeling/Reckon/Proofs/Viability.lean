import Reckon.Proofs.Grammar

/-!
  What a statement of the grammar can start with. `Viable ts` says that the tokens can be gone on
  with to a statement; the limits play no part. `viable_iff_walk` decides that by going through the
  tokens once: `Stage.next` says what may come next, and the only thing to remember is how many
  groups are open.

  From the left the tokens of a statement do not show their derivation, so the invariant of the
  walk (`Stage.Holds`) speaks of the derivations that there will be once all open groups are
  closed: `Ready d us` after an operand, `Wanting d us` in front of one.
-/

namespace Reckon

open Operator (additive multiplicative)

/-- The tokens are the start of a statement, or all of one. -/
def Viable (ts : List Token) : Prop := ∃ us name e, Statement (ts ++ us) name e

theorem Viable.of_append {ts us : List Token} (h : Viable (ts ++ us)) : Viable ts := by
  obtain ⟨vs, name, e, hs⟩ := h
  rw [List.append_assoc] at hs
  exact ⟨us ++ vs, name, e, hs⟩

/-! ## Stages -/

/-- How far a statement has been read. In an expression, `wanting d` is in front of an operand and
`ready d` behind one, with so many groups open. -/
inductive Stage where
  | start
  | named
  | wanting (groups : Nat)
  | ready (groups : Nat)
  | done
  deriving DecidableEq, Repr

namespace Stage

/-- The stage behind a token of this kind, if one may come. -/
def next : Stage → Token.Kind → Option Stage
  | start, .identifier => some named
  | named, .equals => some (wanting 0)
  | wanting d, .number => some (ready d)
  | wanting d, .identifier => some (ready d)
  | wanting d, .leftParen => some (wanting (d + 1))
  | ready d, .plus => some (wanting d)
  | ready d, .minus => some (wanting d)
  | ready d, .times => some (wanting d)
  | ready d, .slash => some (wanting d)
  | ready (d + 1), .rightParen => some (ready d)
  | ready 0, .semicolon => some done
  | _, _ => none

/-- The stage behind some tokens. -/
def walk (σ : Stage) (ts : List Token) : Option Stage := ts.foldlM (fun σ t => σ.next t.kind) σ

variable {σ τ : Stage} {d : Nat} {k : Token.Kind} {t : Token} {ts us : List Token}

theorem walk_cons (σ : Stage) (t : Token) (ts : List Token) :
    σ.walk (t :: ts) = (σ.next t.kind).bind fun τ => τ.walk ts := List.foldlM_cons

theorem walk_append (σ : Stage) (ts us : List Token) :
    σ.walk (ts ++ us) = (σ.walk ts).bind fun τ => τ.walk us := List.foldlM_append

theorem walk_cons_of_next (h : σ.next t.kind = some τ) : σ.walk (t :: ts) = τ.walk ts := by
  rw [walk_cons, h]
  rfl

theorem walk_append_of_walk (h : σ.walk ts = some τ) : σ.walk (ts ++ us) = τ.walk us := by
  rw [walk_append, h]
  rfl

/-! ## What may come next -/

theorem next_start_eq_some : start.next k = some τ ↔ k = .identifier ∧ τ = named := by
  cases k <;> simp [next, eq_comm]

theorem next_named_eq_some : named.next k = some τ ↔ k = .equals ∧ τ = wanting 0 := by
  cases k <;> simp [next, eq_comm]

theorem next_wanting_eq_some :
    (wanting d).next k = some τ ↔
      (k = .number ∨ k = .identifier) ∧ τ = ready d ∨ k = .leftParen ∧ τ = wanting (d + 1) := by
  cases k <;> simp [next, eq_comm]

theorem next_ready_eq_some :
    (ready d).next k = some τ ↔
      (∃ op, additive k = some op ∨ multiplicative k = some op) ∧ τ = wanting d ∨
      k = .rightParen ∧ (∃ n, d = n + 1 ∧ τ = ready n) ∨ k = .semicolon ∧ d = 0 ∧ τ = done := by
  cases k <;> cases d <;> simp [next, additive, multiplicative, eq_comm]

theorem next_operator {op : Operator} (h : additive k = some op ∨ multiplicative k = some op) :
    (ready d).next k = some (wanting d) :=
  next_ready_eq_some.mpr (.inl ⟨⟨op, h⟩, rfl⟩)

/-! ## The walk through a statement -/

theorem walk_leftParen (ht : t.kind = .leftParen) (d : Nat) :
    (wanting d).walk (t :: ts) = (wanting (d + 1)).walk ts :=
  walk_cons_of_next (next_wanting_eq_some.mpr (.inr ⟨ht, rfl⟩))

theorem walk_assign {x q : Token} (hx : x.kind = .identifier) (hq : q.kind = .equals) :
    start.walk (x :: q :: ts) = (wanting 0).walk ts := by
  rw [walk_cons_of_next (next_start_eq_some.mpr ⟨hx, rfl⟩)]
  exact walk_cons_of_next (next_named_eq_some.mpr ⟨hq, rfl⟩)

/-- An expression leads from in front of an operand behind one, in as many groups. -/
theorem walk_of_derives {m : Nonterminal} {e : Tree} (h : Derives m ts e) (d : Nat) :
    (wanting d).walk ts = some (ready d) := by
  induction h generalizing d with
  | number ht => exact walk_cons_of_next (by rw [ht]; rfl)
  | identifier ht => exact walk_cons_of_next (by rw [ht]; rfl)
  | @group l r ts e hl he hr ih =>
    rw [walk_leftParen hl, walk_append_of_walk (ih _)]
    exact walk_cons_of_next (by rw [hr]; rfl)
  | factor he ih => exact ih d
  | product ha ho hb iha ihb =>
    rw [walk_append_of_walk (iha d), walk_cons_of_next (next_operator (.inr ho))]
    exact ihb d
  | term he ih => exact ih d
  | sum ha ho hb iha ihb =>
    rw [walk_append_of_walk (iha d), walk_cons_of_next (next_operator (.inl ho))]
    exact ihb d

/-- Behind a complete left operand and its operator the walk is where it was. -/
theorem walk_operation {m : Nonterminal} {e : Tree} {op : Operator} (h : Derives m ts e)
    (ht : additive t.kind = some op ∨ multiplicative t.kind = some op) (d : Nat) :
    (wanting d).walk (ts ++ t :: us) = (wanting d).walk us := by
  rw [walk_append_of_walk (walk_of_derives h d)]
  exact walk_cons_of_next (next_operator ht)

theorem walk_of_statement {name : String} {e : Tree} (h : Statement ts name e) :
    start.walk ts = some done := by
  cases h with
  | assign hx hq he hs =>
    rw [walk_assign hx hq, walk_append_of_walk (walk_of_derives he 0)]
    exact walk_cons_of_next (by rw [hs]; rfl)

end Stage

/-! ## Derivations to come -/

variable {d : Nat} {t : Token} {ts us : List Token}

/-- An operator and a factor go on with any expression: below its last sum, if they bind
tighter. -/
theorem Derives.exists_operation {o : Token} {op : Operator} {a b : Tree}
    (ha : Derives .expression ts a)
    (ho : additive o.kind = some op ∨ multiplicative o.kind = some op)
    (hb : Derives .factor us b) : ∃ e, Derives .expression (ts ++ o :: us) e := by
  rcases ho with ho | ho
  · exact ⟨_, .sum ha ho (.factor hb)⟩
  · cases ha with
    | term ha => exact ⟨_, .term (.product ha ho hb)⟩
    | @sum ts vs o' op' a c ha ho' hc =>
      rw [List.append_assoc, List.cons_append]
      exact ⟨_, .sum ha ho' (.product hc ho hb)⟩

/-- Behind an operand with `d` groups open. The tokens are an expression once the groups are
closed: what is inside the innermost one is an expression already, and with any factor in place of
that group the tokens are behind an operand with one group less. -/
def Ready : Nat → List Token → Prop
  | 0, ts => ∃ e, Derives .expression ts e
  | d + 1, ts => ∃ us l vs e, ts = us ++ l :: vs ∧ l.kind = .leftParen ∧
      Derives .expression vs e ∧ ∀ ws b, Derives .factor ws b → Ready d (us ++ ws)

/-- In front of an operand with `d` groups open: any factor leads behind one. -/
def Wanting (d : Nat) (ts : List Token) : Prop :=
  ∀ ws b, Derives .factor ws b → Ready d (ts ++ ws)

theorem wanting_nil : Wanting 0 [] := fun _ b hb => ⟨b, .term (.factor hb)⟩

theorem Wanting.operand (h : Wanting d ts) (ht : t.kind = .number ∨ t.kind = .identifier) :
    Ready d (ts ++ [t]) := by
  rcases ht with ht | ht
  · exact h _ _ (.number ht)
  · exact h _ _ (.identifier ht)

theorem Wanting.leftParen (h : Wanting d ts) (ht : t.kind = .leftParen) :
    Wanting (d + 1) (ts ++ [t]) := by
  intro ws b hb
  exact ⟨ts, t, ws, b, by simp, ht, .term (.factor hb), h⟩

theorem Ready.operator {op : Operator} (h : Ready d ts)
    (ht : additive t.kind = some op ∨ multiplicative t.kind = some op) :
    Wanting d (ts ++ [t]) := by
  intro ws b hb
  rw [List.append_assoc, List.singleton_append]
  cases d with
  | zero =>
    obtain ⟨e, he⟩ := h
    exact he.exists_operation ht hb
  | succ d =>
    obtain ⟨us, l, vs, e, rfl, hl, he, hd⟩ := h
    obtain ⟨e', he'⟩ := he.exists_operation ht hb
    exact ⟨us, l, vs ++ t :: ws, e', by simp, hl, he', hd⟩

theorem Ready.rightParen (h : Ready (d + 1) ts) (ht : t.kind = .rightParen) :
    Ready d (ts ++ [t]) := by
  obtain ⟨us, l, vs, e, rfl, hl, he, hd⟩ := h
  have hgroup := hd _ _ (.group hl he ht)
  rwa [← List.cons_append, ← List.append_assoc] at hgroup

theorem Ready.exists_derives (h : Ready d ts) : ∃ us e, Derives .expression (ts ++ us) e := by
  induction d generalizing ts with
  | zero =>
    obtain ⟨e, he⟩ := h
    exact ⟨[], e, by rwa [List.append_nil]⟩
  | succ d ih =>
    obtain ⟨us, e, he⟩ := ih (h.rightParen (t := ⟨.rightParen, ")", 0⟩) rfl)
    rw [List.append_assoc] at he
    exact ⟨_, e, he⟩

/-! ## The walk decides -/

/-- The tokens assign, and those after the two at their start are as `P` says. -/
def Assigns (P : List Token → Prop) (ts : List Token) : Prop :=
  ∃ x q us, x.kind = .identifier ∧ q.kind = .equals ∧ ts = x :: q :: us ∧ P us

theorem Assigns.snoc {P Q : List Token → Prop} (h : Assigns P ts)
    (hPQ : ∀ us, P us → Q (us ++ [t])) : Assigns Q (ts ++ [t]) := by
  obtain ⟨x, q, us, hx, hq, rfl, hP⟩ := h
  exact ⟨x, q, us ++ [t], hx, hq, rfl, hPQ us hP⟩

namespace Stage

variable {σ τ : Stage}

/-- What the stage says about the tokens that led to it. -/
def Holds : Stage → List Token → Prop
  | start, ts => ts = []
  | named, ts => ∃ x, x.kind = .identifier ∧ ts = [x]
  | wanting d, ts => Assigns (Wanting d) ts
  | ready d, ts => Assigns (Ready d) ts
  | done, ts => ∃ name e, Statement ts name e

/-- One token on. -/
theorem Holds.next (h : σ.Holds ts) (hn : σ.next t.kind = some τ) : τ.Holds (ts ++ [t]) := by
  cases σ with
  | start =>
    obtain ⟨hk, rfl⟩ := next_start_eq_some.mp hn
    rw [show ts = [] from h]
    exact ⟨t, hk, rfl⟩
  | named =>
    obtain ⟨hk, rfl⟩ := next_named_eq_some.mp hn
    obtain ⟨x, hx, rfl⟩ := h
    exact ⟨x, t, [], hx, hk, rfl, wanting_nil⟩
  | wanting d =>
    rcases next_wanting_eq_some.mp hn with ⟨hk, rfl⟩ | ⟨hk, rfl⟩
    · exact Assigns.snoc h fun us hus => hus.operand hk
    · exact Assigns.snoc h fun us hus => hus.leftParen hk
  | ready d =>
    rcases next_ready_eq_some.mp hn with ⟨⟨op, hk⟩, rfl⟩ | ⟨hk, n, rfl, rfl⟩ | ⟨hk, rfl, rfl⟩
    · exact Assigns.snoc h fun us hus => hus.operator hk
    · exact Assigns.snoc h fun us hus => hus.rightParen hk
    · obtain ⟨x, q, us, hx, hq, rfl, e, he⟩ := h
      exact ⟨x.text, e, .assign hx hq he hk⟩
  | done => cases hn

theorem Holds.walk (h : σ.Holds ts) (hw : σ.walk us = some τ) : τ.Holds (ts ++ us) := by
  induction us generalizing σ ts with
  | nil =>
    obtain rfl := Option.some.inj hw
    rwa [List.append_nil]
  | cons u us ih =>
    rw [walk_cons] at hw
    obtain ⟨ρ, hn, hw⟩ := Option.bind_eq_some_iff.mp hw
    have hus := ih (h.next hn) hw
    rwa [List.append_assoc] at hus

/-- Every stage can be gone on from to a statement, by way of the stages after it. -/
theorem Holds.viable (h : σ.Holds ts) : Viable ts := by
  have hready : ∀ {d ts}, (ready d).Holds ts → Viable ts := by
    rintro d _ ⟨x, q, us, hx, hq, rfl, hus⟩
    obtain ⟨vs, e, he⟩ := hus.exists_derives
    refine ⟨vs ++ [⟨.semicolon, ";", 0⟩], x.text, e, ?_⟩
    rw [List.cons_append, List.cons_append, ← List.append_assoc]
    exact .assign hx hq he rfl
  have hwanting : ∀ {d ts}, (wanting d).Holds ts → Viable ts := fun h =>
    (hready (h.next (t := ⟨.number, "1", 0⟩) rfl)).of_append
  have hnamed : ∀ {ts}, named.Holds ts → Viable ts := fun h =>
    (hwanting (h.next (t := ⟨.equals, "=", 0⟩) rfl)).of_append
  cases σ with
  | start => exact (hnamed (h.next (t := ⟨.identifier, "x", 0⟩) rfl)).of_append
  | named => exact hnamed h
  | wanting d => exact hwanting h
  | ready d => exact hready h
  | done =>
    obtain ⟨name, e, hs⟩ := h
    exact ⟨[], name, e, by rwa [List.append_nil]⟩

end Stage

/-- The starts of statements are the tokens that the walk gets through. -/
theorem viable_iff_walk : Viable ts ↔ ∃ σ, Stage.start.walk ts = some σ := by
  constructor
  · rintro ⟨us, name, e, hs⟩
    have hwalk := Stage.walk_of_statement hs
    rw [Stage.walk_append] at hwalk
    obtain ⟨σ, hσ, -⟩ := Option.bind_eq_some_iff.mp hwalk
    exact ⟨σ, hσ⟩
  · rintro ⟨σ, hσ⟩
    have hstart : Stage.start.Holds [] := rfl
    exact (hstart.walk hσ).viable

theorem viable_nil : Viable [] := viable_iff_walk.mpr ⟨.start, rfl⟩

instance (ts : List Token) : Decidable (Viable ts) :=
  decidable_of_iff ((Stage.start.walk ts).isSome = true)
    (by rw [viable_iff_walk, Option.isSome_iff_exists])

-- an operand cannot follow the name at the start
example : ¬Viable [⟨.identifier, "x", 0⟩, ⟨.number, "1", 2⟩] := by decide

/-- Once the stage is known, the next token decides. -/
theorem viable_snoc_iff {σ : Stage} (h : Stage.start.walk ts = some σ) (t : Token) :
    Viable (ts ++ [t]) ↔ σ.next t.kind ≠ none := by
  have hsnoc : Stage.start.walk (ts ++ [t]) = σ.next t.kind := by
    rw [Stage.walk_append_of_walk h, Stage.walk_cons]
    cases σ.next t.kind <;> rfl
  rw [viable_iff_walk, hsnoc, Option.ne_none_iff_exists']

end Reckon
