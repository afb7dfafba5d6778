import Reckon.Parser

/-!
  The grammar of statements, over lists of tokens and apart from any way of reading them:

    statement  := IDENTIFIER '=' expression ';'
    expression := term (('+' | '-') term)*
    term       := factor (('*' | '/') factor)*
    factor     := NUMBER | IDENTIFIER | '(' expression ')'

  A derivation comes with its tree: the operators of one level group to the left, and
  parentheses leave no node. The grammar has no limits. Those are conditions of their own on the
  tokens (`NumbersFit`, `GroupsFit`) and on the tree (`Tree.height`).

  `Derives.openGroups_eq` says that a derivation closes the groups that it opens,
  `Derives.kind_ne` that it has no token of the statement around it, and
  `Statement.takeWhile_eq` that a statement ends with the first semicolon.
-/

namespace Reckon

/-! ## Derivations -/

/-- What an expression is made of. -/
inductive Nonterminal where
  | expression
  | term
  | factor
  deriving DecidableEq, Repr

/-- The tokens derive from the nonterminal, and the tree is that of the derivation. -/
inductive Derives : Nonterminal → List Token → Tree → Prop where
  | number {t : Token} (ht : t.kind = .number) :
      Derives .factor [t] (.number (Integer.ofDigits t.text.toList))
  | identifier {t : Token} (ht : t.kind = .identifier) : Derives .factor [t] (.var t.text)
  | group {l r : Token} {ts : List Token} {e : Tree} (hl : l.kind = .leftParen)
      (he : Derives .expression ts e) (hr : r.kind = .rightParen) :
      Derives .factor (l :: (ts ++ [r])) e
  | factor {ts : List Token} {e : Tree} (he : Derives .factor ts e) : Derives .term ts e
  | product {ts us : List Token} {o : Token} {op : Operator} {a b : Tree}
      (ha : Derives .term ts a) (ho : Operator.multiplicative o.kind = some op)
      (hb : Derives .factor us b) : Derives .term (ts ++ o :: us) (.binary op a b)
  | term {ts : List Token} {e : Tree} (he : Derives .term ts e) : Derives .expression ts e
  | sum {ts us : List Token} {o : Token} {op : Operator} {a b : Tree}
      (ha : Derives .expression ts a) (ho : Operator.additive o.kind = some op)
      (hb : Derives .term us b) : Derives .expression (ts ++ o :: us) (.binary op a b)

/-- The tokens are a statement that assigns the value of the expression to the name. -/
inductive Statement : List Token → String → Tree → Prop where
  | assign {x q s : Token} {ts : List Token} {e : Tree} (hx : x.kind = .identifier)
      (hq : q.kind = .equals) (he : Derives .expression ts e) (hs : s.kind = .semicolon) :
      Statement (x :: q :: (ts ++ [s])) x.text e

/-! ## Trees and limits -/

/-- The number of nodes on the longest way down a tree. -/
def Tree.height : Tree → Nat
  | number _ => 1
  | var _ => 1
  | binary _ left right => max left.height right.height + 1
  | assign _ value => value.height + 1

theorem Tree.height_pos (e : Tree) : 0 < e.height := by
  cases e with
  | number n => exact Nat.one_pos
  | var name => exact Nat.one_pos
  | binary op a b => exact Nat.succ_pos _
  | assign name value => exact Nat.succ_pos _

/-- The operands of a tree are no higher than the tree. -/
theorem Tree.height_operands {op : Operator} {a b : Tree} {n : Nat}
    (h : (Tree.binary op a b).height ≤ n) : a.height ≤ n ∧ b.height ≤ n := by
  simp only [Tree.height] at h
  omega

/-- The tree assigns nothing. -/
def Tree.AssignFree : Tree → Prop
  | number _ => True
  | var _ => True
  | binary _ left right => left.AssignFree ∧ right.AssignFree
  | assign _ _ => False

/-- How many groups are open after a token, if `n` were open before it. -/
def Token.openGroups (n : Nat) (t : Token) : Nat :=
  match t.kind with
  | .leftParen => n + 1
  | .rightParen => n - 1
  | _ => n

/-- How many groups are open after some tokens, if `n` were open before them. -/
def openGroups (n : Nat) (ts : List Token) : Nat := ts.foldl Token.openGroups n

/-- No parenthesis opens a group while `maxDepth` groups are open. -/
def GroupsFit (n : Nat) (ts : List Token) : Prop :=
  ∀ before l after, ts = before ++ l :: after → l.kind = .leftParen →
    openGroups n before < maxDepth

/-- Every number is a value. -/
def NumbersFit (ts : List Token) : Prop :=
  ∀ t ∈ ts, t.kind = .number → (Integer.ofDigits t.text.toList : Int) ≤ Integer.greatest

/-- Both limits hold for the tokens, if `n` groups are open before them. -/
structure Fits (n : Nat) (ts : List Token) : Prop where
  numbers : NumbersFit ts
  groups : GroupsFit n ts

/-! ## Keeping the limits -/

theorem openGroups_cons (n : Nat) (t : Token) (ts : List Token) :
    openGroups n (t :: ts) = openGroups (t.openGroups n) ts := rfl

theorem openGroups_append (n : Nat) (ts us : List Token) :
    openGroups n (ts ++ us) = openGroups (openGroups n ts) us := List.foldl_append

theorem Token.openGroups_of_leftParen {t : Token} (h : t.kind = .leftParen) (n : Nat) :
    t.openGroups n = n + 1 := by simp [Token.openGroups, h]

theorem Token.openGroups_of_rightParen {t : Token} (h : t.kind = .rightParen) (n : Nat) :
    t.openGroups n = n - 1 := by simp [Token.openGroups, h]

theorem Token.openGroups_of_ne {t : Token} (hl : t.kind ≠ .leftParen) (hr : t.kind ≠ .rightParen)
    (n : Nat) : t.openGroups n = n := by
  unfold Token.openGroups
  split <;> simp_all

theorem groupsFit_nil (n : Nat) : GroupsFit n [] := by
  intro before l after h
  simp at h

theorem groupsFit_cons {n : Nat} {t : Token} {ts : List Token} :
    GroupsFit n (t :: ts) ↔
      (t.kind = .leftParen → n < maxDepth) ∧ GroupsFit (t.openGroups n) ts := by
  constructor
  · intro h
    refine ⟨h [] t ts rfl, ?_⟩
    intro before l after hts hl
    exact h (t :: before) l after (by rw [hts, List.cons_append]) hl
  · rintro ⟨ht, hts⟩ before l after h hl
    cases before with
    | nil => cases h; exact ht hl
    | cons u before =>
      simp only [List.cons_append, List.cons.injEq] at h
      obtain ⟨rfl, h⟩ := h
      exact hts before l after h hl

theorem groupsFit_append {n : Nat} {ts us : List Token} :
    GroupsFit n (ts ++ us) ↔ GroupsFit n ts ∧ GroupsFit (openGroups n ts) us := by
  induction ts generalizing n with
  | nil => simp [groupsFit_nil, openGroups]
  | cons t ts ih =>
    rw [List.cons_append, groupsFit_cons, groupsFit_cons, ih, and_assoc, openGroups_cons]

theorem fits_append {n : Nat} {ts us : List Token} :
    Fits n (ts ++ us) ↔ Fits n ts ∧ Fits (openGroups n ts) us := by
  constructor
  · rintro ⟨hn, hg⟩
    obtain ⟨hg, hg'⟩ := groupsFit_append.mp hg
    rw [NumbersFit, List.forall_mem_append] at hn
    exact ⟨⟨hn.1, hg⟩, ⟨hn.2, hg'⟩⟩
  · rintro ⟨⟨hn, hg⟩, ⟨hn', hg'⟩⟩
    exact ⟨List.forall_mem_append.mpr ⟨hn, hn'⟩, groupsFit_append.mpr ⟨hg, hg'⟩⟩

theorem fits_cons {n : Nat} {t : Token} {ts : List Token} :
    Fits n (t :: ts) ↔ Fits n [t] ∧ Fits (t.openGroups n) ts := by
  show Fits n ([t] ++ ts) ↔ _
  rw [fits_append]
  rfl

theorem fits_singleton {n : Nat} {t : Token} :
    Fits n [t] ↔
      (t.kind = .number → (Integer.ofDigits t.text.toList : Int) ≤ Integer.greatest) ∧
        (t.kind = .leftParen → n < maxDepth) := by
  constructor
  · rintro ⟨hn, hg⟩
    exact ⟨hn t List.mem_cons_self, (groupsFit_cons.mp hg).1⟩
  · rintro ⟨hn, hg⟩
    exact ⟨by simpa [NumbersFit] using hn, groupsFit_cons.mpr ⟨hg, groupsFit_nil _⟩⟩

/-- A token that is no number and opens no group fits anywhere. -/
theorem fits_of_ne {t : Token} (hn : t.kind ≠ .number) (hl : t.kind ≠ .leftParen) (n : Nat) :
    Fits n [t] :=
  fits_singleton.mpr ⟨fun h => absurd h hn, fun h => absurd h hl⟩

/-- A token that is neither a number nor a parenthesis makes no difference to what follows. -/
theorem fits_cons_of_ne {n : Nat} {t : Token} {ts : List Token} (hn : t.kind ≠ .number)
    (hl : t.kind ≠ .leftParen) (hr : t.kind ≠ .rightParen) : Fits n (t :: ts) ↔ Fits n ts := by
  rw [fits_cons, Token.openGroups_of_ne hl hr]
  exact and_iff_right (fits_of_ne hn hl n)

/-! ## What a derivation consists of -/

/-- A token that joins terms or factors is no parenthesis, no leaf and no part of the statement
around the expression. -/
theorem kind_of_operator {k : Token.Kind} {op : Operator}
    (h : Operator.additive k = some op ∨ Operator.multiplicative k = some op) :
    k = .plus ∨ k = .minus ∨ k = .times ∨ k = .slash := by
  cases k <;> simp_all [Operator.additive, Operator.multiplicative]

theorem fits_operator {o : Token} {op : Operator}
    (h : Operator.additive o.kind = some op ∨ Operator.multiplicative o.kind = some op) (n : Nat) :
    Fits n [o] := by
  apply fits_of_ne <;> rcases kind_of_operator h with h | h | h | h <;> simp [h]

theorem openGroups_operator {o : Token} {op : Operator}
    (h : Operator.additive o.kind = some op ∨ Operator.multiplicative o.kind = some op) (n : Nat) :
    o.openGroups n = n := by
  apply Token.openGroups_of_ne <;> rcases kind_of_operator h with h | h | h | h <;> simp [h]

theorem Derives.openGroups_eq {m : Nonterminal} {ts : List Token} {e : Tree}
    (h : Derives m ts e) (n : Nat) : openGroups n ts = n := by
  induction h generalizing n with
  | number ht => exact Token.openGroups_of_ne (by simp [ht]) (by simp [ht]) n
  | identifier ht => exact Token.openGroups_of_ne (by simp [ht]) (by simp [ht]) n
  | group hl he hr ih =>
    rw [openGroups_cons, openGroups_append, ih, Token.openGroups_of_leftParen hl]
    exact Token.openGroups_of_rightParen hr _
  | factor he ih => exact ih n
  | product ha ho hb iha ihb =>
    rw [openGroups_append, iha, openGroups_cons, openGroups_operator (.inr ho), ihb]
  | term he ih => exact ih n
  | sum ha ho hb iha ihb =>
    rw [openGroups_append, iha, openGroups_cons, openGroups_operator (.inl ho), ihb]

/-- The ending and the marks of a statement stand in no expression. -/
theorem Derives.kind_ne {m : Nonterminal} {ts : List Token} {e : Tree} (h : Derives m ts e) :
    ∀ t ∈ ts, t.kind ≠ .ending ∧ t.kind ≠ .semicolon ∧ t.kind ≠ .equals := by
  have operator : ∀ {o : Token} {op : Operator},
      Operator.additive o.kind = some op ∨ Operator.multiplicative o.kind = some op →
        o.kind ≠ .ending ∧ o.kind ≠ .semicolon ∧ o.kind ≠ .equals := by
    intro o op ho
    rcases kind_of_operator ho with h | h | h | h <;> simp [h]
  induction h with
  | number ht => simp [ht]
  | identifier ht => simp [ht]
  | group hl he hr ih => simpa [hl, hr, or_imp, forall_and] using ih
  | factor he ih => exact ih
  | product ha ho hb iha ihb =>
    rw [List.forall_mem_append, List.forall_mem_cons]
    exact ⟨iha, operator (.inr ho), ihb⟩
  | term he ih => exact ih
  | sum ha ho hb iha ihb =>
    rw [List.forall_mem_append, List.forall_mem_cons]
    exact ⟨iha, operator (.inl ho), ihb⟩

theorem Derives.assignFree {m : Nonterminal} {ts : List Token} {e : Tree} (h : Derives m ts e) :
    e.AssignFree := by
  induction h with
  | number ht => trivial
  | identifier ht => trivial
  | group hl he hr ih => exact ih
  | factor he ih => exact ih
  | product ha ho hb iha ihb => exact ⟨iha, ihb⟩
  | term he ih => exact ih
  | sum ha ho hb iha ihb => exact ⟨iha, ihb⟩

theorem Derives.length_pos {m : Nonterminal} {ts : List Token} {e : Tree} (h : Derives m ts e) :
    0 < ts.length := by
  induction h with
  | number ht => exact Nat.one_pos
  | identifier ht => exact Nat.one_pos
  | group hl he hr ih => exact Nat.succ_pos _
  | factor he ih => exact ih
  | term he ih => exact ih
  | product ha ho hb iha ihb | sum ha ho hb iha ihb =>
    rw [List.length_append]
    exact Nat.add_pos_left iha _

theorem Statement.kind_ne_ending {ts : List Token} {name : String} {e : Tree}
    (h : Statement ts name e) : ∀ t ∈ ts, t.kind ≠ .ending := by
  cases h with
  | assign hx hq he hs =>
    intro t ht
    simp only [List.mem_cons, List.mem_append, List.not_mem_nil, or_false] at ht
    rcases ht with rfl | rfl | ht | rfl
    · simp [hx]
    · simp [hq]
    · exact (he.kind_ne t ht).1
    · simp [hs]

/-! ## The limits along a derivation -/

theorem fits_group {n : Nat} {l r : Token} {ts : List Token} (hl : l.kind = .leftParen)
    (hr : r.kind = .rightParen) :
    Fits n (l :: (ts ++ [r])) ↔ n < maxDepth ∧ Fits (n + 1) ts := by
  rw [fits_cons, fits_append, Token.openGroups_of_leftParen hl, fits_singleton]
  have hfit := @fits_of_ne r (by simp [hr]) (by simp [hr])
  simp [hl, hfit]

/-- The left operand closes the groups that it opens, so the right one starts with as many. -/
theorem fits_operation {m : Nonterminal} {n : Nat} {ts us : List Token} {o : Token}
    {op : Operator} {a : Tree} (ha : Derives m ts a)
    (ho : Operator.additive o.kind = some op ∨ Operator.multiplicative o.kind = some op) :
    Fits n (ts ++ o :: us) ↔ Fits n ts ∧ Fits n us := by
  rw [fits_append, fits_cons, ha.openGroups_eq, openGroups_operator ho]
  have hfit := fits_operator ho n
  simp [hfit]

theorem fits_statement {n : Nat} {x q s : Token} {ts : List Token} (hx : x.kind = .identifier)
    (hq : q.kind = .equals) (hs : s.kind = .semicolon) :
    Fits n (x :: q :: (ts ++ [s])) ↔ Fits n ts := by
  have hfs := @fits_of_ne s (by simp [hs]) (by simp [hs])
  rw [fits_cons_of_ne (by simp [hx]) (by simp [hx]) (by simp [hx]),
    fits_cons_of_ne (by simp [hq]) (by simp [hq]) (by simp [hq]), fits_append]
  simp [hfs]

theorem Statement.length_pos {ts : List Token} {name : String} {e : Tree}
    (h : Statement ts name e) : 0 < ts.length := by
  cases h with
  | assign hx hq he hs => exact Nat.succ_pos _

/-- A statement ends with the first semicolon. -/
theorem Statement.takeWhile_eq {ts : List Token} {name : String} {e : Tree}
    (h : Statement ts name e) (rest : List Token) :
    (ts ++ rest).takeWhile (fun t => t.kind ≠ .semicolon) = ts.dropLast := by
  cases h with
  | @assign x q s ts e hx hq he hs =>
    have hts : ∀ t ∈ x :: q :: ts, decide (t.kind ≠ .semicolon) = true := by
      intro t ht
      rcases List.mem_cons.mp ht with rfl | ht
      · simp [hx]
      · rcases List.mem_cons.mp ht with rfl | ht
        · simp [hq]
        · simpa using (he.kind_ne t ht).2.1
    have hlast : (x :: q :: (ts ++ [s])).dropLast = x :: q :: ts := by
      rw [← List.cons_append, ← List.cons_append, List.dropLast_concat]
    rw [hlast, ← List.cons_append, ← List.cons_append, List.append_assoc,
      List.takeWhile_append_of_pos hts]
    simp [hs]

end Reckon
