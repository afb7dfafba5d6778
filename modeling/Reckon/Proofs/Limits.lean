import Mathlib.Control.Monad.Basic
import Reckon.Proofs.Diagnosis

/-!
  The limits of the parser are reported at the first place that breaks one. Groups and operations
  are checked one after the other as the tokens come, a group when it is entered and an operation
  when its right operand is complete, so what `first` means has to be said of the tokens.

  `Awaits m ts joined` takes the tokens in front of a phrase apart: parentheses that are open there
  and left operands with their operators. `joined` are the operations in those operands, which are
  the ones that were joined by then; the operators between them wait for their right operands.
  `Breaks` adds the place where a limit is broken, by one, while all that was entered and joined
  before keeps it.

  The fault is raised exactly at such a place. `Parser.Fails.breaks` follows the way to a failure,
  with more and more in front of the phrase that is read; `Parser.expressionWithin_eq_error` goes
  back out of the phrases that a failure leaves incomplete.
-/

namespace Reckon

/-! ## Operations in a tree -/

/-- The operations in a tree in the order in which they are joined: behind those in their
operands, and the left operand before the right one. -/
def Tree.operations : Tree → List Tree
  | number _ => []
  | var _ => []
  | binary op left right => left.operations ++ right.operations ++ [binary op left right]
  | assign _ value => value.operations

theorem Tree.height_le_of_mem_operations {e t : Tree} (h : e ∈ t.operations) :
    e.height ≤ t.height := by
  induction t with
  | number n => simp [operations] at h
  | var name => simp [operations] at h
  | binary op a b iha ihb =>
    have hheight : (binary op a b).height = max a.height b.height + 1 := rfl
    simp only [operations, List.mem_append, List.mem_singleton] at h
    rcases h with (h | h) | rfl
    · have hle := iha h
      omega
    · have hle := ihb h
      omega
    · exact Nat.le_refl _
  | assign name value ih => exact Nat.le_succ_of_le (ih h)

/-! ## Places in a statement -/

/-- The tokens of an expression up to a phrase of the nonterminal, which has to come next. In front
of it groups are open, and operators wait for their right operand. The trees are the operations in
their left operands, which are complete, in the order in which they were joined. -/
inductive Awaits : Nonterminal → List Token → List Tree → Prop where
  | start : Awaits .expression [] []
  /-- Inside a group, at its start. -/
  | group {ts : List Token} {joined : List Tree} {l : Token} (h : Awaits .factor ts joined)
      (hl : l.kind = .leftParen) : Awaits .expression (ts ++ [l]) joined
  /-- At the first operand of a chain. -/
  | first {m n : Nonterminal} {level : Token.Kind → Option Operator} {ts : List Token}
      {joined : List Tree} (hc : Chains m n level) (h : Awaits m ts joined) : Awaits n ts joined
  /-- At the operand behind an operator. -/
  | right {m n : Nonterminal} {level : Token.Kind → Option Operator} {ts us : List Token}
      {joined : List Tree} {o : Token} {op : Operator} {a : Tree} (hc : Chains m n level)
      (h : Awaits m ts joined) (ha : Derives m us a) (ho : level o.kind = some op) :
      Awaits n (ts ++ us ++ [o]) (joined ++ a.operations)

/-- With these tokens of an expression passed and this one at hand, a limit is broken at the
position, and everything before keeps the limits. -/
inductive Breaks (position : Nat) : List Token → Token → Prop where
  /-- By the parenthesis at hand, with as many groups open as there can be. -/
  | group {ts : List Token} {joined : List Tree} {l : Token} (h : Awaits .factor ts joined)
      (hl : l.kind = .leftParen) (hposition : l.position = position)
      (hopen : openGroups 0 ts = maxDepth) (hfits : Fits 0 ts)
      (hjoined : ∀ e ∈ joined, e.height ≤ maxDepth) : Breaks position ts l
  /-- By an operator that was passed. Both operands are complete and keep the limit, and their
  operation is one too high. -/
  | operation {m n : Nonterminal} {level : Token.Kind → Option Operator} {ts us vs : List Token}
      {joined : List Tree} {o c : Token} {op : Operator} {a b : Tree} (hc : Chains m n level)
      (h : Awaits m ts joined) (ha : Derives m us a) (ho : level o.kind = some op)
      (hb : Derives n vs b) (hs : n.Stops c.kind) (hposition : o.position = position)
      (hleft : a.height ≤ maxDepth) (hright : b.height ≤ maxDepth)
      (hheight : (Tree.binary op a b).height = maxDepth + 1)
      (hfits : Fits 0 (ts ++ us ++ o :: vs))
      (hjoined : ∀ e ∈ joined ++ a.operations ++ b.operations, e.height ≤ maxDepth) :
      Breaks position (ts ++ us ++ o :: vs) c

/-- An operand and an operator behind it leave open what was open before. -/
theorem Derives.openGroups_snoc {m n : Nonterminal} {level : Token.Kind → Option Operator}
    {ts front : List Token} {o : Token} {op : Operator} {a : Tree} (h : Derives m ts a)
    (hc : Chains m n level) (ho : level o.kind = some op) :
    openGroups 0 (front ++ ts ++ [o]) = openGroups 0 front := by
  rw [openGroups_append, openGroups_append, h.openGroups_eq]
  exact openGroups_operator (hc.operator ho) _

namespace Parser

variable {p q r : Parser} {f : Fault} {m n : Nonterminal} {ts : List Token} {s : Subtree}

theorem expect_ne_tooDeep {kind : Token.Kind} {limit position : Nat} :
    expect kind p ≠ .error (.grammatical (.nestingTooDeep limit position)) q := by
  intro h
  rcases expect_eq_error.mp h with ⟨-, -, hf⟩ | ⟨-, -, g, -, hf⟩
  · cases hf
  · cases hf

theorem tooDeep_eq {position limit position' : Nat}
    (h : tooDeep position = .grammatical (.nestingTooDeep limit position')) :
    limit = maxDepth ∧ position = position' := by
  simp only [tooDeep, Fault.grammatical.injEq, SyntaxFault.nestingTooDeep.injEq] at h
  exact ⟨h.1.symm, h.2⟩

/-- What was read keeps the limit, and so does every operation in it. -/
theorem Reads.operations_le (h : Reads m p ts s q) :
    ∀ e ∈ s.tree.operations, e.height ≤ maxDepth := by
  intro e he
  have hle := Tree.height_le_of_mem_operations he
  have hheight := h.height_eq
  have hlimit := h.height_le
  omega

/-- A failure at one of the limits breaks it. The induction is on the failure, and what lies in
front of its phrase grows by what is passed on the way. -/
theorem Fails.breaks {limit position : Nat} (h : Fails m p ts f q)
    (hf : f = .grammatical (.nestingTooDeep limit position)) (hn : p.nesting ≤ maxDepth)
    {front : List Token} {joined : List Tree} (ha : Awaits m front joined)
    (hjoined : ∀ e ∈ joined, e.height ≤ maxDepth) (hopen : openGroups 0 front = p.nesting)
    (hfits : Fits 0 (front ++ ts)) :
    limit = maxDepth ∧ Breaks position (front ++ ts) q.current := by
  induction h generalizing front joined with
  | @refused p q f h =>
    cases h with
    | tooDeep hk hmax =>
      obtain ⟨hlimit, hposition⟩ := tooDeep_eq hf
      rw [List.append_nil] at hfits ⊢
      exact ⟨hlimit, .group ha hk hposition (by omega) hfits hjoined⟩
    | _ => cases hf
  | @inside p p' q ts f hk hlt hadv h hc ih =>
    have hnest : p'.nesting = p.nesting := nesting_of_advance hadv
    have hopen' : openGroups 0 (front ++ [p.current]) = p'.nesting + 1 := by
      rw [openGroups_append, hopen, hnest]
      exact Token.openGroups_of_leftParen hk _
    rw [← List.singleton_append, ← List.append_assoc] at hfits ⊢
    exact ih hf (by simp only; omega) (ha.group hk) hjoined hopen' hfits
  | close hk hlt hadv hr hs hc =>
    rw [hf] at hc
    exact absurd hc expect_ne_tooDeep
  | operand hc h ih => exact ih hf hn (.first hc ha) hjoined hopen hfits
  | operator hc hl ho hg => cases hf
  | @right m n level p p' q r ts us left op f hc hl ho hadv h ih =>
    have hnest : p'.nesting = p.nesting := hl.nesting_of_advance hadv
    have hopen' : openGroups 0 (front ++ ts ++ [q.current]) = p'.nesting := by
      rw [hl.derives.openGroups_snoc hc ho, hopen, hnest]
    have hassoc : front ++ (ts ++ q.current :: us) = front ++ ts ++ [q.current] ++ us := by simp
    rw [hassoc] at hfits ⊢
    exact ih hf (by omega) (.right hc ha hl.derives ho)
      (List.forall_mem_append.mpr ⟨hjoined, hl.operations_le⟩) hopen' hfits
  | @high m n level p p' q r ts us left right op hc hl ho hadv hr hs hh =>
    obtain ⟨hlimit, hposition⟩ := tooDeep_eq hf
    have hleft : left.tree.height ≤ maxDepth := hl.height_eq ▸ hl.height_le
    have hright : right.tree.height ≤ maxDepth := hr.height_eq ▸ hr.height_le
    have hheight : (Tree.binary op left.tree right.tree).height = maxDepth + 1 := by
      have hjoin : (left.join op right).height = max left.height right.height + 1 := rfl
      rw [hl.height_eq, hr.height_eq] at hjoin
      rw [Tree.height]
      omega
    rw [← List.append_assoc] at hfits ⊢
    refine ⟨hlimit, .operation hc ha hl.derives ho hr.derives hs hposition hleft hright hheight
      hfits ?_⟩
    rw [List.forall_mem_append, List.forall_mem_append]
    exact ⟨⟨hjoined, hl.operations_le⟩, hr.operations_le⟩

/-- In a statement, a limit is broken in its expression. -/
theorem StatementFails.breaks {limit position : Nat} (h : StatementFails p ts f q)
    (hf : f = .grammatical (.nestingTooDeep limit position)) (hn : p.nesting = 0) :
    ∃ x o us, ts = x :: o :: us ∧ x.kind = .identifier ∧ o.kind = .equals ∧ limit = maxDepth ∧
      Breaks position us q.current := by
  cases h with
  | name hk => cases hf
  | target hk hg => cases hf
  | equals hk ha he =>
    rw [hf] at he
    exact absurd he expect_ne_tooDeep
  | @value p₁ p₂ q ts f hk ha hq hb h =>
    have hnest : p₂.nesting = p.nesting := nesting_of_advances ha hb
    have hfits : Fits 0 ts := by
      have hts := h.fits
      rwa [hnest, hn] at hts
    exact ⟨_, _, ts, rfl, hk, hq,
      h.breaks hf (by omega) .start (by simp) (by rw [hnest, hn]; rfl) hfits⟩
  | semicolon hk ha hq hb hr hs he =>
    rw [hf] at he
    exact absurd he expect_ne_tooDeep

/-! ## From a break to the failure -/

/-- Reading a phrase of the nonterminal. -/
def phrase (inside : Parsing Subtree) : Nonterminal → Parsing Subtree
  | .expression => sum inside
  | .term => term inside
  | .factor => factor inside

variable {inside below : Parsing Subtree} {level : Token.Kind → Option Operator} {e a b : Tree}

theorem phrase_eq_chain (hc : Chains m n level) :
    phrase inside m = chain level (phrase inside n) := by
  cases hc with
  | sum => rfl
  | product => rfl

/-- A phrase is complete in front of a token that does not go on with it. -/
theorem Resumes.phrase_eq_ok (h : Resumes inside m p e q) (hs : m.Stops q.current.kind) :
    phrase inside m p = .ok e.subtree q := by
  cases m with
  | expression => exact h.sum_eq_ok hs.2 hs.1
  | term => exact h.term_eq_ok hs
  | factor => exact h

/-- In front of an operator of its level a chain goes on with the loop. -/
theorem Resumes.phrase_eq_chainFrom {op : Operator} (h : Resumes inside m p e q)
    (hc : Chains m n level) (ho : level q.current.kind = some op) :
    phrase inside m p = chainFrom level (phrase inside n) e.subtree q := by
  cases hc with
  | sum => exact h (Operator.multiplicative_of_additive ho)
  | product => exact h

/-- A tree without assignments is as high as an operation in it, or as a leaf. -/
theorem height_le_of_operations_le {t : Tree} (hfree : t.AssignFree)
    (h : ∀ e ∈ t.operations, e.height ≤ maxDepth) : t.height ≤ maxDepth := by
  cases t with
  | number v => exact height_leaf_le (.number v)
  | var name => exact height_leaf_le (.var name)
  | binary op a b => exact h _ (by simp [Tree.operations])
  | assign name value => exact absurd hfree id

/-- Behind some tokens, an operand is read up to its operator, with as many groups open as the
tokens leave open and levels for those that can still be opened. -/
theorem exists_operand {ts us vs : List Token} {o : Token} {op : Operator} (hc : Chains m n level)
    (ha : Derives m us a) (ho : level o.kind = some op) (hh : a.height ≤ maxDepth)
    (hpass : Passes p (ts ++ us ++ o :: vs) r) (hf : Fits 0 (ts ++ us ++ o :: vs)) :
    ∃ r₁ r₂ r₃, Passes p ts r₁ ∧ Fits 0 ts ∧ r₂.current = o ∧ advance r₂ = .ok () r₃ ∧
      Passes r₃ vs r ∧ Fits (openGroups 0 ts) vs ∧
      phrase (expressionWithin below (maxDepth - openGroups 0 ts)) m
          { r₁ with nesting := openGroups 0 ts } =
        chainFrom level (phrase (expressionWithin below (maxDepth - openGroups 0 ts)) n) a.subtree
          { r₂ with nesting := openGroups 0 ts } := by
  obtain ⟨r₂, hpassed, hlast⟩ := passes_append_iff.mp hpass
  obtain ⟨r₁, hts, hus⟩ := passes_append_iff.mp hpassed
  obtain ⟨rfl, r₃, hadv, hvs⟩ := passes_cons_iff.mp hlast
  rw [List.append_assoc] at hf
  obtain ⟨hfront, hoperands⟩ := fits_append.mp hf
  obtain ⟨hfa, hfb⟩ := (fits_operation ha (hc.operator ho)).mp hoperands
  have hresumes : Resumes (expressionWithin below (maxDepth - openGroups 0 ts)) m
      { r₁ with nesting := openGroups 0 ts } a { r₂ with nesting := openGroups 0 ts } :=
    resumes_of_derives ha (hus.of_nesting _) hfa hh (by simp only; omega)
  exact ⟨r₁, r₂, r₃, hts, hfront, rfl, hadv, hvs, hfb, hresumes.phrase_eq_chainFrom hc ho⟩

/-- A phrase that cannot be read makes the expression around it fail in the same way. The induction
is on what lies in front of the phrase. -/
theorem expressionWithin_eq_error {front : List Token} {joined : List Tree} {f : Fault}
    (h : Awaits m front joined) :
    ∀ {p r q : Parser}, (∀ e ∈ joined, e.height ≤ maxDepth) → p.nesting = 0 → Fits 0 front →
      Passes p front r →
      phrase (expressionWithin below (maxDepth - openGroups 0 front)) m
        { r with nesting := openGroups 0 front } = .error f q →
      expressionWithin below (maxDepth + 1) p = .error f q := by
  induction h with
  | start =>
    intro p r q hjoined hn hfits hpass herror
    cases hpass
    obtain ⟨current, ahead, nesting⟩ := p
    subst hn
    exact herror
  | @group ts joined l h hl ih =>
    intro p r q hjoined hn hfits hpass herror
    obtain ⟨r₁, hts, hlast⟩ := passes_append_iff.mp hpass
    obtain ⟨rfl, r₂, ha, hnil⟩ := passes_cons_iff.mp hlast
    cases hnil
    obtain ⟨hfront, hparen⟩ := fits_append.mp hfits
    have hlt : openGroups 0 ts < maxDepth := (fits_singleton.mp hparen).2 hl
    have hopen : openGroups 0 (ts ++ [r₁.current]) = openGroups 0 ts + 1 := by
      rw [openGroups_append]
      exact Token.openGroups_of_leftParen hl _
    obtain ⟨k, hk⟩ : ∃ k, maxDepth - openGroups 0 ts = k + 1 :=
      ⟨maxDepth - openGroups 0 ts - 1, by omega⟩
    rw [hopen, show maxDepth - (openGroups 0 ts + 1) = k by omega] at herror
    refine ih hjoined hn hfront hts ?_
    rw [hk]
    have hadvance := advance_of_nesting (openGroups 0 ts) ha
    exact factor_eq_error.mpr (.inr (.inr (.inl ⟨hl, group_eq_error.mpr
      (.inr ⟨hlt, .inr ⟨_, hadvance, .inl herror⟩⟩)⟩)))
  | first hc h ih =>
    intro p r q hjoined hn hfits hpass herror
    refine ih hjoined hn hfits hpass ?_
    rw [phrase_eq_chain hc]
    exact chain_eq_error.mpr (.inl herror)
  | @right m n level ts us joined o op a hc h ha ho ih =>
    intro p r q hjoined hn hfits hpass herror
    obtain ⟨hjoined, hoperations⟩ := List.forall_mem_append.mp hjoined
    have hheight := height_le_of_operations_le ha.assignFree hoperations
    obtain ⟨r₁, r₂, r₃, hts, hfront, rfl, hadv, hnil, -, hoperand⟩ :=
      exists_operand hc ha ho hheight hpass hfits
    cases hnil
    rw [ha.openGroups_snoc hc ho] at herror
    refine ih hjoined hn hfront hts ?_
    rw [hoperand]
    exact chainFrom_eq_error.mpr
      ⟨op, ho, .inr ⟨_, advance_of_nesting (openGroups 0 ts) hadv, .inl herror⟩⟩

/-- Where a limit is broken, the expression cannot be read and the fault is about that place. -/
theorem expressionWithin_of_breaks {passed : List Token} {c : Token} {position : Nat}
    (h : Breaks position passed c) (hn : p.nesting = 0) (hpass : Passes p passed r)
    (hr : r.current = c) :
    ∃ q, expressionWithin below (maxDepth + 1) p = .error (tooDeep position) q := by
  subst hr
  cases h with
  | group h hl hposition hopen hfits hjoined =>
    have hrefused : factor (expressionWithin below (maxDepth - openGroups 0 passed))
        { r with nesting := openGroups 0 passed } =
          .error (tooDeep position) { r with nesting := openGroups 0 passed } :=
      factor_eq_error.mpr (.inr (.inr (.inl ⟨hl, group_eq_error.mpr
        (.inl ⟨by simp only; omega, rfl, by rw [hposition]⟩)⟩)))
    exact ⟨_, expressionWithin_eq_error h hjoined hn hfits hpass hrefused⟩
  | @operation m n level ts us vs joined o _ op a b hc h ha ho hb hs hposition hleft hright hheight
      hfits hjoined =>
    obtain ⟨hjoined, -⟩ := List.forall_mem_append.mp hjoined
    obtain ⟨hjoined, -⟩ := List.forall_mem_append.mp hjoined
    obtain ⟨r₁, r₂, r₃, hts, hfront, rfl, hadv, hvs, hfb, hoperand⟩ :=
      exists_operand hc ha ho hleft hpass hfits
    have hresumes : Resumes (expressionWithin below (maxDepth - openGroups 0 ts)) n
        { r₃ with nesting := openGroups 0 ts } b { r with nesting := openGroups 0 ts } :=
      resumes_of_derives hb (hvs.of_nesting _) hfb hright (by simp only; omega)
    have hhigh : maxDepth < (a.subtree.join op b.subtree).height := by
      show maxDepth < (Tree.binary op a b).height
      omega
    refine ⟨{ r with nesting := openGroups 0 ts },
      expressionWithin_eq_error h hjoined hn hfront hts ?_⟩
    rw [hoperand, chainFrom_eq_error]
    exact ⟨op, ho, .inr ⟨_, advance_of_nesting (openGroups 0 ts) hadv,
      .inr ⟨b.subtree, _, hresumes.phrase_eq_ok hs, .inr ⟨hhigh, rfl, by rw [hposition]⟩⟩⟩⟩

end Parser

/-! ## The first break of a text -/

/-- Where the expression of a statement breaks a limit, the text has the fault. -/
theorem parse_of_breaks {text : String} {x o c : Token} {passed rest : List Token} {position : Nat}
    (hitems : items text = x :: o :: (passed ++ c :: rest)) (hx : x.kind = .identifier)
    (ho : o.kind = .equals) (h : Breaks position passed c) :
    parse text = .error (.grammatical (.nestingTooDeep maxDepth position)) := by
  obtain ⟨p, r, hp, hpass, hc⟩ :=
    exists_passes_of_items (show items text = (x :: o :: passed) ++ c :: rest from hitems)
  obtain ⟨rfl, p₁, ha, hpass₁⟩ := Parser.passes_cons_iff.mp hpass
  obtain ⟨rfl, p₂, hb, hpass₂⟩ := Parser.passes_cons_iff.mp hpass₁
  have hn : p₂.nesting = 0 :=
    (Parser.nesting_of_advances ha hb).trans (Parser.start_eq_ok.mp hp).2
  obtain ⟨q, hq⟩ := Parser.expressionWithin_of_breaks h hn hpass₂ hc
  have htarget : Parser.target p = .ok p.current.text p₁ :=
    Parser.target_eq_ok.mpr ⟨hx, ha, rfl⟩
  have hequals : Parser.expect .equals p₁ = .ok () p₂ := Parser.expect_eq_ok.mpr ⟨ho, hb⟩
  rw [Parser.parse_eq_answer hp, Parser.answer_eq_error_iff]
  exact ⟨q, Parser.statement_eq_error.mpr
    (.inr ⟨_, p₁, htarget, .inr ⟨p₂, hequals, .inl hq⟩⟩)⟩

/-- A text has a fault of the limits exactly if its expression breaks one, and the fault names the
greatest depth and the place: a parenthesis with `maxDepth` groups open in front of it, or an
operator whose operands are complete and keep the limit, while their operation is higher by one. No
group that was entered before, and no operation that was joined before, breaks a limit. -/
theorem nestingTooDeep_at_first_break (text : String) (limit position : Nat) :
    parse text = .error (.grammatical (.nestingTooDeep limit position)) ↔
      limit = 256 ∧ ∃ x o passed c rest, items text = x :: o :: (passed ++ c :: rest) ∧
        x.kind = .identifier ∧ o.kind = .equals ∧ Breaks position passed c := by
  constructor
  · intro h
    rcases parse_cases text with ⟨g, -, hparse⟩ | ⟨p, hp, hanswer⟩
    · rw [hparse] at h
      cases h
    · obtain ⟨hat, hn⟩ := Parser.start_eq_ok.mp hp
      obtain ⟨q, hq⟩ := Parser.answer_eq_error_iff.mp (hanswer ▸ h)
      obtain ⟨ts, hfails⟩ := Parser.statement_fails (by omega) hq
      obtain ⟨x, o, us, rfl, hx, ho, hlimit, hbreaks⟩ := hfails.breaks rfl hn
      obtain ⟨r, hpass, hr⟩ := hfails.leaves.exists_passes_current
      obtain ⟨rest, htokens, hrest⟩ := hpass.exists_rest hat hfails.kind_ne_ending
      obtain ⟨more, hitems⟩ := hrest.exists_items htokens
      rw [hr] at hitems
      exact ⟨hlimit, x, o, us, q.current, more, hitems, hx, ho, hbreaks⟩
  · rintro ⟨rfl, x, o, passed, c, rest, hitems, hx, ho, hbreaks⟩
    exact parse_of_breaks hitems hx ho hbreaks

/-- Words with a blank behind each of them. -/
def spaced : List (Token.Kind × String) → List Char
  | [] => []
  | w :: ws => w.2.toList ++ ' ' :: spaced ws

/-- The tokens of spaced words, the first of them at index `n`. -/
def placed (n : Nat) : List (Token.Kind × String) → List Token
  | [] => []
  | w :: ws => ⟨w.1, w.2, n⟩ :: placed (n + w.2.length + 1) ws

theorem spells_spaced {ws : List (Token.Kind × String)}
    (h : ∀ w ∈ ws, Lexeme.first? w.2.toList = some ⟨w.1, w.2.toList, []⟩) (n : Nat) :
    Spells n (spaced ws) (placed n ws) := by
  induction ws generalizing n with
  | nil => exact .nil n
  | cons w ws ih =>
    obtain ⟨hw, hws⟩ := List.forall_mem_cons.mp h
    have hspelt : Token.WellSpelt ⟨w.1, w.2, n⟩ := by
      have hlexeme := Lexeme.wellSpelt hw n
      rwa [String.ofList_toList] at hlexeme
    have hends : w.1.EndsBefore (' ' :: spaced ws) := w.1.endsBefore_cons (by decide) _
    exact .token hspelt hends (.blank (by decide) (ih hws _))

/-- Spaced words are parsed as their tokens are. -/
theorem parse_spaced {w : Token.Kind × String} {ws : List (Token.Kind × String)}
    (h : ∀ u ∈ w :: ws, Lexeme.first? u.2.toList = some ⟨u.1, u.2.toList, []⟩) :
    parse (String.ofList (spaced (w :: ws))) =
      Parser.answer ⟨⟨w.1, w.2, 0⟩,
        ⟨placed (w.2.length + 1) ws, .ok (spaced (w :: ws)).length⟩, 0⟩ := by
  have hstream := (spells_spaced h 0).stream_eq
  apply Parser.parse_eq_answer
  rw [Parser.ofString, Cursor.ofString, String.toList_ofList, hstream, Nat.zero_add, placed,
    Nat.zero_add]
  rfl

/-- One parenthesis too many, and one term too many. -/
theorem nestingTooDeep_at_first_break_each :
    (∃ passed c, Breaks 516 passed c ∧
      parse (String.ofList (spaced ((.identifier, "x") :: (.equals, "=") ::
        List.replicate 257 (.leftParen, "(")))) =
          .error (.grammatical (.nestingTooDeep 256 516))) ∧
    ∃ passed c, Breaks 1026 passed c ∧
      parse (String.ofList (spaced ((.identifier, "x") :: (.equals, "=") :: (.number, "1") ::
        (List.replicate 256 [(Token.Kind.plus, "+"), (.number, "1")]).flatten))) =
          .error (.grammatical (.nestingTooDeep 256 1026)) := by
  have hgroups : parse (String.ofList (spaced ((.identifier, "x") :: (.equals, "=") ::
      List.replicate 257 (.leftParen, "(")))) =
        .error (.grammatical (.nestingTooDeep 256 516)) := by
    rw [parse_spaced (by decide +kernel)]
    decide +kernel
  have hterms : parse (String.ofList (spaced ((.identifier, "x") :: (.equals, "=") ::
      (.number, "1") :: (List.replicate 256 [(Token.Kind.plus, "+"), (.number, "1")]).flatten))) =
        .error (.grammatical (.nestingTooDeep 256 1026)) := by
    rw [parse_spaced (by decide +kernel)]
    decide +kernel
  obtain ⟨-, -, -, passed, c, -, -, -, -, hfirst⟩ :=
    (nestingTooDeep_at_first_break _ _ _).mp hgroups
  obtain ⟨-, -, -, passed', c', -, -, -, -, hsecond⟩ :=
    (nestingTooDeep_at_first_break _ _ _).mp hterms
  exact ⟨⟨passed, c, hfirst, hgroups⟩, passed', c', hsecond, hterms⟩

end Reckon
