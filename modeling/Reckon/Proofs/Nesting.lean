import Mathlib.Control.Monad.Basic
import Reckon.Proofs.Lifetime

/-!
  The count of open groups over the lifetime of a parser. It goes up when a group is entered and
  down when its inside is complete, so a statement that is read leaves it as it was, and one that
  cannot be read leaves it higher by the groups whose inside was not complete by then.

  `unfinishedGroups` counts those from the tokens that were passed, with no look at the parser:
  the parentheses behind which no complete expression stands. `Derives.unfinishedGroups_append`
  says that a complete phrase has none, and `Fails.nesting_eq` that the count of the parser agrees
  with the tokens; it is the case of a group that is still open, in `Fails.inside`, that needs the
  parser to read every complete expression.

  `watchedExpression` is the expression with a guard at both ends of every inside, where the count
  has just gone up and where it is about to go down. That it is the same function says that the
  guards never act.
-/

namespace Reckon

open Operator (additive multiplicative)

/-! ## Counting in the tokens -/

open Classical in
/-- How many of these tokens open a group whose inside is not complete, when `c` comes next. -/
noncomputable def unfinishedGroups (c : Token) : List Token → Nat
  | [] => 0
  | t :: ts =>
    (if t.kind = .leftParen ∧ ¬Parser.Completes (ts ++ [c]) then 1 else 0) + unfinishedGroups c ts

variable {c t : Token} {ts : List Token}

theorem unfinishedGroups_cons_of_ne (h : t.kind ≠ .leftParen) :
    unfinishedGroups c (t :: ts) = unfinishedGroups c ts := by
  simp [unfinishedGroups, h]

theorem unfinishedGroups_cons_of_completes (h : Parser.Completes (ts ++ [c])) :
    unfinishedGroups c (t :: ts) = unfinishedGroups c ts := by
  simp [unfinishedGroups, h]

theorem unfinishedGroups_cons_of_not_completes (ht : t.kind = .leftParen)
    (h : ¬Parser.Completes (ts ++ [c])) :
    unfinishedGroups c (t :: ts) = unfinishedGroups c ts + 1 := by
  rw [unfinishedGroups, if_pos ⟨ht, h⟩, Nat.add_comm]

theorem unfinishedGroups_operator_cons {o : Token} {op : Operator}
    (h : additive o.kind = some op ∨ multiplicative o.kind = some op) :
    unfinishedGroups c (o :: ts) = unfinishedGroups c ts := by
  apply unfinishedGroups_cons_of_ne
  rcases kind_of_operator h with h | h | h | h <;> simp [h]

/-- An expression in front of a parenthesis is complete there. -/
theorem Derives.completes {us vs : List Token} {r : Token} {e : Tree}
    (h : Derives .expression us e) (hh : e.height ≤ maxDepth) (hr : r.kind = .rightParen) :
    Parser.Completes (us ++ r :: vs) :=
  ⟨us, r, vs, e, rfl, h, hh, by rw [hr]; exact ⟨rfl, rfl⟩⟩

/-- The groups of a complete phrase are complete, whatever comes after it. -/
theorem Derives.unfinishedGroups_append {m : Nonterminal} {e : Tree} (h : Derives m ts e)
    (hh : e.height ≤ maxDepth) (us : List Token) :
    unfinishedGroups c (ts ++ us) = unfinishedGroups c us := by
  induction h generalizing us with
  | number ht => exact unfinishedGroups_cons_of_ne (by simp [ht])
  | identifier ht => exact unfinishedGroups_cons_of_ne (by simp [ht])
  | @group l r ts e hl he hr ih =>
    have hcomplete : Parser.Completes (ts ++ r :: us ++ [c]) := by
      rw [List.append_assoc, List.cons_append]
      exact he.completes hh hr
    rw [List.cons_append, List.append_assoc, List.singleton_append,
      unfinishedGroups_cons_of_completes hcomplete, ih hh]
    exact unfinishedGroups_cons_of_ne (by simp [hr])
  | factor he ih => exact ih hh us
  | @product ts vs o op a b ha ho hb iha ihb =>
    obtain ⟨hha, hhb⟩ := Tree.height_operands hh
    rw [List.append_assoc, List.cons_append, iha hha, unfinishedGroups_operator_cons (.inr ho),
      ihb hhb]
  | term he ih => exact ih hh us
  | @sum ts vs o op a b ha ho hb iha ihb =>
    obtain ⟨hha, hhb⟩ := Tree.height_operands hh
    rw [List.append_assoc, List.cons_append, iha hha, unfinishedGroups_operator_cons (.inl ho),
      ihb hhb]

theorem Derives.unfinishedGroups_eq {m : Nonterminal} {e : Tree} (h : Derives m ts e)
    (hh : e.height ≤ maxDepth) (c : Token) : unfinishedGroups c ts = 0 := by
  have heq := h.unfinishedGroups_append (c := c) hh []
  rwa [List.append_nil] at heq

namespace Parsing

variable {α β : Type} {p : Parser}

/-- A run that starts with a change of the parser. -/
theorem modify_bind {g : Parser → Parser} {f : PUnit → Parsing β} :
    ((modify g : Parsing PUnit) >>= f) p = f ⟨⟩ (g p) := rfl

theorem bind_congr {x : Parsing α} {f g : α → Parsing β}
    (h : ∀ a q, x p = .ok a q → f a q = g a q) : (x >>= f) p = (x >>= g) p := by
  simp only [bind, EStateM.bind]
  cases hx : x p with
  | ok a q => exact h a q hx
  | error f q => rfl

theorem bind_congr_left {x y : Parsing α} {f : α → Parsing β} (h : x p = y p) :
    (x >>= f) p = (y >>= f) p := by
  simp only [bind, EStateM.bind, h]

end Parsing

namespace Parser

variable {p q r : Parser} {f : Fault}

/-! ## Counting in the parser -/

/-- The groups of what was read are complete. -/
theorem Reads.unfinishedGroups_append {m : Nonterminal} {s : Subtree} (h : Reads m p ts s q)
    (us : List Token) : unfinishedGroups c (ts ++ us) = unfinishedGroups c us :=
  h.derives.unfinishedGroups_append (h.height_eq ▸ h.height_le) us

theorem Reads.unfinishedGroups_eq {m : Nonterminal} {s : Subtree} (h : Reads m p ts s q)
    (c : Token) : unfinishedGroups c ts = 0 :=
  h.derives.unfinishedGroups_eq (h.height_eq ▸ h.height_le) c

/-- A failure inside an expression leaves the count higher by the unfinished groups. -/
theorem Fails.nesting_eq {m : Nonterminal} (h : Fails m p ts f q) :
    q.nesting = p.nesting + unfinishedGroups q.current ts := by
  induction h with
  | refused h => rw [h.nesting_eq]; rfl
  | @inside p p' q ts f hk hn ha h hc ih =>
    have hnest : p'.nesting = p.nesting := nesting_of_advance ha
    rw [ih, unfinishedGroups_cons_of_not_completes hk hc]
    simp only
    omega
  | @close p p' q r ts s f hk hn ha hr hs hc =>
    have hnest : p'.nesting = p.nesting := nesting_of_advance ha
    have hback : r.nesting = p'.nesting + 1 := hr.passes.nesting_eq
    have hq : q = { r with nesting := r.nesting - 1 } := eq_of_expect_eq_error hc
    have hh : s.tree.height ≤ maxDepth := hr.height_eq ▸ hr.height_le
    have hcomplete : Completes (ts ++ [q.current]) :=
      ⟨ts, q.current, [], s.tree, rfl, hr.derives, hh, hq ▸ hs⟩
    rw [unfinishedGroups_cons_of_completes hcomplete, hr.unfinishedGroups_eq, hq]
    simp only
    omega
  | operand hc h ih => exact ih
  | operator hc hl ho hg =>
    rw [hl.unfinishedGroups_eq, hl.passes.nesting_eq]
    rfl
  | @right m n level p p' q r ts us left op f hc hl ho ha h ih =>
    have hnest : p'.nesting = p.nesting := hl.nesting_of_advance ha
    rw [ih, hl.unfinishedGroups_append, unfinishedGroups_operator_cons (hc.operator ho), hnest]
  | @high m n level p p' q r ts us left right op hc hl ho ha hr hs hh =>
    have hnest : p'.nesting = p.nesting := hl.nesting_of_advance ha
    rw [hl.unfinishedGroups_append, unfinishedGroups_operator_cons (hc.operator ho),
      hr.unfinishedGroups_eq, hr.passes.nesting_eq, hnest]
    rfl

theorem StatementFails.nesting_eq (h : StatementFails p ts f q) :
    q.nesting = p.nesting + unfinishedGroups q.current ts := by
  cases h with
  | name hk => rfl
  | target hk hg => rfl
  | @equals p₁ q f hk ha he =>
    have hnest : p₁.nesting = p.nesting := nesting_of_advance ha
    rw [unfinishedGroups_cons_of_ne (by simp [hk]), eq_of_expect_eq_error he, hnest]
    rfl
  | @value p₁ p₂ q ts f hk ha hq hb h =>
    have hnest : p₂.nesting = p.nesting := nesting_of_advances ha hb
    rw [unfinishedGroups_cons_of_ne (by simp [hk]), unfinishedGroups_cons_of_ne (by simp [hq]),
      h.nesting_eq, hnest]
  | @semicolon p₁ p₂ p₃ q ts s f hk ha hq hb hr hs he =>
    have hnest : p₂.nesting = p.nesting := nesting_of_advances ha hb
    rw [unfinishedGroups_cons_of_ne (by simp [hk]), unfinishedGroups_cons_of_ne (by simp [hq]),
      hr.unfinishedGroups_eq, eq_of_expect_eq_error he, hr.passes.nesting_eq, hnest]
    rfl

/-! ## The count in between -/

/-- The inside of a group under guard: if too many groups are open at its start, or none at its
end, `escape` comes in its place. -/
def watched (escape inside : Parsing Subtree) : Parsing Subtree := do
  if maxDepth < (← get).nesting then escape
  else
    let s ← inside
    if (← get).nesting = 0 then escape else return s

/-- An expression with every inside of a group under guard. -/
def watchedWithin (escape below : Parsing Subtree) : Nat → Parsing Subtree
  | 0 => below
  | levels + 1 => sum (watched escape (watchedWithin escape below levels))

/-- The expression of a statement with every inside of a group under guard. -/
def watchedExpression (escape : Parsing Subtree) : Parsing Subtree :=
  watchedWithin escape (do throw (tooDeep (← get).current.position)) (maxDepth + 1)

/-- A group reads its inside with one more group open, and only below the limit. -/
theorem group_congr {x y : Parsing Subtree}
    (h : p.nesting < maxDepth → ∀ q : Parser, q.nesting = p.nesting + 1 → x q = y q) :
    group x p = group y p := by
  simp only [group, Parsing.get_bind]
  split
  · rfl
  · next hn =>
    refine Parsing.bind_congr fun _ p' ha => ?_
    have hnest : p'.nesting = p.nesting := nesting_of_advance ha
    have hinside := h (Nat.not_le.mp hn) { p' with nesting := p'.nesting + 1 }
      (congrArg (· + 1) hnest)
    rw [Parsing.modify_bind, Parsing.modify_bind]
    exact Parsing.bind_congr_left hinside

/-- The guard does not act on an inside that starts within the limit and leaves the count as it
was. -/
theorem watched_eq (escape : Parsing Subtree) {inside : Parsing Subtree}
    (hin : Sound .expression inside) (hpos : 0 < p.nesting) (hn : p.nesting ≤ maxDepth) :
    watched escape inside p = inside p := by
  have hstart : ¬maxDepth < p.nesting := by omega
  simp only [watched, Parsing.get_bind, hstart, if_false]
  simp only [bind, EStateM.bind]
  cases hs : inside p with
  | error f q => rfl
  | ok s q =>
    obtain ⟨⟨ts, hr⟩, -⟩ := hin hs
    have hend : q.nesting ≠ 0 := by
      rw [hr.passes.nesting_eq]
      omega
    change (if q.nesting = 0 then escape else pure s : Parsing Subtree) q = _
    rw [if_neg hend]
    rfl

theorem watchedWithin_eq (escape : Parsing Subtree) {below : Parsing Subtree}
    (hbelow : Sound .expression below) (levels : Nat) :
    watchedWithin escape below levels = expressionWithin below levels := by
  induction levels with
  | zero => rfl
  | succ levels ih =>
    have hgroup : group (watched escape (expressionWithin below levels)) =
        group (expressionWithin below levels) :=
      funext fun _ => group_congr fun hn _ hq =>
        watched_eq escape (sound_expressionWithin hbelow levels) (by omega) (by omega)
    simp only [watchedWithin, expressionWithin, ih, sum, term, factor, hgroup]

/-- Over the whole lifetime of a parser the count of open groups is within the limit, also where a
group has just been entered, and it is not zero where a group is left. A statement that is read
leaves the count as it was. One that cannot be read raises it by the groups that were entered,
among the tokens passed, and whose inside was not complete. -/
theorem nesting_after_call (text : String) (steps : List Scanner.Step) (p : Parser)
    (h : ((Scanner.ofString text).after steps).parser = .ok p) (n : Nat) :
    (p.after n).nesting ≤ maxDepth ∧
    (∀ escape, watchedExpression escape = expression) ∧
    (∀ t q, statement (p.after n) = .ok t q → q.nesting = (p.after n).nesting) ∧
    ∀ f q, statement (p.after n) = .error f q →
      ∃ ts, Leaves (p.after n) ts f q ∧ (∀ t ∈ ts, t.kind ≠ .ending) ∧
        q.nesting = (p.after n).nesting + unfinishedGroups q.current ts := by
  obtain ⟨-, hn⟩ := rests_after h n
  refine ⟨hn, fun escape => ?_, fun t q hs => ?_, fun f q hs => ?_⟩
  · apply watchedWithin_eq
    intro p s q h
    exact absurd h Parsing.throw_ne_ok
  · obtain ⟨ts, name, e, -, -, hp, -, -⟩ := statement_reads hs
    exact hp.nesting_eq
  · obtain ⟨ts, hf⟩ := statement_fails hn hs
    exact ⟨ts, hf.leaves, hf.kind_ne_ending, hf.nesting_eq⟩

/-- Of three groups the innermost only lacks its parenthesis, so two are unfinished. -/
theorem nesting_after_call_two_unfinished :
    ∃ p f q ts, ((Scanner.ofString "; x = 1; y = (1 + ((2 z").after [.read]).parser = .ok p ∧
      f = .grammatical (.unexpectedToken "`z`" "`)`" 22) ∧ statement (p.after 1) = .error f q ∧
      Leaves (p.after 1) ts f q ∧ unfinishedGroups q.current ts = 2 := by
  have hrun : ∃ p q,
      ((Scanner.ofString "; x = 1; y = (1 + ((2 z").after [.read]).parser = .ok p ∧
        statement (p.after 1) = .error (.grammatical (.unexpectedToken "`z`" "`)`" 22)) q ∧
        (p.after 1).nesting = 0 ∧ q.nesting = 2 := by
    have hcheck :
        (((Scanner.ofString "; x = 1; y = (1 + ((2 z").after [.read]).parser.map
          fun p => ((p.after 1).answer, (p.after 1).nesting, (p.after 2).nesting)) =
          .ok (.error (.grammatical (.unexpectedToken "`z`" "`)`" 22)), 0, 2) := by
      decide +kernel
    obtain ⟨p, hp, hafter⟩ := exists_of_map_eq_ok hcheck
    obtain ⟨hanswer, hcount⟩ := Prod.mk.inj hafter
    obtain ⟨hzero, htwo⟩ := Prod.mk.inj hcount
    obtain ⟨q, hq⟩ := answer_eq_error_iff.mp hanswer
    have hcall : p.after 2 = q := congrArg Prod.snd (call_of_error hq)
    exact ⟨p, q, hp, hq, hzero, hcall ▸ htwo⟩
  obtain ⟨p, q, hp, hq, hzero, htwo⟩ := hrun
  obtain ⟨-, -, -, herror⟩ := nesting_after_call _ _ p hp 1
  obtain ⟨ts, hleaves, -, hnest⟩ := herror _ _ hq
  exact ⟨p, _, q, ts, hp, rfl, hq, hleaves, by omega⟩

end Parser

end Reckon
