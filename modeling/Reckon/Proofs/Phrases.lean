import Mathlib.Control.Monad.Basic
import Reckon.Proofs.Limits
import Reckon.Proofs.Recursion
import Reckon.Proofs.Succession

/-!
  What one call of the recursive descent comes to. An expression, a term or a factor is read from
  any parser, in the middle of a statement or behind one that could not be read, and the call
  returns a height along with the tree. That number is the height of the tree, and it is what the
  limit is checked on, so the trees that are returned are within it (`phrase_counts_height`).

  The three functions call each other as `phrase expression` does. Where they are reached from an
  expression, the groups below them are bounded by the levels that are left; but these are enough
  for the groups that can still be opened, so that it makes no difference
  (`phrase_expressionWithin`).
-/

namespace Reckon.Parser

variable {x y below : Parsing Subtree} {m : Nonterminal} {p q : Parser} {s : Subtree}

/-! ## Levels -/

/-- A phrase depends on how its groups are read only where it comes to one: with one more open
group, and below the limit. -/
theorem phrase_congr (hy : Sound .expression y)
    (h : p.nesting < maxDepth → ∀ q : Parser, q.nesting = p.nesting + 1 → x q = y q)
    (m : Nonterminal) : phrase x m p = phrase y m p := by
  have hfactor : ∀ q : Parser, q.nesting = p.nesting → factor x q = factor y q := fun q hq =>
    factor_congr (group_congr (hq ▸ h))
  cases m with
  | expression => exact sum_congr hy h
  | term => exact chain_congr (sound_factor hy) hfactor rfl
  | factor => exact hfactor p rfl

/-- With a level for each group that can still be opened, the number of levels does not matter, nor
what is beneath them. -/
theorem phrase_expressionWithin (below : Parsing Subtree) {levels : Nat}
    (h : maxDepth ≤ p.nesting + levels) (m : Nonterminal) :
    phrase (expressionWithin below levels) m p = phrase expression m p := by
  refine phrase_congr sound_expression (fun hn q hq => ?_) m
  exact expressionWithin_eq_expression below (by omega)

/-! ## Calls that succeed -/

theorem sound_phrase (m : Nonterminal) : Sound m (phrase expression m) := by
  have hfactor : Sound .factor (factor expression) := sound_factor sound_expression
  have hterm : Sound .term (term expression) := sound_chain .product hfactor
  have hsum : Sound .expression (sum expression) := sound_chain .sum hterm
  intro p s q h
  cases m with
  | expression => exact hsum h
  | term => exact hterm h
  | factor => exact hfactor h

/-- A call succeeds exactly if a phrase of the nonterminal within the limits is ahead of a token
that does not go on with it; it goes past this phrase and returns its tree, with its height. -/
theorem phrase_eq_ok_iff :
    phrase expression m p = .ok s q ↔
      (∃ ts, Reads m p ts s q) ∧ m.Stops q.current.kind := by
  refine ⟨sound_phrase m, fun ⟨⟨ts, hr⟩, hs⟩ => ?_⟩
  obtain ⟨tree, height⟩ := s
  obtain rfl : height = tree.height := hr.height_eq
  exact (resumes_of_derives hr.derives hr.passes hr.fits hr.height_le (by omega)).phrase_eq_ok hs

/-- A parser that is left without the text of its token, in front of a foreign character, reads no
phrase; so the tokens of a phrase are those between the two places in the stream. -/
theorem Nearly.extract_eq {t : TokenStream} {ts : List Token} (hp : Nearly (On t) p)
    (ht : ∀ u ∈ t.tokens, u.kind ≠ .ending) (h : Reads m p ts s q) :
    t.tokens.extract (p.place t) (q.place t) = ts := by
  have hts : ∀ u ∈ ts, u.kind ≠ .ending := fun u hu => (h.derives.kind_ne u hu).1
  rcases hp with hon | ⟨r, g, -, -, hg, rfl⟩
  · exact hon.passes_extract ht h.passes hts
  · obtain ⟨rfl, -⟩ := h.passes.eq_of_stuck hg
    exact absurd h.derives.length_pos (Nat.lt_irrefl 0)

/-- Whatever parser an expression, a term or a factor is read from, if the call succeeds the height
that it returns is that of the tree, at least one and within the limit; the count of open groups is
what it was, the token at hand does not go on with the phrase, and what was passed is a phrase of
the nonterminal with this tree. If the parser is one that comes up in a text, these are the tokens
of the text from the place before the call to that after it. The levels of an expression do not
come into it. -/
theorem phrase_counts_height (m : Nonterminal) (p : Parser) :
    (∀ below levels, maxDepth ≤ p.nesting + levels →
      phrase (expressionWithin below levels) m p = phrase expression m p) ∧
    ∀ s q, phrase expression m p = .ok s q →
      s.height = s.tree.height ∧ 1 ≤ s.height ∧ s.height ≤ maxDepth ∧ q.nesting = p.nesting ∧
      m.Stops q.current.kind ∧
      ∃ ts, Passes p ts q ∧ Derives m ts s.tree ∧
        ∀ text : String, Nearly (On (Cursor.ofString text).stream) p →
          ts = (Cursor.ofString text).stream.tokens.extract
            (p.place (Cursor.ofString text).stream) (q.place (Cursor.ofString text).stream) := by
  refine ⟨fun below levels h => phrase_expressionWithin below h m, fun s q h => ?_⟩
  obtain ⟨⟨ts, hr⟩, hs⟩ := phrase_eq_ok_iff.mp h
  have hpos : 1 ≤ s.height := hr.height_eq ▸ s.tree.height_pos
  refine ⟨hr.height_eq, hpos, hr.height_le, hr.passes.nesting_eq, hs, ts, hr.passes, hr.derives,
    fun text hp => (hp.extract_eq (fun u hu => ?_) hr).symm⟩
  exact (Token.standsIn_of_mem hu).spelt.kind_ne_ending

/-- A term with a group in it, in front of an operator that goes on with the expression and not with
the term. -/
theorem phrase_counts_height_product :
    ∃ p, ((Scanner.ofString "x = (1 + 2) * y - 3;").after [.read, .read]).parser = .ok p ∧
      ∃ s q, phrase expression .term p = .ok s q ∧ s.height = 3 ∧ s.tree.height = 3 ∧
        q.current.kind = .minus ∧ Nonterminal.term.Stops .minus ∧
        Derives .term ((Cursor.ofString "x = (1 + 2) * y - 3;").stream.tokens.extract 2 9)
          s.tree := by
  have hcheck : (((Scanner.ofString "x = (1 + 2) * y - 3;").after [.read, .read]).parser.map
      fun p => (p.place (Cursor.ofString "x = (1 + 2) * y - 3;").stream,
        match phrase expression .term p with
        | .ok s q => some (s.height, q.current.kind,
            q.place (Cursor.ofString "x = (1 + 2) * y - 3;").stream)
        | .error _ _ => none)) = .ok (2, some (3, .minus, 9)) := by decide +kernel
  obtain ⟨p, hp, hcall⟩ := exists_of_map_eq_ok hcheck
  obtain ⟨hplace, hcall⟩ := Prod.mk.inj hcall
  split at hcall
  · next s q hq =>
    simp only [Option.some.injEq, Prod.mk.injEq] at hcall
    obtain ⟨hheight, hkind, hplace'⟩ := hcall
    obtain ⟨hcounted, -, -, -, hstops, ts, -, hderives, hts⟩ :=
      (phrase_counts_height .term p).2 s q hq
    have hon : Nearly (On (Cursor.ofString "x = (1 + 2) * y - 3;").stream) p := (on_after hp 0).1
    rw [hts _ hon, hplace, hplace'] at hderives
    exact ⟨p, hp, s, q, hq, hheight, hcounted ▸ hheight, hkind, hkind ▸ hstops, hderives⟩
  · cases hcall

end Reckon.Parser
