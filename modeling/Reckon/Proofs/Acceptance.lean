import Mathlib.Control.Monad.Basic
import Reckon.Proofs.Completeness
import Reckon.Proofs.Soundness

/-!
  Which texts are statements. A text is accepted with the tokens that its stream starts with, the
  name that they assign and the tree of their expression (`Accepts`), and parsing succeeds exactly
  then. What comes after the statement is looked at for one item, so a foreign character right
  behind it is refused, and nothing further on matters.
-/

namespace Reckon

/-- The stream starts with these tokens, and a token or the end of the text follows them. -/
def TokenStream.StartsWith (s : TokenStream) (ts : List Token) : Prop :=
  ∃ rest, s.tokens = ts ++ rest ∧ (rest = [] → ∃ position, s.ending = .ok position)

/-- The text starts with a statement of the grammar that keeps the limits: its tokens, the name
that it assigns and its expression. -/
structure Accepts (text : String) (ts : List Token) (name : String) (e : Tree) : Prop where
  starts : (Cursor.ofString text).stream.StartsWith ts
  derives : Statement ts name e
  fits : Fits 0 ts
  height_le : e.height ≤ maxDepth

theorem Parser.ofString_eq_ok {text : String} {p : Parser} :
    Parser.ofString text = .ok p ↔ p.At (Cursor.ofString text).stream ∧ p.nesting = 0 :=
  Parser.start_eq_ok

theorem parse_eq_ok {text : String} {t : Tree} :
    parse text = .ok t ↔
      ∃ p q, Parser.ofString text = .ok p ∧ Parser.statement p = .ok t q := by
  unfold parse EStateM.run
  cases hp : Parser.ofString text with
  | error f => simp
  | ok p => cases hs : Parser.statement p <;> simp [hs]

/-- What is parsed is accepted. -/
theorem exists_accepts {text : String} {t : Tree} (h : parse text = .ok t) :
    ∃ ts name e, t = .assign name e ∧ Accepts text ts name e := by
  obtain ⟨p, q, hp, hs⟩ := parse_eq_ok.mp h
  obtain ⟨hat, hn⟩ := Parser.ofString_eq_ok.mp hp
  obtain ⟨ts, name, e, rfl, hd, hpass, hh, hf⟩ := Parser.statement_reads hs
  obtain ⟨rest, htokens, hq⟩ := hpass.exists_rest hat hd.kind_ne_ending
  have hlive := (Parser.exists_at_iff q.nesting).mp ⟨q, hq, rfl⟩
  exact ⟨ts, name, e, rfl, ⟨rest, htokens, hlive⟩, hd, hn ▸ hf, hh⟩

/-- What is accepted is parsed. -/
theorem Accepts.parse_eq {text : String} {ts : List Token} {name : String} {e : Tree}
    (h : Accepts text ts name e) : parse text = .ok (.assign name e) := by
  obtain ⟨rest, htokens, hlive⟩ := h.starts
  have hlive' : ts ++ rest = [] → ∃ position, (Cursor.ofString text).stream.ending = .ok position :=
    fun hnil => hlive (List.append_eq_nil_iff.mp hnil).2
  obtain ⟨p, hp, hpn⟩ := (Parser.exists_at_iff 0).mpr hlive'
  obtain ⟨q, hq, hqn⟩ := (Parser.exists_at_iff 0).mpr hlive
  have hpass : p.Passes ts q := (Parser.passes_iff hp).mpr ⟨hq, hqn.trans hpn.symm⟩
  have hs := Parser.statement_eq_ok_of_passes h.derives hpass (hpn ▸ h.fits) h.height_le
  rw [← htokens] at hp
  exact parse_eq_ok.mpr ⟨p, q, Parser.ofString_eq_ok.mpr ⟨hp, hpn⟩, hs⟩

/-- Two statements at the start of one stream are the same tokens, those up to the first
semicolon. -/
theorem Statement.tokens_unique {ts ts' rest rest' : List Token} {name name' : String}
    {e e' : Tree} (h : Statement ts name e) (h' : Statement ts' name' e')
    (heq : ts ++ rest = ts' ++ rest') : ts = ts' := by
  have hdrop : ts.dropLast = ts'.dropLast := by
    rw [← h.takeWhile_eq rest, heq, h'.takeWhile_eq rest']
  have hlen : ts.length = ts'.length := by
    have hl := congrArg List.length hdrop
    rw [List.length_dropLast, List.length_dropLast] at hl
    have hpos := h.length_pos
    have hpos' := h'.length_pos
    omega
  exact (List.append_inj heq hlen).1

theorem Accepts.unique {text : String} {ts ts' : List Token} {name name' : String} {e e' : Tree}
    (h : Accepts text ts name e) (h' : Accepts text ts' name' e') :
    ts = ts' ∧ name = name' ∧ e = e' := by
  obtain ⟨rest, htokens, -⟩ := h.starts
  obtain ⟨rest', htokens', -⟩ := h'.starts
  have hts : ts = ts' := h.derives.tokens_unique h'.derives (htokens.symm.trans htokens')
  have htree := h.parse_eq.symm.trans h'.parse_eq
  simp only [Except.ok.injEq, Tree.assign.injEq] at htree
  exact ⟨hts, htree.1, htree.2⟩

/-- Parsing succeeds exactly on the texts that start with a statement of the grammar within the
limits, gives the tree of its derivation, and a text starts with one such statement at most. -/
theorem parse_eq_ok_iff_accepts (text : String) :
    (∀ t, parse text = .ok t ↔ ∃ ts name e, t = .assign name e ∧ Accepts text ts name e) ∧
    ∀ ts name e ts' name' e', Accepts text ts name e → Accepts text ts' name' e' →
      ts = ts' ∧ name = name' ∧ e = e' := by
  refine ⟨fun t => ⟨exists_accepts, ?_⟩, fun _ _ _ _ _ _ => Accepts.unique⟩
  rintro ⟨ts, name, e, rfl, h⟩
  exact h.parse_eq

/-- Zeros in front, parentheses, and a foreign character that is not looked at. -/
theorem parse_eq_ok_iff_accepts_product :
    ∃ ts name e, Accepts "x = (007 - a) * 2; y $" ts name e ∧
      Tree.assign name e =
        .assign "x" (.binary .multiply (.binary .subtract (.number 7) (.var "a")) (.number 2)) ∧
      ∀ ts' name' e', Accepts "x = (007 - a) * 2; y $" ts' name' e' →
        ts = ts' ∧ name = name' ∧ e = e' := by
  obtain ⟨hiff, hunique⟩ := parse_eq_ok_iff_accepts "x = (007 - a) * 2; y $"
  obtain ⟨ts, name, e, ht, h⟩ := (hiff (.assign "x"
    (.binary .multiply (.binary .subtract (.number 7) (.var "a")) (.number 2)))).mp
    (by decide +kernel)
  exact ⟨ts, name, e, h, ht.symm, fun ts' name' e' => hunique ts name e ts' name' e' h⟩

-- right behind the semicolon it is looked at
example : parse "x = 1; $" = .error (.lexical ⟨'$', 7⟩) := by decide +kernel

end Reckon
