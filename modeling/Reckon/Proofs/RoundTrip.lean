import Reckon.Proofs.Acceptance
import Reckon.Proofs.Lexing
import Reckon.Session

/-!
  Writing a tree and reading it again. A tree that a statement can have (`Tree.Canonical`) is
  written as a text that parses to it, once a semicolon is put behind it, and every tree that is
  parsed is canonical; so writing what was parsed and parsing it again changes nothing, and the
  statement that is written does what the first one did.

  Every operation is written in parentheses, so a tree of height `h` opens `h - 1` groups inside
  each other, one less than the limit when it is as high as it may be (`scans_text`).
-/

namespace Reckon

open Operator (additive multiplicative)

/-! ## Canonical trees -/

/-- Every leaf and every name can be written as a token. -/
def Tree.Written : Tree → Prop
  | number n => 0 ≤ n ∧ n ≤ Integer.greatest
  | var name => IsName name
  | binary _ left right => left.Written ∧ right.Written
  | assign name value => IsName name ∧ value.Written

/-- One assignment, at the root, of an expression that is not too high. -/
def Tree.Canonical : Tree → Prop
  | assign name e => IsName name ∧ e.Written ∧ e.AssignFree ∧ e.height ≤ maxDepth
  | _ => False

/-- The leaves of a derivation are tokens, so they can be written as tokens. -/
theorem Derives.written {m : Nonterminal} {ts : List Token} {e : Tree} (h : Derives m ts e)
    (hs : ∀ t ∈ ts, t.WellSpelt) (hn : NumbersFit ts) : e.Written := by
  induction h with
  | number ht => exact ⟨Int.natCast_nonneg _, hn _ List.mem_cons_self ht⟩
  | identifier ht =>
    have hname := hs _ List.mem_cons_self
    simp only [Token.WellSpelt, ht] at hname
    exact hname
  | group hl he hr ih =>
    rw [NumbersFit, List.forall_mem_cons, List.forall_mem_append] at hn
    rw [List.forall_mem_cons, List.forall_mem_append] at hs
    exact ih hs.2.1 hn.2.1
  | factor he ih => exact ih hs hn
  | product ha ho hb iha ihb | sum ha ho hb iha ihb =>
    rw [NumbersFit, List.forall_mem_append, List.forall_mem_cons] at hn
    rw [List.forall_mem_append, List.forall_mem_cons] at hs
    exact ⟨iha hs.1 hn.1, ihb hs.2.2 hn.2.2⟩
  | term he ih => exact ih hs hn

/-- A statement of tokens that can be written, within the limits, has a canonical tree. -/
theorem Statement.canonical {ts : List Token} {name : String} {e : Tree}
    (h : Statement ts name e) (hs : ∀ t ∈ ts, t.WellSpelt) (hn : NumbersFit ts)
    (hh : e.height ≤ maxDepth) : (Tree.assign name e).Canonical := by
  cases h with
  | assign hx hq he hsemi =>
    rw [NumbersFit, List.forall_mem_cons, List.forall_mem_cons, List.forall_mem_append] at hn
    rw [List.forall_mem_cons, List.forall_mem_cons, List.forall_mem_append] at hs
    have hname := hs.1
    simp only [Token.WellSpelt, hx] at hname
    exact ⟨hname, he.written hs.2.2.1 hn.2.2.1, he.assignFree, hh⟩

/-- What is parsed is canonical. -/
theorem canonical_of_parse {text : String} {t : Tree} (h : parse text = .ok t) :
    t.Canonical := by
  obtain ⟨ts, name, e, rfl, ha⟩ := exists_accepts h
  obtain ⟨rest, htokens, -⟩ := ha.starts
  have hs : ∀ t ∈ ts, t.WellSpelt := fun t ht =>
    Cursor.wellSpelt_of_mem_stream _ (htokens ▸ List.mem_append_left rest ht)
  exact ha.derives.canonical hs ha.fits.numbers ha.height_le

/-! ## Writing -/

theorem ends_wordPart_of_blank {c : Char} (h : isBlank c = true) (cs : List Char) :
    Cursor.Ends isWordPart (c :: cs) :=
  Cursor.ends_cons (not_wordPart_of_blank h) cs

theorem ends_wordPart_of_mark {c : Char} (h : isMark c = true) (cs : List Char) :
    Cursor.Ends isWordPart (c :: cs) :=
  Cursor.ends_cons (not_wordPart_of_mark h) cs

theorem isNumeral_repr (n : Nat) : IsNumeral n.repr := by
  have hdigits : ∀ x ∈ Nat.toDigits 10 n, isDigit x = true := fun x hx =>
    Nat.isDigit_of_mem_toDigits (by decide) (by decide) hx
  unfold IsNumeral
  rw [Nat.toList_repr]
  cases hd : Nat.toDigits 10 n with
  | nil => exact absurd hd Nat.toDigits_ne_nil
  | cons c cs =>
    rw [hd, List.forall_mem_cons] at hdigits
    exact ⟨c, cs, rfl, hdigits⟩

/-- The token of an operator. -/
theorem Operator.exists_kind (op : Operator) :
    ∃ k, Token.Kind.ofMark? op.symbol = some k ∧
      (additive k = some op ∨ multiplicative k = some op) := by
  cases op
  · exact ⟨.plus, rfl, .inl rfl⟩
  · exact ⟨.minus, rfl, .inl rfl⟩
  · exact ⟨.times, rfl, .inr rfl⟩
  · exact ⟨.slash, rfl, .inr rfl⟩

/-- Two factors with an operator between them are an expression. -/
theorem Derives.operation {ts us : List Token} {o : Token} {op : Operator} {a b : Tree}
    (ha : Derives .factor ts a) (hb : Derives .factor us b)
    (ho : additive o.kind = some op ∨ multiplicative o.kind = some op) :
    Derives .expression (ts ++ o :: us) (.binary op a b) := by
  rcases ho with ho | ho
  · exact .sum (.term (.factor ha)) ho (.factor hb)
  · exact .term (.product (.factor ha) ho hb)

theorem text_binary (op : Operator) (a b : Tree) (cs : List Char) :
    (Tree.binary op a b).text.toList ++ cs =
      '(' :: (a.text.toList ++ ' ' :: op.symbol :: ' ' :: (b.text.toList ++ ')' :: cs)) := by
  simp [Tree.text]

/-- What is written of an expression scans as a factor with its tree, and opens at most as many
groups inside each other as it is high, less one. -/
theorem scans_text {e : Tree} (ha : e.AssignFree) (hw : e.Written) :
    ∀ cs position, Cursor.Ends isWordPart cs →
      ∃ ts position', Cursor.Scans ⟨e.text.toList ++ cs, position⟩ ts ⟨cs, position'⟩ ∧
        Derives .factor ts e ∧ ∀ n, n + e.height ≤ maxDepth + 1 → Fits n ts := by
  induction e with
  | number n =>
    intro cs position hcs
    obtain ⟨k, rfl⟩ := Int.eq_ofNat_of_zero_le hw.1
    refine ⟨_, _, Cursor.scans_numeral (isNumeral_repr k) hcs.digit, ?_, ?_⟩
    · have hd := @Derives.number ⟨.number, k.repr, position⟩ rfl
      rwa [Integer.ofDigits_repr] at hd
    · intro n _
      have hle : (Integer.ofDigits k.repr.toList : Int) ≤ Integer.greatest := by
        rw [Integer.ofDigits_repr]
        exact hw.2
      exact fits_singleton.mpr ⟨fun _ => hle, by simp⟩
  | var name =>
    intro cs position hcs
    exact ⟨_, _, Cursor.scans_name hw hcs, .identifier rfl, fun n _ =>
      fits_of_ne (by simp) (by simp) n⟩
  | binary op a b iha ihb =>
    intro cs position hcs
    obtain ⟨ts, pa, hsa, hda, hfa⟩ := iha ha.1 hw.1
      (' ' :: op.symbol :: ' ' :: (b.text.toList ++ ')' :: cs)) (position + 1)
      (ends_wordPart_of_blank rfl _)
    obtain ⟨us, pb, hsb, hdb, hfb⟩ := ihb ha.2 hw.2 (')' :: cs) (pa + 1 + 1 + 1)
      (ends_wordPart_of_mark rfl _)
    obtain ⟨k, hk, ho⟩ := op.exists_kind
    -- the operator with its two blanks, and the right operand
    have hright : Cursor.Scans
        ⟨' ' :: op.symbol :: ' ' :: (b.text.toList ++ ')' :: cs), pa⟩
        (_ :: us) ⟨')' :: cs, pb⟩ := .blank rfl (.mark hk (.blank rfl hsb))
    have hall : Cursor.Scans
        ⟨'(' :: (a.text.toList ++ ' ' :: op.symbol :: ' ' :: (b.text.toList ++ ')' :: cs)),
          position⟩
        (_ :: ((ts ++ _ :: us) ++ [_])) ⟨cs, pb + 1⟩ :=
      .mark rfl ((hsa.append hright).append (Cursor.scans_mark rfl))
    rw [← text_binary] at hall
    refine ⟨_, _, hall, .group rfl (hda.operation hdb ho) rfl, fun n hn => ?_⟩
    have hpos := a.height_pos
    simp only [Tree.height] at hn
    refine (fits_group rfl rfl).mpr ⟨by omega, (fits_operation hda ho).mpr ⟨?_, ?_⟩⟩
    · exact hfa (n + 1) (by omega)
    · exact hfb (n + 1) (by omega)
  | assign name value => exact absurd ha id

theorem text_assign (name : String) (e : Tree) (cs : List Char) :
    (Tree.assign name e).text.toList ++ cs =
      name.toList ++ ' ' :: '=' :: ' ' :: (e.text.toList ++ cs) := by
  simp [Tree.text]

/-- A text that scans to its end starts with all of its tokens. -/
theorem startsWith_of_scans {c : Cursor} {ts : List Token} {position : Nat}
    (h : c.Scans ts ⟨[], position⟩) : c.stream.StartsWith ts := by
  unfold Cursor.Scans at h
  rw [h, Cursor.stream_nil]
  exact ⟨[], rfl, fun _ => ⟨position, rfl⟩⟩

/-- What is written of a canonical tree, with a semicolon behind it, is a statement. -/
theorem exists_accepts_text {name : String} {e : Tree} (h : (Tree.assign name e).Canonical) :
    ∃ ts, Accepts ((Tree.assign name e).text ++ ";") ts name e := by
  obtain ⟨hname, hw, ha, hh⟩ := h
  obtain ⟨ts, p, hse, hd, hf⟩ := scans_text ha hw [';'] (0 + name.toList.length + 1 + 1 + 1)
    (ends_wordPart_of_mark rfl _)
  have hvalue : Cursor.Scans
      ⟨' ' :: '=' :: ' ' :: (e.text.toList ++ [';']), 0 + name.toList.length⟩
      (_ :: (ts ++ [_])) ⟨[], p + 1⟩ :=
    .blank rfl (.mark rfl (.blank rfl (hse.append (Cursor.scans_mark rfl))))
  have hends : Cursor.Ends isWordPart (' ' :: '=' :: ' ' :: (e.text.toList ++ [';'])) :=
    ends_wordPart_of_blank rfl _
  have hall := (Cursor.scans_name hname hends).append hvalue
  rw [← text_assign] at hall
  have hstart : Cursor.ofString ((Tree.assign name e).text ++ ";") =
      ⟨(Tree.assign name e).text.toList ++ [';'], 0⟩ := by
    rw [Cursor.ofString, String.toList_append]
    rfl
  have hs := startsWith_of_scans hall
  rw [← hstart] at hs
  refine ⟨_, hs, .assign rfl rfl (.term (.factor hd)) rfl, ?_, hh⟩
  exact (fits_statement rfl rfl rfl).mpr (hf 0 (by omega))

/-- A canonical tree is read back from its text with a semicolon behind it. -/
theorem Tree.Canonical.parse_text {t : Tree} (h : t.Canonical) :
    parse (t.text ++ ";") = .ok t := by
  cases t with
  | assign name e =>
    obtain ⟨ts, ha⟩ := exists_accepts_text h
    exact ha.parse_eq
  | _ => exact absurd h id

/-- Texts that parse alike run alike. -/
theorem execute_congr {s s' : String} (h : parse s = parse s') : execute s = execute s' := by
  unfold execute Session.run
  rw [h]

/-- Writing and parsing are inverse: on canonical trees, and on whatever was parsed, so that
writing a parsed statement a second time changes nothing and running it gives the same. -/
theorem parse_text_semicolon :
    (∀ t : Tree, t.Canonical → parse (t.text ++ ";") = .ok t) ∧
    ∀ s t, parse s = .ok t →
      parse (t.text ++ ";") = .ok t ∧
      (parse (t.text ++ ";")).map Tree.text = .ok t.text ∧
      execute (t.text ++ ";") = execute s := by
  refine ⟨fun t => Tree.Canonical.parse_text, fun s t h => ?_⟩
  have hp := (canonical_of_parse h).parse_text
  exact ⟨hp, by rw [hp]; rfl, execute_congr (hp.trans h.symm)⟩

/-- Parentheses that are written although the text had others, or needs none. -/
theorem parse_text_semicolon_difference :
    (Tree.assign "x" (.binary .subtract (.number 7) (.var "y"))).Canonical ∧
    parse "x = (7 - y);" = .ok (.assign "x" (.binary .subtract (.number 7) (.var "y"))) ∧
    execute "x = (7 - y);" = execute " x=007-(y); z" := by
  have hp : parse " x=007-(y); z" =
      .ok (.assign "x" (.binary .subtract (.number 7) (.var "y"))) := by decide +kernel
  have hc : (Tree.assign "x" (.binary .subtract (.number 7) (.var "y"))).Canonical := by
    refine ⟨⟨'x', [], rfl, rfl, by simp⟩, ⟨⟨by decide, by decide⟩, ?_⟩, ⟨trivial, trivial⟩, ?_⟩
    · exact ⟨'y', [], rfl, rfl, by simp⟩
    · decide
  have htext : (Tree.assign "x" (.binary .subtract (.number 7) (.var "y"))).text ++ ";" =
      "x = (7 - y);" := by decide +kernel
  have hparse := parse_text_semicolon.1 _ hc
  have hrun := (parse_text_semicolon.2 _ _ hp).2.2
  rw [htext] at hparse hrun
  exact ⟨hc, hparse, hrun⟩

end Reckon
