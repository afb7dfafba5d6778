import Mathlib.Control.Monad.Basic
import Reckon.Proofs.Acceptance
import Reckon.Proofs.Foreign
import Reckon.Proofs.Quotation

/-!
  What stands behind a statement. Parsing looks at one token there and makes nothing of it, so
  whatever begins with blanks and a character of the language can follow; only a foreign character
  in that place is a fault (`parse_append`).

  In front of other characters a text keeps its tokens if it ends with a semicolon, which nothing
  makes longer (`Spells.scans_append`). So the stream of the two texts together is known, and the
  two ways it can go on are put to the parser: with a token or the end of the text the statement is
  accepted (`Accepts.parse_eq`), with a foreign character the semicolon is not passed
  (`Parser.statement_eq_error_of_at`).
-/

namespace Reckon

/-! ## The first item behind a place -/

namespace Cursor

theorem scans_blanks {bs cs : List Char} {n : Nat} (h : ∀ x ∈ bs, isBlank x = true) :
    Scans ⟨bs ++ cs, n⟩ [] ⟨cs, n + bs.length⟩ := by
  induction bs generalizing n with
  | nil => exact Scans.refl _
  | cons x bs ih =>
    obtain ⟨hx, hbs⟩ := List.forall_mem_cons.mp h
    have hlen : n + (x :: bs).length = n + 1 + bs.length := by rw [List.length_cons]; omega
    rw [hlen]
    exact (ih hbs).blank hx

theorem stream_of_blanks {bs : List Char} {n : Nat} (h : ∀ x ∈ bs, isBlank x = true) :
    (mk bs n).stream = ⟨[], .ok (n + bs.length)⟩ := by
  have hscan := @scans_blanks bs [] n h
  rw [List.append_nil] at hscan
  rw [hscan, stream_nil]
  rfl

/-- Behind blanks, the next character starts a token unless it is foreign. -/
theorem stream_tokens_ne_nil {bs cs : List Char} {c : Char} {n : Nat}
    (hbs : ∀ x ∈ bs, isBlank x = true) (hb : isBlank c = false) (hc : isForeign c = false) :
    (mk (bs ++ c :: cs) n).stream.tokens ≠ [] := by
  rw [scans_blanks hbs]
  cases hl : Lexeme.first? (c :: cs) with
  | none =>
    rw [(Lexeme.first?_cons_eq_none_iff hb).mp hl] at hc
    cases hc
  | some l =>
    rw [scans_lexeme hl]
    exact List.cons_ne_nil _ _

theorem stream_of_blanks_foreign {bs cs : List Char} {c : Char} {n : Nat}
    (hbs : ∀ x ∈ bs, isBlank x = true) (hc : isForeign c = true) :
    (mk (bs ++ c :: cs) n).stream = ⟨[], .error ⟨c, n + bs.length⟩⟩ := by
  rw [scans_blanks hbs, stream_foreign hc]
  rfl

end Cursor

/-! ## A semicolon in front -/

/-- Nothing makes a semicolon longer. -/
theorem Statement.endBefore {ts : List Token} {name : String} {e : Tree} (h : Statement ts name e)
    (stop : Nat) (cs : List Char) : EndBefore ts stop cs := by
  cases h with
  | @assign x o s ts e hx ho he hs =>
    intro t ht _
    rw [← List.cons_append, ← List.cons_append, List.getLast?_concat] at ht
    obtain rfl := Option.some.inj ht
    exact ⟨by simp [hs], by simp [hs]⟩

/-- A list in which an element stands at the end only has it nowhere else. -/
theorem eq_length_of_getElem? {α : Type} {xs : List α} {x : α} {i : Nat} (hx : x ∉ xs)
    (h : (xs ++ [x])[i]? = some x) : i = xs.length := by
  obtain ⟨hi, -⟩ := List.getElem?_eq_some_iff.mp h
  rw [List.length_append, List.length_singleton] at hi
  by_contra hne
  rw [List.getElem?_append_left (by omega)] at h
  exact hx (List.mem_of_getElem? h)

/-- A statement whose semicolon is the last character of the text, and the only semicolon there, is
all of the text. -/
theorem Accepts.spells {p : String} {ts : List Token} {name : String} {e : Tree}
    (h : Accepts p ts name e) {body : List Char} (hp : p.toList = body ++ [';'])
    (hbody : ';' ∉ body) : Spells 0 p.toList ts := by
  obtain ⟨rest, htokens, -⟩ := h.starts
  obtain ⟨us, s, rfl, hs⟩ : ∃ us s, ts = us ++ [s] ∧ s.kind = .semicolon := by
    cases h.derives with
    | @assign x o s ts e hx ho he hs => exact ⟨x :: o :: ts, s, rfl, hs⟩
  rw [List.append_assoc, List.singleton_append] at htokens
  have hmark : s.kind.mark? = some ';' := by rw [hs]; rfl
  have hstands : s.StandsIn p.toList := Token.standsIn_of_mem (by rw [htokens]; simp)
  have hposition : s.position = body.length := by
    have hget := hstands.getElem?_of_mark hmark
    rw [hp] at hget
    exact eq_length_of_getElem? hbody hget
  have hlength : s.text.length = 1 := by
    rw [← String.length_toList, hstands.spelt.toList_of_mark hmark]
    rfl
  -- the row of tokens up to the semicolon takes all of the text
  obtain ⟨w, tail, htext, hw, hrow⟩ := exists_spells_of_stream p.toList 0 us s rest htokens
  have htail : tail = [] := by
    have hlen := congrArg List.length htext
    rw [hp, List.length_append, List.length_append, List.length_singleton] at hlen
    rw [Token.stop, hposition, hlength] at hw
    exact List.length_eq_zero_iff.mp (by omega)
  rw [htail, List.append_nil] at htext
  rwa [htext]

/-- Behind such a statement the stream goes on with what is appended. -/
theorem Accepts.stream_append {p : String} {ts : List Token} {name : String} {e : Tree}
    (h : Accepts p ts name e) (hrow : Spells 0 p.toList ts) (r : String) :
    (Cursor.ofString (p ++ r)).stream =
      (Cursor.mk r.toList p.length).stream.prepend ts := by
  have hscan := hrow.scans_append (h.derives.endBefore (0 + p.toList.length) r.toList)
  rw [Nat.zero_add, String.length_toList] at hscan
  rw [Cursor.ofString, String.toList_append]
  exact hscan

/-! ## The item behind the semicolon -/

/-- A statement with a foreign character behind its semicolon is not read. -/
theorem Parser.statement_eq_error_of_at {p : Parser} {ts : List Token} {name : String} {e : Tree}
    {f : LexFault} (h : Statement ts name e) (hp : p.At ⟨ts, .error f⟩) (hf : Fits p.nesting ts)
    (hh : e.height ≤ maxDepth) : ∃ q, statement p = .error (.lexical f) q := by
  cases h with
  | @assign x o s ts e hx ho he hs =>
    have hp' : p.At ⟨(x :: o :: ts) ++ [s], .error f⟩ := hp
    obtain ⟨q, hq, hn⟩ := (@exists_at_iff [s] (.error f) p.nesting).mpr (by simp)
    obtain ⟨hcurrent, hahead⟩ := at_cons.mp hq
    obtain ⟨p₁, p₂, ht, hequals, hv⟩ := value_of_passes hx ho he ((passes_iff hp').mpr ⟨hq, hn⟩)
      ((fits_statement hx ho hs).mp hf) hh (hcurrent ▸ hs)
    have hsemi : expect .semicolon q = .error (.lexical f) q :=
      expect_eq_error.mpr (.inr ⟨hcurrent ▸ hs, rfl, f, hahead.symm, rfl⟩)
    exact ⟨q, statement_eq_error.mpr (.inr ⟨_, p₁, ht, .inr ⟨p₂, hequals, .inr ⟨_, q, hv, hsemi⟩⟩⟩)⟩

/-- A text that is a statement and then a foreign character has that fault. -/
theorem parse_of_stream_eq {text : String} {ts : List Token} {name : String} {e : Tree}
    {f : LexFault} (h : Statement ts name e) (hf : Fits 0 ts) (hh : e.height ≤ maxDepth)
    (hstream : (Cursor.ofString text).stream = ⟨ts, .error f⟩) :
    parse text = .error (.lexical f) := by
  rcases parse_cases text with ⟨g, hg, hparse⟩ | ⟨p, hp, hanswer⟩
  · rw [hstream] at hg
    obtain ⟨-, he⟩ := TokenStream.mk.inj hg
    cases he
    exact hparse
  · obtain ⟨hat, hn⟩ := Parser.ofString_eq_ok.mp hp
    rw [hstream] at hat
    rw [hanswer]
    exact Parser.answer_eq_error_iff.mpr (Parser.statement_eq_error_of_at h hat (hn ▸ hf) hh)

/-- If a text is a statement whose semicolon is its last character and the only one, and another
text follows, one item of that is looked at. Blanks alone, or blanks and then a character of the
language, make no difference to the tree, whatever comes after that character. Blanks and then a
character outside the language are a lexical fault, about that character. -/
theorem parse_append (p r : String) (t : Tree) (h : parse p = .ok t)
    (hsemicolon : ∃ body, p.toList = body ++ [';'] ∧ ';' ∉ body) :
    ((∀ x ∈ r.toList, isBlank x = true) → parse (p ++ r) = .ok t) ∧
    ∀ blanks c rest, r.toList = blanks ++ c :: rest → (∀ x ∈ blanks, isBlank x = true) →
      isBlank c = false →
      (Legible c → parse (p ++ r) = .ok t) ∧
      (¬Legible c → parse (p ++ r) = .error (.lexical ⟨c, p.length + blanks.length⟩)) := by
  obtain ⟨body, hp, hbody⟩ := hsemicolon
  obtain ⟨ts, name, e, rfl, haccepts⟩ := exists_accepts h
  have hstream := haccepts.stream_append (haccepts.spells hp hbody) r
  have hok : ((Cursor.mk r.toList p.length).stream.tokens = [] →
      ∃ n, (Cursor.mk r.toList p.length).stream.ending = .ok n) →
      parse (p ++ r) = .ok (.assign name e) := by
    intro hlive
    have hstarts : (Cursor.ofString (p ++ r)).stream.StartsWith ts := by
      rw [hstream]
      exact ⟨_, rfl, hlive⟩
    exact Accepts.parse_eq ⟨hstarts, haccepts.derives, haccepts.fits, haccepts.height_le⟩
  refine ⟨fun hr => hok fun _ => ?_, fun blanks c rest hr hblanks hc =>
    ⟨fun hlegible => hok fun hnil => ?_, fun hforeign => ?_⟩⟩
  · rw [Cursor.stream_of_blanks hr]
    exact ⟨_, rfl⟩
  · rw [hr] at hnil
    exact absurd hnil (Cursor.stream_tokens_ne_nil hblanks hc (not_isForeign_iff.mpr hlegible))
  · rw [hr, Cursor.stream_of_blanks_foreign hblanks (isForeign_iff.mpr hforeign)] at hstream
    refine parse_of_stream_eq haccepts.derives haccepts.fits haccepts.height_le ?_
    rw [hstream, TokenStream.prepend, List.append_nil]

/-- Behind one statement: a second one that is broken off and a number that is too great, and a
foreign character that comes first. -/
theorem parse_append_broken :
    parse ("x = (1 + 2);" ++ "\n y = ( 99999999999999999999 $") =
        .ok (.assign "x" (.binary .add (.number 1) (.number 2))) ∧
      parse ("x = (1 + 2);" ++ "\t\n $ y = 1;") = .error (.lexical ⟨'$', 15⟩) := by
  have hparse : parse "x = (1 + 2);" =
      .ok (.assign "x" (.binary .add (.number 1) (.number 2))) := by decide +kernel
  have hsemicolon : ∃ body, "x = (1 + 2);".toList = body ++ [';'] ∧ ';' ∉ body :=
    ⟨"x = (1 + 2)".toList, by decide +kernel, by decide +kernel⟩
  have hbroken := (parse_append _ "\n y = ( 99999999999999999999 $" _ hparse hsemicolon).2
    ['\n', ' '] 'y' " = ( 99999999999999999999 $".toList (by decide +kernel) (by simp [isBlank])
    (by decide)
  have hforeign := (parse_append _ "\t\n $ y = 1;" _ hparse hsemicolon).2
    ['\t', '\n', ' '] '$' " y = 1;".toList (by decide +kernel) (by simp [isBlank]) (by decide)
  exact ⟨hbroken.1 (by decide), hforeign.2 (by decide)⟩

end Reckon
