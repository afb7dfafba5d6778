import Reckon.Proofs.Diagnosis
import Reckon.Proofs.Progress

/-!
  Faults quote the text that they point at. A fault names a place of the text, or its end, and
  what it says of that place is there (`Fault.Points`): the foreign character, the token that it
  found, the number that is too great, the parenthesis or operator that goes too deep.

  Two facts make this up. Every fault is raised at a token that was at hand (`Parser.Blames`,
  `StatementFails.exists_blames`), and every token of a stream stands in the text
  (`Token.StandsIn`, `standsIn_of_mem_stream`). What could come between them is a parser that lost
  the text of its identifier; but with a foreign character behind it, it only ever says so.
-/

namespace Reckon

open Operator (additive multiplicative)

/-! ## Tokens in the text -/

/-- The token stands in the text: its characters are there, fit its kind and could not be more. A
number could not begin earlier either. -/
structure Token.StandsIn (text : List Char) (t : Token) : Prop where
  spelt : t.WellSpelt
  quoted : t.text.toList <+: text.drop t.position
  ends : t.kind.EndsBefore (text.drop t.stop)
  begins : t.kind = .number → Cursor.Ends isDigit (text.take t.position).reverse

/-- A token that ends in a digit and ends before these characters is not followed by a digit. -/
theorem Token.WellSpelt.not_digit_behind {t : Token} (ht : t.WellSpelt) {cs : List Char}
    (he : t.kind.EndsBefore cs) {c : Char} (hc : t.text.toList.getLast? = some c)
    (hd : isDigit c = true) : Cursor.Ends isDigit cs := by
  obtain ⟨k, s, n⟩ := t
  cases k with
  | identifier =>
    intro x hx
    have hw := he.1 rfl x hx
    simp only [isWordPart, Bool.or_eq_false_iff] at hw
    exact hw.2
  | number => exact he.2 rfl
  | _ =>
    obtain ⟨m, hm, hs⟩ := ht
    simp only at hs hc
    rw [hs] at hc
    have hcm : m = c := Option.some.inj hc
    have hword := not_wordPart_of_mark (Token.Kind.isMark_of_mark? hm)
    rw [hcm, wordPart_of_digit hd] at hword
    cases hword

/-- A token of a kind that is a mark has that mark alone. -/
theorem Token.WellSpelt.toList_of_mark {t : Token} (h : t.WellSpelt) {c : Char}
    (hc : t.kind.mark? = some c) : t.text.toList = [c] := by
  obtain ⟨k, s, n⟩ := t
  cases k with
  | identifier | number | ending => cases hc
  | _ =>
    obtain ⟨d, hd, hs⟩ := h
    rw [hs, ← Option.some.inj (hd.symm.trans hc)]

/-- No row of digits reaches from the one list into the other. -/
def Parted (before cs : List Char) : Prop :=
  ∀ c, before.getLast? = some c → isDigit c = true → Cursor.Ends isDigit cs

theorem standsIn_lexeme {before cs : List Char} {l : Lexeme} (hl : Lexeme.first? cs = some l)
    (h : Parted before cs) :
    Token.StandsIn (before ++ cs) ⟨l.kind, String.ofList l.text, before.length⟩ := by
  have hspelt := Lexeme.wellSpelt hl before.length
  have hcs := Lexeme.text_append_rest hl
  have hstop : (before ++ cs).drop (before.length + (String.ofList l.text).length) = l.rest := by
    rw [← List.drop_drop, List.drop_left, ← hcs, String.length_ofList, List.drop_left]
  refine ⟨hspelt, ?_, ?_, fun hk x hx => ?_⟩
  · simp only [List.drop_left, String.toList_ofList]
    exact ⟨l.rest, hcs⟩
  · rw [Token.stop, hstop]
    exact Lexeme.endsBefore_rest hl
  · -- the digit that the number begins with would go on with the one before
    simp only [List.take_left, List.head?_reverse] at hx
    simp only at hk
    simp only [Token.WellSpelt, hk] at hspelt
    obtain ⟨d, ds, hs, hd, -⟩ := hspelt
    rw [String.toList_ofList] at hs
    by_contra hdigit
    have hhead := h x hx (by simpa using hdigit) d (by rw [← hcs, hs]; rfl)
    rw [hd] at hhead
    cases hhead

/-- Every token that is read stands in the text. The induction goes along the text, and what lies
behind the cursor stays in sight. -/
theorem standsIn_of_mem_stream (cs : List Char) (n : Nat) :
    ∀ before, before.length = n → Parted before cs →
      ∀ t ∈ (Cursor.mk cs n).stream.tokens, t.StandsIn (before ++ cs) := by
  induction cs, n using charInduction with
  | nil n => simp [Cursor.stream_nil]
  | blank x cs n hx ih =>
    rintro before rfl - t ht
    rw [Cursor.scans_blank hx] at ht
    have hparted : Parted (before ++ [x]) cs := by
      intro c hc hd
      rw [List.getLast?_concat] at hc
      obtain rfl := Option.some.inj hc
      rw [not_blank_of_digit hd] at hx
      cases hx
    have hstands := ih (before ++ [x]) List.length_append hparted t ht
    rwa [List.append_assoc] at hstands
  | lexeme cs l n hl ih =>
    rintro before rfl hbefore t ht
    rw [Cursor.scans_lexeme hl, TokenStream.prepend, List.singleton_append, List.mem_cons] at ht
    rcases ht with rfl | ht
    · exact standsIn_lexeme hl hbefore
    · have hparted : Parted (before ++ l.text) l.rest := by
        intro c hc hd
        have hlast := List.getLast?_eq_some_getLast (Lexeme.text_ne_nil hl)
        rw [List.getLast?_append, hlast, Option.some_or, ← hlast] at hc
        exact (Lexeme.wellSpelt hl 0).not_digit_behind (Lexeme.endsBefore_rest hl)
          (by rwa [String.toList_ofList]) hd
      have hstands := ih (before ++ l.text) List.length_append hparted t ht
      rwa [List.append_assoc, Lexeme.text_append_rest hl] at hstands
  | foreign x cs n hx => simp [Cursor.stream_foreign hx]

/-- The stream of a text has tokens that stand in it. -/
theorem Token.standsIn_of_mem {text : String} {t : Token}
    (h : t ∈ (Cursor.ofString text).stream.tokens) : t.StandsIn text.toList := by
  have hparted : Parted [] text.toList := by
    intro c hc
    cases hc
  exact standsIn_of_mem_stream text.toList 0 [] rfl hparted t h

namespace Token.StandsIn

variable {text : List Char} {t : Token}

theorem position_lt (h : t.StandsIn text) : t.position < text.length := by
  have hlen := h.quoted.length_le
  have hpos := h.spelt.length_pos
  rw [String.length_toList, List.length_drop] at hlen
  omega

/-- A token that is a single mark is the character at its position. -/
theorem getElem?_of_mark (h : t.StandsIn text) {c : Char} (hc : t.kind.mark? = some c) :
    text[t.position]? = some c := by
  obtain ⟨tail, htail⟩ := h.quoted
  rw [h.spelt.toList_of_mark hc] at htail
  rw [← List.head?_drop, ← htail]
  rfl

end Token.StandsIn

/-! ## What a fault quotes -/

/-- The text has a row of digits at this place, and it is all of them. -/
structure IsDigitRun (text : List Char) (position : Nat) (digits : String) : Prop where
  numeral : IsNumeral digits
  quoted : digits.toList <+: text.drop position
  ends : Cursor.Ends isDigit (text.drop (position + digits.length))
  begins : Cursor.Ends isDigit (text.take position).reverse

/-- What was found at this place is the end of the text, or a token that stands there, in
backticks. -/
def FoundAt (text : List Char) (found : String) (position : Nat) : Prop :=
  found = "end of input" ∧ position = text.length ∨
    ∃ t : Token, t.StandsIn text ∧ t.text ≠ "" ∧ found = "`" ++ t.text ++ "`" ∧
      position = t.position

/-- What the fault says of its place in the text is there. -/
def Fault.Quotes (text : List Char) : Fault → Prop
  | lexical f => text[f.position]? = some f.character
  | grammatical (.unexpectedToken found _ position) => FoundAt text found position
  | grammatical (.unexpectedFactor found position) => FoundAt text found position
  | grammatical (.expectedIdentifier found position) => FoundAt text found position
  | grammatical (.nestingTooDeep _ position) =>
    ∃ c ∈ ['(', '+', '-', '*', '/'], text[position]? = some c
  | grammatical (.integerOutOfRange literal position) =>
    IsDigitRun text position literal ∧ Integer.greatest < Integer.ofDigits literal.toList
  | arithmetic _ => False

/-- The place in the text that a fault names. -/
def Fault.position? : Fault → Option Nat
  | lexical f => some f.position
  | grammatical g => some g.position
  | arithmetic _ => none

/-- The fault names a place in the text, or its end, and quotes what is there. -/
structure Fault.Points (text : List Char) (f : Fault) : Prop where
  within : ∃ n ≤ text.length, f.position? = some n
  quotes : f.Quotes text

/-- A stream ends with a foreign character that is in the text. -/
theorem points_lexical {text : String} {f : LexFault}
    (h : (Cursor.ofString text).stream.ending = .error f) :
    (Fault.lexical f).Points text.toList := by
  have hend := (Cursor.ofString text).endsAs
  rw [h] at hend
  obtain ⟨clean, tail, htext, -, -, hp⟩ := hend
  simp only [Cursor.ofString, Nat.zero_add] at htext hp
  refine ⟨⟨f.position, ?_, rfl⟩, ?_⟩
  · rw [htext, hp, List.length_append]
    exact Nat.le_add_right _ _
  · show text.toList[f.position]? = some f.character
    rw [htext, hp]
    simp

namespace Parser

variable {p q : Parser} {f : Fault} {s : TokenStream} {ts : List Token} {m : Nonterminal}

/-! ## Where a fault is raised -/

/-- The fault is about the token at hand, or about the foreign character behind it. -/
inductive Blames : Parser → Fault → Prop where
  | lexical {p : Parser} {g : LexFault} (hg : p.ahead = ⟨[], .error g⟩) : Blames p (.lexical g)
  | found {p : Parser} {g : SyntaxFault}
      (hg : g.found? = some (p.current.describe, p.current.position)) :
      Blames p (.grammatical g)
  | outOfRange {p : Parser} (hk : p.current.kind = .number)
      (hv : Integer.ofLiteral? p.current.text = none) :
      Blames p (.grammatical (.integerOutOfRange p.current.text p.current.position))
  | tooDeep {p : Parser} (hk : p.current.kind = .leftParen ∨
        ∃ op, additive p.current.kind = some op ∨ multiplicative p.current.kind = some op) :
      Blames p (tooDeep p.current.position)

theorem blames_of_expect {kind : Token.Kind} (h : expect kind p = .error f q) : Blames p f := by
  rcases expect_eq_error.mp h with ⟨-, -, rfl⟩ | ⟨-, -, g, hg, rfl⟩
  · exact .found rfl
  · exact .lexical hg

theorem Refuses.blames (h : Refuses p f q) : Blames p f := by
  cases h with
  | unexpected hn hi hl => exact .found rfl
  | outOfRange hk hv => exact .outOfRange hk hv
  | tooDeep hk hn => exact .tooDeep (.inl hk)
  | number hk hv hg => exact .lexical hg
  | identifier hk hg => exact .lexical hg
  | leftParen hk hn hg => exact .lexical hg

variable {P : Parser → Prop}

/-- A fault in an expression is raised at a parser that was come to on the way. -/
theorem Fails.exists_blames (hP : Kept P) (h : Fails m p ts f q) (hp : P p) :
    ∃ r, P r ∧ Blames r f := by
  induction h with
  | refused h => exact ⟨_, hp, h.blames⟩
  | inside hk hn ha h hc ih => exact ih (hP.nesting _ (hP.advance hp ha))
  | @close p p' q r ts s f hk hn ha hr hs hc =>
    have hin : P { p' with nesting := p'.nesting + 1 } := hP.nesting _ (hP.advance hp ha)
    exact ⟨_, hP.nesting _ (hP.passes hin hr.passes), blames_of_expect hc⟩
  | operand hc h ih => exact ih hp
  | operator hc hl ho hg => exact ⟨_, hP.passes hp hl.passes, .lexical hg⟩
  | right hc hl ho ha h ih => exact ih (hP.advance (hP.passes hp hl.passes) ha)
  | high hc hl ho ha hr hs hh =>
    exact ⟨_, hP.passes hp hl.passes, .tooDeep (.inr ⟨_, hc.operator ho⟩)⟩

theorem StatementFails.exists_blames (hP : Kept P) (h : StatementFails p ts f q) (hp : P p) :
    ∃ r, P r ∧ Blames r f := by
  cases h with
  | name hk => exact ⟨p, hp, .found rfl⟩
  | target hk hg => exact ⟨p, hp, .lexical hg⟩
  | equals hk ha he => exact ⟨_, hP.advance hp ha, blames_of_expect he⟩
  | value hk ha hq hb h => exact h.exists_blames hP (hP.advance (hP.advance hp ha) hb)
  | semicolon hk ha hq hb hr hs he =>
    exact ⟨_, hP.passes (hP.advance (hP.advance hp ha) hb) hr.passes, blames_of_expect he⟩

/-! ## Faults of a text -/

variable {text : String}

/-- The token at hand is described as it stands in the text. -/
theorem foundAt_current (h : p.On (Cursor.ofString text).stream) :
    p.current.position ≤ text.toList.length ∧
      FoundAt text.toList p.current.describe p.current.position := by
  rcases h.current_cases with hc | ⟨n, hn, hc⟩
  · have hstands := Token.standsIn_of_mem hc
    have hne : p.current.text ≠ "" := by
      intro hempty
      exact hstands.spelt.text_ne_nil (by rw [hempty]; rfl)
    exact ⟨hstands.position_lt.le, .inr ⟨p.current, hstands, hne,
      Token.describe_of_ne_ending hstands.spelt.kind_ne_ending, rfl⟩⟩
  · have hlen : n = text.toList.length := (Cursor.ending_eq hn).trans (Nat.zero_add _)
    rw [hc]
    exact ⟨hlen.le, .inl ⟨rfl, hlen⟩⟩

/-- The token at hand stands in the text if it is not the end. -/
theorem On.standsIn (h : p.On (Cursor.ofString text).stream) (hk : p.current.kind ≠ .ending) :
    p.current.StandsIn text.toList := by
  rcases h.current_cases with hc | ⟨n, -, hc⟩
  · exact Token.standsIn_of_mem hc
  · rw [hc] at hk
    exact absurd rfl hk

theorem quotes_of_found {g : SyntaxFault} {cs : List Char} {found : String} {position : Nat}
    (hg : g.found? = some (found, position)) (h : FoundAt cs found position) :
    g.position = position ∧ (Fault.grammatical g).Quotes cs := by
  cases g with
  | unexpectedToken | unexpectedFactor | expectedIdentifier =>
    obtain ⟨rfl, rfl⟩ := Prod.mk.inj (Option.some.inj hg)
    exact ⟨rfl, h⟩
  | nestingTooDeep | integerOutOfRange => cases hg

/-- A fault that is raised on the stream of the text points into the text. -/
theorem Blames.points (h : Blames p f) (hp : p.On (Cursor.ofString text).stream) :
    f.Points text.toList := by
  cases h with
  | lexical hg =>
    have hending := hp.ending_ahead
    rw [hg] at hending
    exact points_lexical hending.symm
  | found hg =>
    obtain ⟨hle, hfound⟩ := foundAt_current hp
    obtain ⟨hpos, hquotes⟩ := quotes_of_found hg hfound
    exact ⟨⟨_, hle, congrArg some hpos⟩, hquotes⟩
  | outOfRange hk hv =>
    have hstands := hp.standsIn (by simp [hk])
    have hspelt := hstands.spelt
    simp only [Token.WellSpelt, hk] at hspelt
    exact ⟨⟨_, hstands.position_lt.le, rfl⟩,
      ⟨hspelt, hstands.quoted, hstands.ends.2 hk, hstands.begins hk⟩,
      Integer.ofLiteral?_eq_none_iff.mp hv⟩
  | tooDeep hk =>
    have hmark : p.current.kind ≠ .ending ∧
        ∃ c ∈ ['(', '+', '-', '*', '/'], p.current.kind.mark? = some c := by
      rcases hk with hk | ⟨op, ho⟩
      · rw [hk]
        exact ⟨by decide, _, by decide, rfl⟩
      · rcases kind_of_operator ho with hk | hk | hk | hk <;> rw [hk] <;>
          exact ⟨by decide, _, by decide, rfl⟩
    obtain ⟨hne, c, hc, hmark⟩ := hmark
    have hstands := hp.standsIn hne
    exact ⟨⟨_, hstands.position_lt.le, rfl⟩, c, hc, hstands.getElem?_of_mark hmark⟩

/-- The fault of a text that is not parsed points into it. -/
theorem points_of_parse (h : parse text = .error f) : f.Points text.toList := by
  rcases parse_cases text with ⟨g, hg, hparse⟩ | ⟨p, hp, hanswer⟩
  · rw [hparse] at h
    obtain rfl := Except.error.inj h
    exact points_lexical (by rw [hg])
  · obtain ⟨hat, hn⟩ := start_eq_ok.mp hp
    obtain ⟨q, hq⟩ := answer_eq_error_iff.mp (hanswer.symm.trans h)
    obtain ⟨ts, hfails⟩ := statement_fails (hn ▸ Nat.zero_le _) hq
    obtain ⟨r, hr, hblames⟩ := hfails.exists_blames (kept_on _) ⟨_, .refl _, hat⟩
    exact hblames.points hr

/-- A fault of the scanner, read in either way, is that of its cursor. -/
theorem exists_read_of_fault {s : Scanner} {f : LexFault}
    (h : (∃ s', s.read = .error f s') ∨ s.next?.1 = some (.error f)) :
    ∃ c, s.cursor.read = .error f c := by
  simp only [Scanner.read, Scanner.next?] at h
  cases hr : s.cursor.read with
  | error g c =>
    simp only [hr] at h
    rcases h with ⟨s', h⟩ | h
    · exact ⟨c, by rw [(EStateM.Result.error.inj h).1]⟩
    · split at h
      · cases h
      · exact ⟨c, by rw [Except.error.inj (Option.some.inj h)]⟩
  | ok t c =>
    simp only [hr] at h
    rcases h with ⟨s', h⟩ | h
    · cases h
    · split at h
      · cases h
      · split at h <;> cases h

/-- Whatever was scanned and parsed before, and whether it could be read or not, a fault of the
scanner, of a parser that takes over from it or of any statement that this is asked for points into
the text: the place that it names is in the text or at its end, and what it quotes is there. -/
theorem points_of_lifetime (text : String) (steps : List Scanner.Step) :
    (∀ f, (∃ s, ((Scanner.ofString text).after steps).read = .error f s) ∨
        ((Scanner.ofString text).after steps).next?.1 = some (.error f) →
      (Fault.lexical f).Points text.toList) ∧
    (∀ f, ((Scanner.ofString text).after steps).parser = .error f → f.Points text.toList) ∧
    ∀ p, ((Scanner.ofString text).after steps).parser = .ok p → ∀ n f,
      (p.after n).answer = .error f → f.Points text.toList := by
  have htail := (Scanner.ofString text).tailOf_after steps
  -- where only a foreign character is left, it is that of the whole text
  have hscan : ∀ f, ((Scanner.ofString text).after steps).cursor.stream = ⟨[], .error f⟩ →
      (Fault.lexical f).Points text.toList := by
    intro f hf
    have hending := htail.ending
    rw [hf] at hending
    exact points_lexical hending.symm
  refine ⟨fun f h => ?_, fun f h => ?_, fun p h n f hf => ?_⟩
  · obtain ⟨c, hr⟩ := exists_read_of_fault h
    exact hscan f (Cursor.stream_of_read_error hr).1
  · obtain ⟨g, hg, rfl⟩ := start_eq_error.mp h
    exact hscan g hg
  · obtain ⟨hnearly, hn⟩ := on_after h n
    rcases hnearly with hon | ⟨r, g, hon, hk, hg, hr⟩
    · obtain ⟨q, hq⟩ := answer_eq_error_iff.mp hf
      obtain ⟨ts, hfails⟩ := statement_fails hn hq
      obtain ⟨r, hr, hblames⟩ := hfails.exists_blames (kept_on _) hon
      exact hblames.points hr
    · -- the parser lost its text, and only reports the foreign character
      have hstuck : (p.after n).answer = .error (.lexical g) := by
        rw [hr]
        exact answer_of_stuck hk hg
      rw [hstuck] at hf
      obtain rfl := Except.error.inj hf
      exact (Blames.lexical hg).points hon

/-- A number that is too great behind a statement that could be read, and a foreign character that
is reported twice, the second time by a parser without the text of its identifier. -/
theorem points_of_lifetime_repeated :
    (∃ p, ((Scanner.ofString "; x = 1; y = 03000000000").after [.next]).parser = .ok p ∧
      (p.after 1).answer = .error (.grammatical (.integerOutOfRange "03000000000" 13)) ∧
      (Fault.grammatical (.integerOutOfRange "03000000000" 13)).Points
        "; x = 1; y = 03000000000".toList) ∧
    ∃ p, ((Scanner.ofString "x = 1; y $").after []).parser = .ok p ∧
      (p.after 2).current.text = "" ∧ (p.after 2).answer = .error (.lexical ⟨'$', 9⟩) ∧
      (Fault.lexical ⟨'$', 9⟩).Points "x = 1; y $".toList := by
  have hnumber : (((Scanner.ofString "; x = 1; y = 03000000000").after [.next]).parser.map
      fun p => (p.after 1).answer) =
        .ok (.error (.grammatical (.integerOutOfRange "03000000000" 13))) := by decide +kernel
  have hforeign : (((Scanner.ofString "x = 1; y $").after []).parser.map
      fun p => ((p.after 2).current.text, (p.after 2).answer)) =
        .ok ("", .error (.lexical ⟨'$', 9⟩)) := by decide +kernel
  obtain ⟨p, hp, hanswer⟩ := exists_of_map_eq_ok hnumber
  obtain ⟨p', hp', hafter⟩ := exists_of_map_eq_ok hforeign
  obtain ⟨hempty, hanswer'⟩ := Prod.mk.inj hafter
  obtain ⟨-, -, hpoints⟩ := points_of_lifetime "; x = 1; y = 03000000000" [.next]
  obtain ⟨-, -, hpoints'⟩ := points_of_lifetime "x = 1; y $" []
  exact ⟨⟨p, hp, hanswer, hpoints p hp 1 _ hanswer⟩,
    p', hp', hempty, hanswer', hpoints' p' hp' 2 _ hanswer'⟩

end Parser

end Reckon
