import Mathlib.Control.Monad.Basic
import Reckon.Proofs.Coupling
import Reckon.Proofs.Viability

/-!
  Syntax faults are raised at the first token that cannot be. What stands before it is the start of
  a statement, and with it no longer; the limits of the parser play no part. `Stage.Justifies` says
  what a fault tells about the stage of the grammar that it was raised at, and
  `StatementFails.justifies` that every fault of a statement is justified in this way: one case for
  each way to fail. `parse_fault_at_first_impossible` says the same of texts.

  No token behind the fault has a part in it. To see that, the text is run once more in thought,
  cut off behind the token with a foreign character in its place (`continuing`). The run cannot
  come to that character, since the tokens before it do not start a statement, so it ends with the
  same fault, and so does any text that goes on from there.
-/

namespace Reckon

/-! ## What faults say -/

namespace SyntaxFault

/-- The token that a fault is about, by its description and its place. A fault of the limits is
about none. -/
def found? : SyntaxFault → Option (String × Nat)
  | unexpectedToken found _ position => some (found, position)
  | unexpectedFactor found position => some (found, position)
  | expectedIdentifier found position => some (found, position)
  | nestingTooDeep _ _ => none
  | integerOutOfRange _ _ => none

/-- The kinds of token that the fault asks for at its place. -/
def Welcomes : SyntaxFault → Token.Kind → Prop
  | unexpectedToken _ expected _, k => k.phrase = expected
  | unexpectedFactor _ _, k => k = .number ∨ k = .identifier ∨ k = .leftParen
  | expectedIdentifier _ _, k => k = .identifier
  | nestingTooDeep _ _, _ => False
  | integerOutOfRange _ _, _ => False

end SyntaxFault

/-- The tokens of a text, up to the first foreign character or up to its end, which is an item of
its own. -/
def items (text : String) : List Token :=
  match (Cursor.ofString text).stream with
  | ⟨tokens, .ok _⟩ => tokens ++ [.ending text.length]
  | ⟨tokens, .error _⟩ => tokens

namespace Stage

/-- The fault is about this token, which the stage has no room for, and what it asks for instead
the stage has room for. -/
structure Refutes (σ : Stage) (t : Token) (g : SyntaxFault) : Prop where
  found_eq : g.found? = some (t.describe, t.position)
  next_eq_none : σ.next t.kind = none
  exists_welcome : ∃ k, g.Welcomes k
  next_welcome : ∀ k, g.Welcomes k → σ.next k ≠ none

/-- What a fault that left the parser at `q` says about the stage. -/
def Justifies (σ : Stage) (q : Parser) : Fault → Prop
  | .lexical g => q.ahead = ⟨[], .error g⟩ ∧ σ.next q.current.kind ≠ none
  | .grammatical g => g.found? ≠ none → σ.Refutes q.current g
  | .arithmetic _ => False

variable {σ : Stage} {d : Nat} {k : Token.Kind}

/-- An expression that does not go on is followed by the parenthesis of its group or, outside of
all groups, by the semicolon. -/
theorem next_ready_eq_none (hs : Nonterminal.expression.Stops k) (hr : k = .rightParen → d = 0)
    (hsemi : k = .semicolon → d ≠ 0) : (ready d).next k = none := by
  rw [Option.eq_none_iff_forall_ne_some]
  intro τ h
  rcases next_ready_eq_some.mp h with ⟨⟨op, ho⟩, -⟩ | ⟨hk, n, hd, -⟩ | ⟨hk, hd, -⟩
  · rcases ho with ho | ho
    · rw [hs.1] at ho; cases ho
    · rw [hs.2] at ho; cases ho
  · have hzero := hr hk
    omega
  · exact hsemi hk hd

/-- A kind that is expected because the stage has room for it alone. -/
theorem justifies_of_expect {p q : Parser} {f : Fault} (h : Parser.expect k p = .error f q)
    (hk : σ.next k ≠ none) (hother : p.current.kind ≠ k → σ.next p.current.kind = none) :
    σ.Justifies q f := by
  rcases Parser.expect_eq_error.mp h with ⟨hne, rfl, rfl⟩ | ⟨heq, rfl, g, hg, rfl⟩
  · exact fun _ => ⟨rfl, hother hne, ⟨k, rfl⟩, fun k' hw => Token.Kind.phrase_injective hw ▸ hk⟩
  · exact ⟨hg, heq ▸ hk⟩

end Stage

/-! ## Every fault is justified -/

namespace Parser

open Stage

variable {p q : Parser} {f : Fault} {m : Nonterminal} {ts : List Token}

theorem Refuses.justifies (h : Refuses p f q) (d : Nat) : (wanting d).Justifies q f := by
  have hlexical : ∀ {k : Token.Kind}, k = .number ∨ k = .identifier ∨ k = .leftParen →
      (wanting d).next k ≠ none := by
    rintro _ (rfl | rfl | rfl) <;> simp [Stage.next]
  cases h with
  | unexpected hn hi hl =>
    refine fun _ => ⟨rfl, ?_, ⟨.number, .inl rfl⟩, fun k => hlexical⟩
    rw [Option.eq_none_iff_forall_ne_some]
    intro τ h
    rcases next_wanting_eq_some.mp h with ⟨hk | hk, -⟩ | ⟨hk, -⟩
    · exact hn hk
    · exact hi hk
    · exact hl hk
  | outOfRange hk hv => exact fun h => absurd rfl h
  | tooDeep hk hn => exact fun h => absurd rfl h
  | number hk hv hg => exact ⟨hg, hlexical (.inl hk)⟩
  | identifier hk hg => exact ⟨hg, hlexical (.inr (.inl hk))⟩
  | leftParen hk hn hg => exact ⟨hg, hlexical (.inr (.inr hk))⟩

/-- A fault in an expression is justified at the stage that the tokens before it lead to. -/
theorem Fails.justifies (h : Fails m p ts f q) (d : Nat) :
    ∃ σ, (wanting d).walk ts = some σ ∧ σ.Justifies q f := by
  induction h generalizing d with
  | refused h => exact ⟨wanting d, rfl, h.justifies d⟩
  | inside hk hn ha h hc ih =>
    rw [walk_leftParen hk]
    exact ih (d + 1)
  | close hk hn ha hr hs hc =>
    rw [walk_leftParen hk, walk_of_derives hr.derives]
    refine ⟨_, rfl, justifies_of_expect hc (by simp [Stage.next]) fun hne => ?_⟩
    exact next_ready_eq_none hs (fun h => absurd h hne) (fun _ => by omega)
  | operand hc h ih => exact ih d
  | operator hc hl ho hg =>
    refine ⟨_, walk_of_derives hl.derives d, hg, ?_⟩
    rw [next_operator (hc.operator ho)]
    simp
  | right hc hl ho ha h ih =>
    rw [walk_operation hl.derives (hc.operator ho)]
    exact ih d
  | high hc hl ho ha hr hs hh =>
    rw [walk_operation hl.derives (hc.operator ho), walk_of_derives hr.derives]
    exact ⟨_, rfl, fun h => absurd rfl h⟩

theorem StatementFails.justifies (h : StatementFails p ts f q) :
    ∃ σ, Stage.start.walk ts = some σ ∧ σ.Justifies q f := by
  cases h with
  | name hk =>
    refine ⟨.start, rfl, fun _ => ⟨rfl, ?_, ⟨.identifier, rfl⟩, ?_⟩⟩
    · exact Option.eq_none_iff_forall_ne_some.mpr fun τ h => hk (next_start_eq_some.mp h).1
    · rintro _ rfl
      simp [Stage.next]
  | target hk hg =>
    refine ⟨.start, rfl, hg, ?_⟩
    show Stage.start.next p.current.kind ≠ none
    rw [hk]
    simp [Stage.next]
  | equals hk ha he =>
    rw [walk_cons_of_next (next_start_eq_some.mpr ⟨hk, rfl⟩)]
    refine ⟨named, rfl, justifies_of_expect he (by simp [Stage.next]) fun hne => ?_⟩
    exact Option.eq_none_iff_forall_ne_some.mpr fun τ h => hne (next_named_eq_some.mp h).1
  | value hk ha hq hb h =>
    rw [walk_assign hk hq]
    exact h.justifies 0
  | semicolon hk ha hq hb hr hs he =>
    rw [walk_assign hk hq, walk_of_derives hr.derives]
    refine ⟨_, rfl, justifies_of_expect he (by simp [Stage.next]) fun hne => ?_⟩
    exact next_ready_eq_none hs (fun _ => rfl) (fun h => absurd h hne)

/-! ## Faults in a stream -/

variable {s : TokenStream}

/-- A parser at the start of a stream has the end of the text at hand, or the first token. -/
theorem At.eq_nil_or_cons {r : Parser} {rest : List Token} {e : Except LexFault Nat}
    (h : r.At ⟨rest, e⟩) :
    (∃ n, rest = [] ∧ e = .ok n ∧ r.current = .ending n ∧ r.ahead = ⟨[], .ok n⟩) ∨
      ∃ more, rest = r.current :: more ∧ r.ahead = ⟨more, e⟩ := by
  rcases TokenStream.next_eq_ok.mp h with hs | ⟨n, hs, hc, ha⟩
  · obtain ⟨rfl, rfl⟩ := TokenStream.mk.inj hs
    exact .inr ⟨_, rfl, rfl⟩
  · obtain ⟨rfl, rfl⟩ := TokenStream.mk.inj hs
    exact .inl ⟨n, rfl, rfl, hc, ha⟩

/-- A lexical fault is that of the stream, and all its tokens are the start of a statement. -/
theorem viable_of_answer {g : LexFault} (hp : p.At s) (hn : p.nesting ≤ maxDepth)
    (h : p.answer = .error (.lexical g)) : s.ending = .error g ∧ Viable s.tokens := by
  obtain ⟨q, hq⟩ := answer_eq_error_iff.mp h
  obtain ⟨ts, hf⟩ := statement_fails hn hq
  obtain ⟨σ, hw, hahead, hnext⟩ := hf.justifies
  obtain ⟨r, hpass, hkind, hr⟩ := hf.leaves.exists_passes
  obtain ⟨rest, htokens, hat⟩ := hpass.exists_rest hp hf.kind_ne_ending
  rw [hahead] at hr
  -- the token at hand is the last one
  obtain ⟨hrest, hending⟩ : rest = [r.current] ∧ s.ending = .error g := by
    rcases hat.eq_nil_or_cons with ⟨n, -, -, -, ha⟩ | ⟨more, hrest, ha⟩
    · rw [hr] at ha
      cases ha
    · rw [hr] at ha
      obtain ⟨rfl, he⟩ := TokenStream.mk.inj ha
      exact ⟨hrest, he.symm⟩
  rw [htokens, hrest, viable_snoc_iff hw, hkind]
  exact ⟨hending, hnext⟩

/-- A syntax fault that is about a token is about the first one that a statement has no room for. -/
theorem refutes_of_answer {g : SyntaxFault} (hp : p.At s) (hn : p.nesting ≤ maxDepth)
    (h : p.answer = .error (.grammatical g)) (hg : g.found? ≠ none) :
    ∃ (ts rest : List Token) (r : Parser) (σ : Stage), s.tokens = ts ++ rest ∧
      r.At ⟨rest, s.ending⟩ ∧ Stage.start.walk ts = some σ ∧ σ.Refutes r.current g := by
  obtain ⟨q, hq⟩ := answer_eq_error_iff.mp h
  obtain ⟨ts, hf⟩ := statement_fails hn hq
  obtain ⟨σ, hw, hj⟩ := hf.justifies
  obtain ⟨r, hpass, hr⟩ := hf.leaves.exists_passes_current
  obtain ⟨rest, htokens, hat⟩ := hpass.exists_rest hp hf.kind_ne_ending
  exact ⟨ts, rest, r, σ, htokens, hat, hw, hr ▸ hj hg⟩

end Parser

/-! ## Texts that go on in another way -/

/-- The runs on a stream that breaks off with a fault, and on one that goes on there as `s`. -/
def continuing (g : LexFault) (s : TokenStream) : Coupling where
  Ahead a b := ∃ ts, a = ⟨ts, .error g⟩ ∧ b = s.prepend ts
  Place n n' := n' = n
  Lexical _ _ := False
  Apart f := f = g
  next_ok := by
    rintro _ _ t r ⟨ts, rfl, rfl⟩ h
    cases ts with
    | nil => cases h
    | cons u ts =>
      obtain ⟨rfl, rfl⟩ := EStateM.Result.ok.inj h
      exact ⟨_, _, rfl, rfl, ts, rfl, rfl⟩
  next_error := by
    rintro _ _ f r ⟨ts, rfl, rfl⟩ h
    cases ts with
    | nil =>
      obtain ⟨rfl, -⟩ := EStateM.Result.error.inj h
      exact .inl rfl
    | cons u ts => cases h

namespace Parser

variable {p p' p₀ : Parser} {ts : List Token} {g : LexFault} {s s' : TokenStream}

theorem answer_continuing (h : (continuing g s).Couples p₀ p)
    (hg : p₀.answer ≠ .error (.lexical g)) : p.answer = p₀.answer := by
  rcases h.answer_cases with ⟨t, ht, ht'⟩ | ⟨f, f', hf, hf', hsame⟩ | ⟨f, hapart, hf⟩
  · rw [ht, ht']
  · rw [hf, hf']
    cases hsame with
    | lexical hl => exact absurd hl id
    | @grammatical f n hn => rw [show n = f.position from hn, f.moveTo_position]
  · exact absurd (hf.trans (congrArg (Except.error ∘ Fault.lexical) hapart)) hg

/-- What comes behind tokens that do not start a statement makes no difference to the answer. -/
theorem answer_eq_of_not_viable (hp : p.At (s.prepend ts)) (hp' : p'.At (s'.prepend ts))
    (hn : p.nesting ≤ maxDepth) (hn' : p'.nesting = p.nesting) (hts : ¬Viable ts) :
    p'.answer = p.answer := by
  have hne : ts = [] → ∃ n, (Except.error ⟨'?', 0⟩ : Except LexFault Nat) = .ok n := by
    rintro rfl
    exact absurd viable_nil hts
  obtain ⟨p₀, hp₀, hn₀⟩ := (exists_at_iff p.nesting).mpr hne
  have hcut : p₀.answer ≠ .error (.lexical ⟨'?', 0⟩) := fun h =>
    hts (viable_of_answer hp₀ (hn₀ ▸ hn) h).2
  have hcouples : (continuing ⟨'?', 0⟩ s).Couples p₀ p :=
    Coupling.couples_of_at ⟨ts, rfl, rfl⟩ hp₀ hp hn₀.symm
  have hcouples' : (continuing ⟨'?', 0⟩ s').Couples p₀ p' :=
    Coupling.couples_of_at ⟨ts, rfl, rfl⟩ hp₀ hp' (hn'.trans hn₀.symm)
  rw [answer_continuing hcouples hcut, answer_continuing hcouples' hcut]

end Parser

/-! ## Texts -/

theorem items_eq_of_error {text : String} {g : LexFault}
    (h : (Cursor.ofString text).stream.ending = .error g) :
    (Cursor.ofString text).stream = ⟨items text, .error g⟩ := by
  unfold items
  generalize (Cursor.ofString text).stream = s at h
  obtain ⟨tokens, ending⟩ := s
  obtain rfl : ending = .error g := h
  rfl

theorem items_eq_of_ok {text : String} {n : Nat}
    (h : (Cursor.ofString text).stream.ending = .ok n) :
    items text = (Cursor.ofString text).stream.tokens ++ [.ending n] := by
  have hn : n = text.length := by
    rw [Cursor.ending_eq h, ← String.length_toList]
    exact Nat.zero_add _
  unfold items
  generalize (Cursor.ofString text).stream = s at h
  obtain ⟨tokens, ending⟩ := s
  obtain rfl : ending = .ok n := h
  rw [hn]

/-- What a parser has at hand in a text, after these tokens, is the next item. -/
theorem Parser.At.exists_items {text : String} {r : Parser} {ts rest : List Token}
    (htokens : (Cursor.ofString text).stream.tokens = ts ++ rest)
    (h : r.At ⟨rest, (Cursor.ofString text).stream.ending⟩) :
    ∃ more, items text = ts ++ r.current :: more := by
  rcases h.eq_nil_or_cons with ⟨n, hrest, he, hc, -⟩ | ⟨more, hrest, -⟩
  · rw [items_eq_of_ok he, htokens, hrest, hc, List.append_nil]
    exact ⟨[], rfl⟩
  · cases he : (Cursor.ofString text).stream.ending with
    | ok n =>
      rw [items_eq_of_ok he, htokens, hrest, List.append_assoc]
      exact ⟨more ++ [.ending n], rfl⟩
    | error g =>
      have hitems := congrArg TokenStream.tokens (items_eq_of_error he)
      rw [htokens, hrest] at hitems
      exact ⟨more, hitems.symm⟩

/-- A parser can go over the items of a text up to any of them. -/
theorem exists_passes_of_items {text : String} {ts more : List Token} {c : Token}
    (h : items text = ts ++ c :: more) :
    ∃ p r, Parser.ofString text = .ok p ∧ Parser.Passes p ts r ∧ r.current = c := by
  obtain ⟨rest, r, htokens, hr, hn, hc⟩ : ∃ (rest : List Token) (r : Parser),
      (Cursor.ofString text).stream.tokens = ts ++ rest ∧
        r.At ⟨rest, (Cursor.ofString text).stream.ending⟩ ∧ r.nesting = 0 ∧ r.current = c := by
    cases he : (Cursor.ofString text).stream.ending with
    | ok n =>
      rw [items_eq_of_ok he] at h
      rcases List.eq_nil_or_concat more with rfl | ⟨us, t, rfl⟩
      · obtain ⟨htokens, hending⟩ := List.append_inj' h rfl
        obtain ⟨rfl, -⟩ := List.cons.inj hending
        exact ⟨[], ⟨_, ⟨[], .ok n⟩, 0⟩, by rw [htokens, List.append_nil], rfl, rfl, rfl⟩
      · rw [List.concat_eq_append, ← List.cons_append, ← List.append_assoc] at h
        obtain ⟨htokens, -⟩ := List.append_inj' h rfl
        exact ⟨c :: us, ⟨c, ⟨us, .ok n⟩, 0⟩, htokens, rfl, rfl, rfl⟩
    | error g =>
      have htokens := congrArg TokenStream.tokens (items_eq_of_error he)
      exact ⟨c :: more, ⟨c, ⟨more, .error g⟩, 0⟩, htokens.trans h, rfl, rfl, rfl⟩
  have hlive : ts ++ rest = [] → ∃ n, (Cursor.ofString text).stream.ending = .ok n := fun hnil =>
    (Parser.exists_at_iff 0).mp ⟨r, hr, hn⟩ (List.append_eq_nil_iff.mp hnil).2
  obtain ⟨p, hp, hpn⟩ := (Parser.exists_at_iff 0).mpr hlive
  refine ⟨p, r, Parser.start_eq_ok.mpr ⟨?_, hpn⟩, (Parser.passes_iff hp).mpr ⟨hr, ?_⟩, hc⟩
  · rwa [← htokens] at hp
  · rw [hn, hpn]

/-- Behind a token the text can go on in another way, which leaves the tokens up to there as they
are if it does not make the last one longer. -/
theorem stream_take_stop {text rest : String} {ts more : List Token} {c : Token}
    (h : (Cursor.ofString text).stream.tokens = ts ++ c :: more)
    (hrest : c.kind.EndsBefore rest.toList) :
    ∃ s, (Cursor.ofString (String.ofList (text.toList.take c.stop ++ rest.toList))).stream =
      TokenStream.prepend (ts ++ [c]) s := by
  obtain ⟨w, tail, htext, hw, hrow⟩ := exists_spells_of_stream text.toList 0 ts c more h
  have hend : EndBefore (ts ++ [c]) (0 + w.length) rest.toList := by
    intro t ht _
    rw [List.getLast?_concat] at ht
    rw [← Option.some.inj ht]
    exact hrest
  have hscan := hrow.scans_append hend
  have htake : text.toList.take c.stop = w := by
    rw [htext, ← hw, Nat.zero_add, List.take_left]
  refine ⟨(Cursor.mk rest.toList (0 + w.length)).stream, ?_⟩
  rw [htake, Cursor.ofString, String.toList_ofList]
  exact hscan

/-- If a text begins with tokens that do not start a statement, what comes behind the last of them
makes no difference. -/
theorem parse_take_stop {text rest : String} {ts more : List Token} {c : Token}
    (h : (Cursor.ofString text).stream.tokens = ts ++ c :: more)
    (hts : ¬Viable (ts ++ [c])) (hrest : c.kind.EndsBefore rest.toList) :
    parse (String.ofList (text.toList.take c.stop ++ rest.toList)) = parse text := by
  have hat : ∀ s : TokenStream, ∃ p, Parser.start (s.prepend (ts ++ [c])) = .ok p := by
    intro s
    have hne : ts ++ [c] ++ s.tokens = [] → ∃ n, s.ending = .ok n := fun h => by simp at h
    obtain ⟨p, hp, hn⟩ := (Parser.exists_at_iff 0).mpr hne
    exact ⟨p, Parser.start_eq_ok.mpr ⟨hp, hn⟩⟩
  have hstream : (Cursor.ofString text).stream =
      TokenStream.prepend (ts ++ [c]) ⟨more, (Cursor.ofString text).stream.ending⟩ := by
    rw [TokenStream.prepend, List.append_assoc, List.singleton_append, ← h]
  obtain ⟨s, hs⟩ := stream_take_stop h hrest
  obtain ⟨p, hp⟩ := hat ⟨more, (Cursor.ofString text).stream.ending⟩
  obtain ⟨p', hp'⟩ := hat s
  obtain ⟨hpat, hn⟩ := Parser.start_eq_ok.mp hp
  obtain ⟨hpat', hn'⟩ := Parser.start_eq_ok.mp hp'
  rw [← hstream] at hp
  rw [← hs] at hp'
  rw [Parser.parse_eq_answer hp, Parser.parse_eq_answer hp']
  exact Parser.answer_eq_of_not_viable hpat hpat' (by omega) (by omega) hts

/-- A syntax fault about a token is about the item of the text that the stage before it refutes. -/
theorem exists_refuted_item {text : String} {f : SyntaxFault}
    (h : parse text = .error (.grammatical f)) (hf : f.found? ≠ none) :
    ∃ ts item more σ, items text = ts ++ item :: more ∧ Stage.start.walk ts = some σ ∧
      σ.Refutes item f ∧
      (item.kind ≠ .ending →
        ∃ rest, (Cursor.ofString text).stream.tokens = ts ++ item :: rest) := by
  rcases parse_cases text with ⟨g, -, hparse⟩ | ⟨p, hp, hanswer⟩
  · rw [hparse] at h
    cases h
  · obtain ⟨hat, hn⟩ := Parser.start_eq_ok.mp hp
    obtain ⟨ts, rest, r, σ, htokens, hr, hw, hσ⟩ :=
      Parser.refutes_of_answer hat (by omega) (hanswer ▸ h) hf
    obtain ⟨more, hitems⟩ := hr.exists_items htokens
    refine ⟨ts, r.current, more, σ, hitems, hw, hσ, fun hk => ?_⟩
    rcases hr.eq_nil_or_cons with ⟨n, -, -, hc, -⟩ | ⟨rest', hrest, -⟩
    · exact absurd (congrArg Token.kind hc) hk
    · exact ⟨rest', htokens.trans (congrArg (ts ++ ·) hrest)⟩

/-- All tokens before a foreign character that is come to are the start of a statement. -/
theorem viable_items_of_parse {text : String} {f : LexFault}
    (h : parse text = .error (.lexical f)) :
    (Cursor.ofString text).stream = ⟨items text, .error f⟩ ∧ Viable (items text) := by
  have hstream : (Cursor.ofString text).stream.ending = .error f ∧
      Viable (Cursor.ofString text).stream.tokens := by
    rcases parse_cases text with ⟨g, hg, hparse⟩ | ⟨p, hp, hanswer⟩
    · rw [hparse] at h
      cases h
      rw [hg]
      exact ⟨rfl, viable_nil⟩
    · obtain ⟨hat, hn⟩ := Parser.start_eq_ok.mp hp
      exact Parser.viable_of_answer hat (by omega) (hanswer ▸ h)
  obtain ⟨hending, hviable⟩ := hstream
  have hitems := items_eq_of_error hending
  rw [hitems] at hviable
  exact ⟨hitems, hviable⟩

/-- A syntax fault about a token is about the first item of the text that cannot be: the tokens
before it are the start of a statement, with it they are not, and with what the fault asks for
instead they are again. Behind the item the text may go on in any way that does not make it longer,
with the same fault. A lexical fault comes behind tokens that are the start of a statement, or all
of one. -/
theorem parse_fault_at_first_impossible (text : String) :
    (∀ f found position, parse text = .error (.grammatical f) →
      f.found? = some (found, position) →
      ∃ ts item more, items text = ts ++ item :: more ∧ Viable ts ∧ ¬Viable (ts ++ [item]) ∧
        found = item.describe ∧ position = item.position ∧
        (∃ k, f.Welcomes k) ∧ (∀ t, f.Welcomes t.kind → Viable (ts ++ [t])) ∧
        (item.kind ≠ .ending → ∀ rest : String, item.kind.EndsBefore rest.toList →
          parse (String.ofList (text.toList.take item.stop ++ rest.toList)) =
            .error (.grammatical f))) ∧
    ∀ f, parse text = .error (.lexical f) →
      (Cursor.ofString text).stream = ⟨items text, .error f⟩ ∧ Viable (items text) := by
  refine ⟨fun f found position h hfound => ?_, fun f => viable_items_of_parse⟩
  have hsome : f.found? ≠ none := by rw [hfound]; simp
  obtain ⟨ts, item, more, σ, hitems, hw, hσ, htokens⟩ := exists_refuted_item h hsome
  obtain ⟨hdescribe, hposition⟩ := Prod.mk.inj (Option.some.inj (hfound.symm.trans hσ.found_eq))
  have hviable : Viable ts := viable_iff_walk.mpr ⟨σ, hw⟩
  have hnot : ¬Viable (ts ++ [item]) := fun hv =>
    (viable_snoc_iff hw item).mp hv hσ.next_eq_none
  have hwelcome : ∀ t : Token, f.Welcomes t.kind → Viable (ts ++ [t]) := fun t ht =>
    (viable_snoc_iff hw t).mpr (hσ.next_welcome t.kind ht)
  refine ⟨ts, item, more, hitems, hviable, hnot, hdescribe, hposition, hσ.exists_welcome,
    hwelcome, fun hk rest hrest => ?_⟩
  obtain ⟨us, hus⟩ := htokens hk
  rw [parse_take_stop hus hnot hrest, h]

/-- A group that is not closed, and then closed too late, and one with a foreign character in it. -/
theorem parse_fault_at_first_impossible_unclosed :
    (∃ ts item more, items "x = (1 2; $" = ts ++ item :: more ∧ ¬Viable (ts ++ [item]) ∧
      "`2`" = item.describe ∧ 7 = item.position ∧
      (∀ t : Token, t.kind = .rightParen → Viable (ts ++ [t])) ∧
      parse (String.ofList ("x = (1 2; $".toList.take item.stop ++ ")".toList)) =
        .error (.grammatical (.unexpectedToken "`2`" "`)`" 7))) ∧
    Viable (items "x = (1 + $") := by
  obtain ⟨hfirst, -⟩ := parse_fault_at_first_impossible "x = (1 2; $"
  obtain ⟨-, hlexical⟩ := parse_fault_at_first_impossible "x = (1 + $"
  obtain ⟨ts, item, more, hitems, -, hnot, hfound, hposition, -, hwelcome, hbehind⟩ :=
    hfirst (.unexpectedToken "`2`" "`)`" 7) "`2`" 7 (by decide +kernel) rfl
  have hclose : ∀ t : Token, t.kind = .rightParen → Viable (ts ++ [t]) := by
    intro t ht
    apply hwelcome
    rw [ht]
    rfl
  have hkind : item.kind ≠ .ending := by
    intro hk
    have hend : item.describe = "end of input" := by rw [Token.describe, hk]
    rw [hend] at hfound
    exact absurd hfound (by decide)
  have hends : item.kind.EndsBefore ")".toList := by
    have hmark : ∀ p : Char → Bool, p ')' = false → Cursor.Ends p ")".toList := by
      intro p hp x hx
      rw [← Option.some.inj hx]
      exact hp
    exact ⟨fun _ => hmark isWordPart (by decide), fun _ => hmark isDigit (by decide)⟩
  exact ⟨⟨ts, item, more, hitems, hnot, hfound, hposition, hclose, hbehind hkind ")" hends⟩,
    (hlexical ⟨'$', 9⟩ (by decide +kernel)).2⟩

end Reckon
