import Mathlib.Control.Monad.Basic
import Reckon.Proofs.Coupling

/-!
  A parser that was used before is as good as a new one. Whatever was scanned and parsed before,
  and whether it could be read or not, the next answer is that of a parser which starts at the
  token at hand, on the rest of the text alone: the same tree, or the same fault with its place
  counted in the whole text. Only the count of open groups is carried over, and after statements
  that could be read it is zero.

  The proof couples the two parsers (`shifting`): the streams of one text at two places differ in
  the positions of their tokens by the distance of the places.
-/

namespace Reckon

/-! ## Shifts -/

/-- The same token further on in a text. -/
def Token.shift (k : Nat) (t : Token) : Token := { t with position := t.position + k }

/-- The same lexical fault further on in a text. -/
def LexFault.shift (k : Nat) (f : LexFault) : LexFault := { f with position := f.position + k }

/-- The same stream further on in a text. -/
def TokenStream.shift (k : Nat) (s : TokenStream) : TokenStream :=
  ⟨s.tokens.map (Token.shift k), (s.ending.mapError (LexFault.shift k)).map (· + k)⟩

/-- The same fault further on in a text. -/
def Fault.shift (k : Nat) : Fault → Fault
  | lexical f => lexical (f.shift k)
  | grammatical g => grammatical (g.moveTo (g.position + k))
  | arithmetic f => arithmetic f

/-- Where a text starts makes no difference to its tokens but in their positions. -/
theorem Cursor.stream_shift (k : Nat) (cs : List Char) (n : Nat) :
    (Cursor.mk cs (n + k)).stream = (Cursor.mk cs n).stream.shift k := by
  induction cs, n using charInduction with
  | nil n =>
    rw [stream_nil, stream_nil]
    rfl
  | blank x cs n hx ih =>
    rw [Nat.add_right_comm] at ih
    rw [scans_blank hx, scans_blank hx, ih]
    rfl
  | lexeme cs l n hl ih =>
    rw [Nat.add_right_comm] at ih
    rw [scans_lexeme hl, scans_lexeme hl, ih]
    rfl
  | foreign x cs n hx =>
    rw [stream_foreign hx, stream_foreign hx]
    rfl

/-! ## A text at two places -/

/-- The runs on one text that starts at two places, at a distance of `k`. -/
def shifting (k : Nat) : Coupling where
  Ahead s s' := s' = s.shift k
  Place n n' := n' = n + k
  Lexical f f' := f' = f.shift k
  Apart _ := False
  next_ok := by
    rintro ⟨tokens, ending⟩ _ t r rfl h
    cases tokens with
    | cons u tokens =>
      obtain ⟨rfl, rfl⟩ := EStateM.Result.ok.inj h
      exact ⟨_, _, rfl, rfl, rfl⟩
    | nil =>
      cases ending with
      | error f => cases h
      | ok n =>
        obtain ⟨rfl, rfl⟩ := EStateM.Result.ok.inj h
        exact ⟨_, _, rfl, rfl, rfl⟩
  next_error := by
    rintro ⟨tokens, ending⟩ _ f r rfl h
    cases tokens with
    | cons u tokens => cases h
    | nil =>
      cases ending with
      | ok n => cases h
      | error f =>
        obtain ⟨rfl, rfl⟩ := EStateM.Result.error.inj h
        exact .inr ⟨_, _, rfl, rfl, rfl⟩

namespace Parser

variable {text : List Char} {p q r : Parser} {k : Nat}

theorem answer_shifting (h : (shifting k).Couples r p) :
    p.answer = r.answer.mapError (Fault.shift k) := by
  rcases h.answer_cases with ⟨t, ht, ht'⟩ | ⟨f, f', hf, hf', hsame⟩ | ⟨f, hapart, -⟩
  · rw [ht, ht']
    rfl
  · rw [hf, hf']
    cases hsame with
    | lexical hl => rw [show _ = _ from hl]; rfl
    | grammatical hn => rw [show _ = _ from hn]; rfl
  · exact absurd hapart id

/-- A parser that stands in the text is one that starts at its token, but for its count of open
groups. -/
theorem Stands.exists_start (h : p.Stands text) :
    ∃ r, ofString (String.ofList (text.drop p.current.position)) = .ok r ∧ r.nesting = 0 ∧
      (shifting p.current.position).Couples { r with nesting := p.nesting } p := by
  have hshift := Cursor.stream_shift p.current.position (text.drop p.current.position) 0
  rw [Nat.zero_add] at hshift
  unfold ofString start Cursor.ofString
  rw [String.toList_ofList]
  cases hs : (Cursor.mk (text.drop p.current.position) 0).stream.next with
  | error f s =>
    have hat := h.at_stream
    unfold At at hat
    rcases (shifting _).next_error hshift hs with hf | ⟨f', s', hs', -, -⟩
    · exact absurd hf id
    · rw [hs'] at hat
      cases hat
  | ok t s =>
    have hr : At ⟨t, s, p.nesting⟩ (Cursor.mk (text.drop p.current.position) 0).stream := hs
    exact ⟨⟨t, s, 0⟩, rfl, rfl, Coupling.couples_of_at hshift hr h.at_stream rfl⟩

/-- With a foreign character behind an identifier, its text makes no difference to the answer. -/
theorem answer_emptied {g : LexFault} (hk : r.current.kind = .identifier)
    (hg : r.ahead = ⟨[], .error g⟩) : r.emptied.answer = r.answer := by
  rw [answer_of_stuck (p := r.emptied) hk hg, answer_of_stuck hk hg]

theorem Rests.position_le (h : p.Rests text) : p.current.position ≤ text.length := by
  rcases h with h | ⟨r, g, h, hk, hg, rfl⟩
  · exact h.position_le
  · exact h.position_le

/-- The answer of a parser in a text is that of one which starts at its token at hand. -/
theorem Rests.exists_answer (h : p.Rests text) :
    ∃ r, ofString (String.ofList (text.drop p.current.position)) = .ok r ∧ r.nesting = 0 ∧
      p.answer = (answer { r with nesting := p.nesting }).mapError
        (Fault.shift p.current.position) := by
  rcases h with h | ⟨r, g, h, hk, hg, rfl⟩
  · obtain ⟨r, hr, hn, hc⟩ := h.exists_start
    exact ⟨r, hr, hn, answer_shifting hc⟩
  · obtain ⟨r', hr', hn, hc⟩ := h.exists_start
    refine ⟨r', hr', hn, ?_⟩
    rw [answer_emptied hk hg]
    exact answer_shifting hc

/-- Statements that could be read leave the count of open groups as it was. -/
theorem nesting_after_eq {n : Nat} (h : ∀ m < n, ∃ t, (p.after m).answer = .ok t) :
    (p.after n).nesting = p.nesting := by
  induction n with
  | zero => rfl
  | succ n ih =>
    obtain ⟨t, ht⟩ := h n (Nat.lt_succ_self n)
    obtain ⟨q, hq⟩ := answer_eq_ok_iff.mp ht
    obtain ⟨ts, name, e, -, -, hp, -, -⟩ := statement_reads hq
    rw [after, call_of_ok hq, hp.nesting_eq]
    exact ih fun m hm => h m (Nat.lt_succ_of_lt hm)

/-- After any steps of the scanner and any number of statements, readable or not, the next answer
is that of a new parser on the rest of the text, started with the same count of open groups, with
every position counted from the start of the text. After readable statements only, it is what
parsing the rest of the text gives. -/
theorem answer_after_eq_restart (text : String) (steps : List Scanner.Step) (p : Parser)
    (h : ((Scanner.ofString text).after steps).parser = .ok p) (n : Nat) :
    (p.after n).current.position ≤ text.length ∧
    (∃ r, ofString (String.ofList (text.toList.drop (p.after n).current.position)) = .ok r ∧
      (p.after n).answer = (answer { r with nesting := (p.after n).nesting }).mapError
        (Fault.shift (p.after n).current.position)) ∧
    ((∀ m < n, ∃ t, (p.after m).answer = .ok t) →
      (p.after n).answer =
        (parse (String.ofList (text.toList.drop (p.after n).current.position))).mapError
          (Fault.shift (p.after n).current.position)) := by
  obtain ⟨hrests, -⟩ := rests_after h n
  obtain ⟨r, hr, hn, ha⟩ := hrests.exists_answer
  refine ⟨?_, ⟨r, hr, ha⟩, fun hok => ?_⟩
  · rw [← String.length_toList]
    exact hrests.position_le
  · have hzero : (p.after n).nesting = r.nesting := by
      rw [nesting_after_eq hok, (start_eq_ok.mp h).2, hn]
    rw [ha, hzero, parse_eq_answer hr]

/-- First behind a statement, then behind one that broke off in the inner of two groups. -/
theorem answer_after_eq_restart_broken :
    ∃ p, ((Scanner.ofString "a; x = 1; y = ((2 z = (3); b").after [.read, .next]).parser = .ok p ∧
      (p.after 1).answer = (parse "y = ((2 z = (3); b").mapError (Fault.shift 10) ∧
      ∃ r, ofString "z = (3); b" = .ok r ∧
        (p.after 2).answer = (answer { r with nesting := 1 }).mapError (Fault.shift 18) := by
  have hrun : ∃ p,
      ((Scanner.ofString "a; x = 1; y = ((2 z = (3); b").after [.read, .next]).parser = .ok p ∧
        (p.after 0).answer = .ok (.assign "x" (.number 1)) ∧ (p.after 1).current.position = 10 ∧
        (p.after 2).current.position = 18 ∧ (p.after 2).nesting = 1 := by
    have hcheck :
        (((Scanner.ofString "a; x = 1; y = ((2 z = (3); b").after [.read, .next]).parser.map
          fun p => ((p.after 0).answer, (p.after 1).current.position,
            (p.after 2).current.position, (p.after 2).nesting)) =
          .ok (.ok (.assign "x" (.number 1)), 10, 18, 1) := by decide +kernel
    obtain ⟨p, hp, hafter⟩ := exists_of_map_eq_ok hcheck
    simp only [Prod.mk.injEq] at hafter
    exact ⟨p, hp, hafter⟩
  obtain ⟨p, hp, h₀, h₁, h₂, hn⟩ := hrun
  obtain ⟨-, -, hparse⟩ := answer_after_eq_restart _ _ p hp 1
  obtain ⟨-, ⟨r, hr, hanswer⟩, -⟩ := answer_after_eq_restart _ _ p hp 2
  have hfirst : ∀ m < 1, ∃ t, (p.after m).answer = .ok t := by
    intro m hm
    rw [Nat.lt_one_iff.mp hm]
    exact ⟨_, h₀⟩
  have hanswer₁ := hparse hfirst
  rw [h₁] at hanswer₁
  rw [h₂] at hr hanswer
  rw [hn] at hanswer
  exact ⟨p, hp, hanswer₁, r, hr, hanswer⟩

end Parser

end Reckon
