import Reckon.Proofs.Failing
import Reckon.Proofs.Spelling
import Reckon.Scanner

/-!
  Scanners and parsers over their lifetimes: a text is scanned for some steps, of either kind, then
  a parser takes over and is asked for one statement after the other, whether the ones before could
  be read or not.

  What reading keeps (`Parser.Kept`) holds after any number of calls, but for one loss: a failure
  may take the text of an identifier away, and then a foreign character stands behind it and the
  parser does not move again (`Parser.Nearly`, `Parser.nearly_after`). `Parser.Stands` is such a
  property of a parser in a text: it is at the place of its token at hand just as a parser that
  starts there. `Parser.rests_after` says that of its whole lifetime, and that the count of open
  groups is within the limit.
-/

namespace Reckon

/-! ## Steps and calls -/

theorem exists_of_map_eq_ok {ε α β : Type} {x : Except ε α} {f : α → β} {b : β}
    (h : x.map f = .ok b) : ∃ a, x = .ok a ∧ f a = b := by
  cases x with
  | error e => cases h
  | ok a => exact ⟨a, rfl, Except.ok.inj h⟩

namespace Scanner

/-- One of the two ways to read on. -/
inductive Step where
  | read
  | next
  deriving DecidableEq, Repr

/-- The scanner that one step leaves behind. -/
def step (s : Scanner) : Step → Scanner
  | .read =>
    match s.read with
    | .ok _ s' => s'
    | .error _ s' => s'
  | .next => s.next?.2

/-- The scanner that some steps leave behind. -/
def after (s : Scanner) (steps : List Step) : Scanner := steps.foldl step s

/-- The parser that takes over at the cursor. -/
def parser (s : Scanner) : Except Fault Parser := Parser.start s.cursor.stream

end Scanner

namespace Parser

/-- Asks for one statement: the answer, and the parser afterwards. -/
def call (p : Parser) : Except Fault Tree × Parser :=
  match statement p with
  | .ok t q => (.ok t, q)
  | .error f q => (.error f, q)

/-- The answer of a parser that is asked for a statement. -/
def answer (p : Parser) : Except Fault Tree := p.call.1

/-- The parser after it was asked for so many statements. -/
def after (p : Parser) : Nat → Parser
  | 0 => p
  | n + 1 => (p.after n).call.2

theorem call_of_ok {p q : Parser} {t : Tree} (h : statement p = .ok t q) :
    p.call = (.ok t, q) := by
  simp [call, h]

theorem call_of_error {p q : Parser} {f : Fault} (h : statement p = .error f q) :
    p.call = (.error f, q) := by
  simp [call, h]

theorem answer_eq_ok_iff {p : Parser} {t : Tree} :
    p.answer = .ok t ↔ ∃ q, statement p = .ok t q := by
  unfold answer call
  cases statement p <;> simp

theorem answer_eq_error_iff {p : Parser} {f : Fault} :
    p.answer = .error f ↔ ∃ q, statement p = .error f q := by
  unfold answer call
  cases statement p <;> simp

/-- With a foreign character behind an identifier no statement begins there, whatever the text of
the identifier. -/
theorem answer_of_stuck {p : Parser} {g : LexFault} (hk : p.current.kind = .identifier)
    (hg : p.ahead = ⟨[], .error g⟩) : p.answer = .error (.lexical g) := by
  have ha : advance p.emptied = .error (.lexical g) p.emptied :=
    advance_eq_error.mpr ⟨g, hg, rfl, rfl⟩
  exact answer_eq_error_iff.mpr
    ⟨_, statement_eq_error.mpr (.inl (target_eq_error.mpr (.inr ⟨hk, ha⟩)))⟩

/-- A text is parsed by asking once. -/
theorem parse_eq_answer {text : String} {p : Parser} (h : ofString text = .ok p) :
    parse text = p.answer := by
  unfold parse answer call EStateM.run
  rw [h]
  dsimp only
  cases statement p <;> rfl

end Parser

/-- A text begins with a foreign character, or it is parsed by asking a parser once. -/
theorem parse_cases (text : String) :
    (∃ g, (Cursor.ofString text).stream = ⟨[], .error g⟩ ∧ parse text = .error (.lexical g)) ∨
      ∃ p, Parser.ofString text = .ok p ∧ parse text = p.answer := by
  cases hp : Parser.ofString text with
  | error f =>
    obtain ⟨g, hg, rfl⟩ := Parser.start_eq_error.mp hp
    refine .inl ⟨g, hg, ?_⟩
    unfold parse
    rw [hp]
  | ok p => exact .inr ⟨p, rfl, Parser.parse_eq_answer hp⟩

/-! ## Cursors in a text -/

namespace Cursor

variable {text : List Char} {c c' : Cursor} {t : Token}

/-- The cursor stands in the text. -/
structure In (text : List Char) (c : Cursor) : Prop where
  rest_eq : c.rest = text.drop c.position
  position_le : c.position ≤ text.length

theorem In.skip_append (h : c.In text) {w rest : List Char} (hw : c.rest = w ++ rest) :
    In text ⟨rest, c.position + w.length⟩ := by
  have hdrop : rest = (text.drop c.position).drop w.length := by
    rw [← h.rest_eq, hw, List.drop_left]
  have hlen := congrArg List.length (h.rest_eq.symm.trans hw)
  rw [List.length_drop, List.length_append] at hlen
  have hle := h.position_le
  refine ⟨?_, by simp only; omega⟩
  rw [hdrop, List.drop_drop]

theorem In.skipBlanks (h : c.In text) : c.skipBlanks.In text :=
  h.skip_append List.takeWhile_append_dropWhile.symm

theorem In.skip (h : c.In text) {l : Lexeme} (hl : Lexeme.first? c.rest = some l) :
    (c.skip l).In text :=
  h.skip_append (Lexeme.text_append_rest hl).symm

/-- What was read stands behind the blanks: the end of the text or the first lexeme. -/
theorem read_eq_ok (h : c.read = .ok t c') :
    (c.skipBlanks.rest = [] ∧ t = .ending c.skipBlanks.position ∧ c' = c.skipBlanks) ∨
      ∃ l, Lexeme.first? c.skipBlanks.rest = some l ∧ t = c.skipBlanks.token l ∧
        c' = c.skipBlanks.skip l := by
  change readHere c.skipBlanks = .ok t c' at h
  unfold readHere at h
  split at h
  · next hr => cases h; exact .inl ⟨hr, rfl, rfl⟩
  · split at h
    · next l hl => cases h; exact .inr ⟨l, hl, rfl, rfl⟩
    · cases h

theorem read_eq_error {f : LexFault} (h : c.read = .error f c') : c' = c.skipBlanks := by
  change readHere c.skipBlanks = .error f c' at h
  unfold readHere at h
  split at h
  · cases h
  · split at h
    · cases h
    · cases h; rfl

theorem position_of_read (h : c.read = .ok t c') : t.position = c.skipBlanks.position := by
  rcases read_eq_ok h with ⟨-, rfl, -⟩ | ⟨l, -, rfl, -⟩
  · rfl
  · rfl

theorem In.read (h : c.In text) (hr : c.read = .ok t c') : c'.In text := by
  rcases read_eq_ok hr with ⟨-, -, rfl⟩ | ⟨l, hl, -, rfl⟩
  · exact h.skipBlanks
  · exact h.skipBlanks.skip hl

theorem read_skipBlanks (c : Cursor) : c.skipBlanks.read = c.read :=
  congrArg readHere (skipBlanks_skipBlanks c)

theorem stream_skipBlanks (c : Cursor) : c.skipBlanks.stream = c.stream := by
  rw [stream_eq, read_skipBlanks, ← stream_eq]

/-- The stream of a cursor is read as the cursor reads. -/
theorem next_stream (c : Cursor) :
    c.stream.next =
      match c.read with
      | .ok t c' => .ok t c'.stream
      | .error f c' => .error f c'.stream := by
  cases hr : c.read with
  | error f c' =>
    have hstream : c.stream = ⟨[], .error f⟩ := by rw [stream_eq, hr]
    rw [read_eq_error hr]
    dsimp only
    rw [stream_skipBlanks, hstream]
    rfl
  | ok t c' =>
    rcases read_eq_ok hr with ⟨-, rfl, rfl⟩ | ⟨l, hl, rfl, rfl⟩
    · have hstream : c.stream = ⟨[], .ok c.skipBlanks.position⟩ := by rw [stream_eq, hr]; rfl
      dsimp only
      rw [stream_skipBlanks, hstream]
      rfl
    · have hstream : c.stream = (c.skipBlanks.skip l).stream.cons (c.skipBlanks.token l) := by
        rw [stream_eq, hr]
        exact if_neg (Lexeme.kind_ne_ending hl)
      rw [hstream]
      rfl

end Cursor

/-! ## Parsers in a text -/

namespace Parser

variable {text : List Char} {p q : Parser} {ts : List Token}

/-- The parser is at the place of its token at hand as a parser that starts there. -/
structure Stands (text : List Char) (p : Parser) : Prop where
  position_le : p.current.position ≤ text.length
  at_stream : p.At (Cursor.mk (text.drop p.current.position) p.current.position).stream

theorem At.stands {c : Cursor} (h : p.At c.stream) (hc : c.In text) : p.Stands text := by
  unfold At at h
  rw [Cursor.next_stream] at h
  cases hr : c.read with
  | error f c' => rw [hr] at h; cases h
  | ok t c' =>
    rw [hr] at h
    obtain ⟨ht, ha⟩ := EStateM.Result.ok.inj h
    have hpos := Cursor.position_of_read hr
    rw [ht] at hpos
    have hcursor : Cursor.mk (text.drop p.current.position) p.current.position =
        c.skipBlanks := by
      rw [hpos, ← hc.skipBlanks.rest_eq]
    refine ⟨hpos ▸ hc.skipBlanks.position_le, ?_⟩
    rw [hcursor, Cursor.stream_skipBlanks]
    unfold At
    rw [Cursor.next_stream, hr]
    exact h

theorem Stands.advance (h : p.Stands text) (ha : advance p = .ok () q) : q.Stands text := by
  have hat := h.at_stream
  unfold At at hat
  rw [Cursor.next_stream] at hat
  cases hr : (Cursor.mk (text.drop p.current.position) p.current.position).read with
  | error f c' => rw [hr] at hat; cases hat
  | ok t c' =>
    rw [hr] at hat
    obtain ⟨-, hahead⟩ := EStateM.Result.ok.inj hat
    have hq := (advance_eq_ok.mp ha).1
    rw [← hahead] at hq
    exact hq.stands ((Cursor.In.mk rfl h.position_le).read hr)

/-- The parser stands in the text, or it did and lost the text of an identifier that it cannot
pass. -/
def Rests (text : List Char) (p : Parser) : Prop :=
  p.Stands text ∨
    ∃ (r : Parser) (g : LexFault), r.Stands text ∧ r.current.kind = .identifier ∧
      r.ahead = ⟨[], .error g⟩ ∧ p = r.emptied

/-! ## What calls keep -/

variable {P : Parser → Prop}

/-- Reading on keeps the property, and so does another count of open groups. -/
structure Kept (P : Parser → Prop) : Prop where
  nesting : ∀ {p : Parser} (n : Nat), P p → P { p with nesting := n }
  advance : ∀ {p q : Parser}, P p → Parser.advance p = .ok () q → P q

theorem Kept.passes (hP : Kept P) (h : P p) (hp : Passes p ts q) : P q := by
  induction hp with
  | nil p => exact h
  | cons ha hp ih => exact ih (hP.advance h ha)

theorem kept_stands (text : List Char) : Kept (Stands text) where
  nesting _ h := ⟨h.position_le, h.at_stream⟩
  advance h ha := h.advance ha

/-- The property holds of the parser, or of one that then lost the text of an identifier that it
cannot pass. -/
def Nearly (P : Parser → Prop) (p : Parser) : Prop :=
  P p ∨ ∃ (r : Parser) (g : LexFault), P r ∧ r.current.kind = .identifier ∧
    r.ahead = ⟨[], .error g⟩ ∧ p = r.emptied

/-- A parser that reads a statement has lost nothing. -/
theorem Nearly.of_answer {t : Tree} (h : Nearly P p) (ha : p.answer = .ok t) : P p := by
  rcases h with h | ⟨r, g, -, hk, hg, rfl⟩
  · exact h
  · rw [answer_of_stuck (p := r.emptied) hk hg] at ha
    cases ha

/-- A parser with a foreign character behind its token does not move. -/
theorem Passes.eq_of_stuck {g : LexFault} (h : Passes p ts q) (hg : p.ahead = ⟨[], .error g⟩) :
    ts = [] ∧ q = p := by
  cases h with
  | nil p => exact ⟨rfl, rfl⟩
  | cons ha h =>
    have hat := (advance_eq_ok.mp ha).1
    rw [hg] at hat
    cases hat

theorem Nearly.of_nesting (hP : Kept P) (h : Nearly P p) (n : Nat) :
    Nearly P { p with nesting := n } := by
  rcases h with h | ⟨r, g, h, hk, hg, rfl⟩
  · exact .inl (hP.nesting n h)
  · exact .inr ⟨{ r with nesting := n }, g, hP.nesting n h, hk, hg, rfl⟩

theorem Nearly.passes (hP : Kept P) (h : Nearly P p) (hp : Passes p ts q) : Nearly P q := by
  rcases h with h | ⟨r, g, h, hk, hg, rfl⟩
  · exact .inl (hP.passes h hp)
  · obtain ⟨-, rfl⟩ := hp.eq_of_stuck hg
    exact .inr ⟨r, g, h, hk, hg, rfl⟩

theorem Nearly.emptied {g : LexFault} (h : Nearly P p) (hk : p.current.kind = .identifier)
    (hg : p.ahead = ⟨[], .error g⟩) : Nearly P p.emptied := by
  rcases h with h | ⟨r, g', h, hk', hg', rfl⟩
  · exact .inr ⟨p, g, h, hk, hg, rfl⟩
  · exact .inr ⟨r, g', h, hk', hg', rfl⟩

theorem Nearly.leaves {f : Fault} (hP : Kept P) (h : Nearly P p) (hl : Leaves p ts f q) :
    Nearly P q := by
  cases hl with
  | whole n hp => exact (h.passes hP hp).of_nesting hP n
  | emptied n hp hk hg => exact ((h.passes hP hp).emptied hk hg).of_nesting hP n

/-- A call goes over the tokens of a statement, or fails within one. -/
theorem call_cases (hn : p.nesting ≤ maxDepth) :
    (∃ t ts q, p.call = (.ok t, q) ∧ Passes p ts q) ∨
      ∃ f ts q, p.call = (.error f, q) ∧ StatementFails p ts f q := by
  cases hs : statement p with
  | ok t q =>
    obtain ⟨ts, name, e, -, -, hp, -, -⟩ := statement_reads hs
    exact .inl ⟨t, ts, q, call_of_ok hs, hp⟩
  | error f q =>
    obtain ⟨ts, hf⟩ := statement_fails hn hs
    exact .inr ⟨f, ts, q, call_of_error hs, hf⟩

/-- One call keeps the property but for the text of an identifier, and the count within the
limit. -/
theorem Nearly.call (hP : Kept P) (h : Nearly P p) (hn : p.nesting ≤ maxDepth) :
    Nearly P p.call.2 ∧ p.call.2.nesting ≤ maxDepth := by
  rcases call_cases hn with ⟨t, ts, q, hcall, hp⟩ | ⟨f, ts, q, hcall, hf⟩
  · rw [hcall]
    exact ⟨h.passes hP hp, hp.nesting_eq ▸ hn⟩
  · rw [hcall]
    exact ⟨h.leaves hP hf.leaves, hf.nesting_le hn⟩

/-- Any number of calls does, by induction on that number. -/
theorem nearly_after (hP : Kept P) (h : P p) (hn : p.nesting ≤ maxDepth) (n : Nat) :
    Nearly P (p.after n) ∧ (p.after n).nesting ≤ maxDepth := by
  induction n with
  | zero => exact ⟨.inl h, hn⟩
  | succ n ih => exact ih.1.call hP ih.2

end Parser

namespace Scanner

variable {text : List Char} {s : Scanner}

/-- A step leaves the cursor where it is or reads on with it. -/
theorem cursor_step (s : Scanner) (a : Step) :
    (s.step a).cursor = s.cursor ∨ (∃ t, s.cursor.read = .ok t (s.step a).cursor) ∨
      ∃ f, s.cursor.read = .error f (s.step a).cursor := by
  cases a with
  | read =>
    simp only [step, read]
    cases hr : s.cursor.read with
    | ok t c => exact .inr (.inl ⟨t, rfl⟩)
    | error f c => exact .inr (.inr ⟨f, rfl⟩)
  | next =>
    simp only [step, next?]
    split
    · exact .inl rfl
    · cases hr : s.cursor.read with
      | ok t c => exact .inr (.inl ⟨t, by dsimp only; split <;> rfl⟩)
      | error f c => exact .inr (.inr ⟨f, rfl⟩)

theorem cursor_in_step (h : s.cursor.In text) (a : Step) : (s.step a).cursor.In text := by
  rcases s.cursor_step a with heq | ⟨t, hr⟩ | ⟨f, hr⟩
  · rw [heq]; exact h
  · exact h.read hr
  · rw [Cursor.read_eq_error hr]; exact h.skipBlanks

/-- No step leads out of the text. -/
theorem cursor_in_after (h : s.cursor.In text) (steps : List Step) :
    (s.after steps).cursor.In text := by
  induction steps generalizing s with
  | nil => exact h
  | cons a steps ih => exact ih (cursor_in_step h a)

theorem cursor_in_ofString (text : String) : (ofString text).cursor.In text.toList :=
  ⟨rfl, Nat.zero_le _⟩

end Scanner

/-- Over its whole lifetime a parser stays in the text, and its count within the limit. -/
theorem Parser.rests_after {text : String} {steps : List Scanner.Step} {p : Parser}
    (h : ((Scanner.ofString text).after steps).parser = .ok p) (n : Nat) :
    (p.after n).Rests text.toList ∧ (p.after n).nesting ≤ maxDepth := by
  obtain ⟨hat, hn⟩ := start_eq_ok.mp h
  have hin := Scanner.cursor_in_after (Scanner.cursor_in_ofString text) steps
  exact nearly_after (kept_stands _) (hat.stands hin) (hn ▸ Nat.zero_le _) n

end Reckon
