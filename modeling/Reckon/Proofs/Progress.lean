import Reckon.Proofs.Lifetime

/-!
  How far scanners and parsers have come in a text. What a scanner has still to read is a tail of
  the stream of the whole text (`TokenStream.TailOf`): a step takes its first token off, or changes
  nothing at its end. A parser is on that stream (`Parser.On`) if it stands at the start of a tail;
  its token at hand is then a token of the text or the end of it. `Parser.on_after` says that this
  is so over its whole lifetime, but for the text of an identifier in front of a foreign character.

  `Parser.remaining` counts the tokens from the one at hand on. No call makes it greater, and it
  tells where in the stream the parser is (`Parser.drop_eq_of_at`).
-/

namespace Reckon

/-! ## Tails of a stream -/

namespace TokenStream

variable {r s u : TokenStream} {t : Token}

/-- What is left of a stream behind some of its tokens. -/
structure TailOf (r s : TokenStream) : Prop where
  tokens : r.tokens <:+ s.tokens
  ending : r.ending = s.ending

theorem TailOf.refl (s : TokenStream) : s.TailOf s := ⟨List.suffix_refl _, rfl⟩

theorem TailOf.trans (h : r.TailOf s) (h' : s.TailOf u) : r.TailOf u :=
  ⟨h.tokens.trans h'.tokens, h.ending.trans h'.ending⟩

theorem tailOf_of_next (h : s.next = .ok t r) : r.TailOf s := by
  rcases next_eq_ok.mp h with rfl | ⟨n, -, -, rfl⟩
  · exact ⟨List.suffix_cons t r.tokens, rfl⟩
  · exact .refl r

theorem mem_of_next (h : s.next = .ok t r) :
    t ∈ s.tokens ∨ ∃ n, s.ending = .ok n ∧ t = .ending n := by
  rcases next_eq_ok.mp h with rfl | ⟨n, rfl, ht, -⟩
  · exact .inl List.mem_cons_self
  · exact .inr ⟨n, rfl, ht⟩

end TokenStream

/-! ## Scanners -/

theorem Cursor.tailOf_of_read_ok {c c' : Cursor} {t : Token} (h : c.read = .ok t c') :
    c'.stream.TailOf c.stream := by
  have hnext := c.next_stream
  rw [h] at hnext
  exact TokenStream.tailOf_of_next hnext

theorem Cursor.stream_of_read_error {c c' : Cursor} {f : LexFault} (h : c.read = .error f c') :
    c.stream = ⟨[], .error f⟩ ∧ c'.stream = c.stream := by
  rw [read_eq_error h, stream_skipBlanks]
  exact ⟨by rw [stream_eq, h], rfl⟩

namespace Scanner

theorem tailOf_step (s : Scanner) (a : Step) :
    (s.step a).cursor.stream.TailOf s.cursor.stream := by
  rcases s.cursor_step a with heq | ⟨t, hr⟩ | ⟨f, hr⟩
  · rw [heq]
    exact .refl _
  · exact Cursor.tailOf_of_read_ok hr
  · rw [(Cursor.stream_of_read_error hr).2]
    exact .refl _

/-- Any steps leave a tail of the stream. -/
theorem tailOf_after (s : Scanner) (steps : List Step) :
    (s.after steps).cursor.stream.TailOf s.cursor.stream := by
  induction steps generalizing s with
  | nil => exact .refl _
  | cons a steps ih => exact (ih (s.step a)).trans (s.tailOf_step a)

end Scanner

/-! ## Parsers -/

namespace Parser

variable {p q r : Parser} {s : TokenStream} {ts : List Token}

/-- The parser stands at the start of a tail of the stream. -/
def On (s : TokenStream) (p : Parser) : Prop := ∃ r : TokenStream, r.TailOf s ∧ p.At r

theorem kept_on (s : TokenStream) : Kept (On s) where
  nesting _ h := h
  advance := by
    rintro p q ⟨r, hr, hp⟩ ha
    exact ⟨p.ahead, (TokenStream.tailOf_of_next hp).trans hr, (advance_eq_ok.mp ha).1⟩

theorem On.current_cases (h : p.On s) :
    p.current ∈ s.tokens ∨ ∃ n, s.ending = .ok n ∧ p.current = .ending n := by
  obtain ⟨r, hr, hp⟩ := h
  rcases TokenStream.mem_of_next hp with hc | ⟨n, hn, hc⟩
  · exact .inl (hr.tokens.mem hc)
  · exact .inr ⟨n, hr.ending ▸ hn, hc⟩

theorem On.ending_ahead (h : p.On s) : p.ahead.ending = s.ending := by
  obtain ⟨r, hr, hp⟩ := h
  exact ((TokenStream.tailOf_of_next hp).trans hr).ending

/-- Over its whole lifetime a parser is on the stream of the text, but perhaps for the text of its
token at hand. -/
theorem on_after {text : String} {steps : List Scanner.Step} {p : Parser}
    (h : ((Scanner.ofString text).after steps).parser = .ok p) (n : Nat) :
    Nearly (On (Cursor.ofString text).stream) (p.after n) ∧ (p.after n).nesting ≤ maxDepth := by
  obtain ⟨hat, hn⟩ := start_eq_ok.mp h
  have htail := (Scanner.ofString text).tailOf_after steps
  exact nearly_after (kept_on _) ⟨_, htail, hat⟩ (hn ▸ Nat.zero_le _) n

/-! ## The tokens left -/

/-- How many tokens are left, the one at hand included. -/
def remaining (p : Parser) : Nat :=
  (if p.current.kind = .ending then 0 else 1) + p.ahead.tokens.length

/-- From a parser at its start a stream has as many tokens as the parser has left. -/
theorem At.length_eq_remaining (h : p.At s) (hs : ∀ t ∈ s.tokens, t.kind ≠ .ending) :
    s.tokens.length = p.remaining := by
  unfold remaining
  rcases TokenStream.next_eq_ok.mp h with rfl | ⟨n, rfl, hc, ha⟩
  · rw [if_neg (hs _ List.mem_cons_self), TokenStream.cons, List.length_cons, Nat.add_comm]
  · rw [hc, ha]
    rfl

/-- The tokens left are the tail of the stream that has their number. -/
theorem drop_eq_of_at {r : TokenStream} (hr : r.TailOf s) (h : p.At r)
    (hs : ∀ t ∈ s.tokens, t.kind ≠ .ending) :
    s.tokens.drop (s.tokens.length - p.remaining) = r.tokens := by
  rw [← h.length_eq_remaining fun t ht => hs t (hr.tokens.mem ht)]
  exact (List.suffix_iff_eq_drop.mp hr.tokens).symm

/-- Going past a token leaves fewer. -/
theorem remaining_advance_lt (hk : p.current.kind ≠ .ending) (ha : advance p = .ok () q) :
    q.remaining < p.remaining := by
  have hq := (advance_eq_ok.mp ha).1
  unfold remaining
  rw [if_neg hk]
  rcases TokenStream.next_eq_ok.mp hq with hp | ⟨n, hp, hc, hq⟩
  · rw [hp, TokenStream.cons, List.length_cons]
    split <;> omega
  · rw [hc, hq, hp]
    exact Nat.one_pos

theorem Passes.remaining_add_le (h : Passes p ts q) (hts : ∀ t ∈ ts, t.kind ≠ .ending) :
    q.remaining + ts.length ≤ p.remaining := by
  induction h with
  | nil p => exact Nat.le_refl _
  | cons ha h ih =>
    rw [List.forall_mem_cons] at hts
    have hlt := remaining_advance_lt hts.1 ha
    have hle := ih hts.2
    rw [List.length_cons]
    omega

theorem Leaves.remaining_add_le {f : Fault} (h : Leaves p ts f q)
    (hts : ∀ t ∈ ts, t.kind ≠ .ending) : q.remaining + ts.length ≤ p.remaining := by
  obtain ⟨r, hp, hkind, hahead⟩ := h.exists_passes
  have hrest : q.remaining = r.remaining := by rw [remaining, remaining, hkind, hahead]
  rw [hrest]
  exact hp.remaining_add_le hts

/-- No call goes back. -/
theorem remaining_call_le (hn : p.nesting ≤ maxDepth) : p.call.2.remaining ≤ p.remaining := by
  cases hs : statement p with
  | ok t q =>
    obtain ⟨ts, name, e, -, hst, hp, -, -⟩ := statement_reads hs
    rw [call_of_ok hs]
    exact Nat.le_of_add_right_le (hp.remaining_add_le hst.kind_ne_ending)
  | error f q =>
    obtain ⟨ts, hf⟩ := statement_fails hn hs
    rw [call_of_error hs]
    exact Nat.le_of_add_right_le (hf.leaves.remaining_add_le hf.kind_ne_ending)

end Parser

end Reckon
