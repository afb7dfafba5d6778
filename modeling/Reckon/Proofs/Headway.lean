import Mathlib.Control.Monad.Basic
import Reckon.Proofs.Progress

/-!
  How often a parser can usefully be asked. A call passes at least one token, or it does not move
  the parser, which is then stuck with one fault for good (`call_cases_remaining`). There are two
  ways to be stuck: a token that begins no statement is at hand and stays there as it is, or an
  identifier with a foreign character behind it, of which only the text is lost.

  So a parser with `n` tokens left is stuck after `n` calls at the latest (`settled_after`), and as
  a statement has at least four tokens it reads at most a fourth of `n` statements
  (`four_mul_countP_add_remaining_le`).
-/

namespace Reckon

/-! ## What a statement takes -/

/-- A statement has a name, an equals sign, an expression and a semicolon. -/
theorem Statement.four_le_length {ts : List Token} {name : String} {e : Tree}
    (h : Statement ts name e) : 4 ≤ ts.length := by
  cases h with
  | assign hx hq he hs =>
    have hpos := he.length_pos
    simp only [List.length_cons, List.length_append, List.length_nil]
    omega

/-- How many tokens are ahead of a scanner, before the text ends or a foreign character comes. -/
def Scanner.tokensAhead (s : Scanner) : Nat := s.cursor.stream.tokens.length

namespace Parser

variable {p q : Parser} {f : Fault}

/-! ## Calls in a row -/

theorem after_add (p : Parser) (m n : Nat) : p.after (m + n) = (p.after m).after n := by
  induction n with
  | zero => rfl
  | succ n ih => exact congrArg (fun q : Parser => q.call.2) ih

/-- The calls after the first are those of the parser that it leaves. -/
theorem after_succ (p : Parser) (n : Nat) : p.after (n + 1) = p.call.2.after n := by
  rw [Nat.add_comm, after_add]
  rfl

/-- A parser that a call leaves as it was stays as it is. -/
theorem after_of_call_eq (h : p.call.2 = p) (n : Nat) : p.after n = p := by
  induction n with
  | zero => rfl
  | succ n ih => rw [after_succ, h, ih]

/-! ## Being stuck -/

/-- Every call has this fault. -/
def Stuck (f : Fault) (p : Parser) : Prop := ∀ n, (p.after n).answer = .error f

/-- The parser has not moved, but perhaps lost the text of the identifier at hand. -/
def Stays (p q : Parser) : Prop :=
  q = p ∨ p.current.kind = .identifier ∧ q = p.emptied

theorem Stuck.after (h : Stuck f p) (k : Nat) : Stuck f (p.after k) := by
  intro n
  rw [← after_add]
  exact h (k + n)

/-- A parser that fails and is left as it was is stuck. -/
theorem stuck_of_call_eq (hf : p.answer = .error f) (h : p.call.2 = p) : Stuck f p := by
  intro n
  rw [after_of_call_eq h]
  exact hf

/-- An identifier with a foreign character behind it cannot be passed, with its text or without. -/
theorem stuck_of_foreign {g : LexFault} (hk : p.current.kind = .identifier)
    (hg : p.ahead = ⟨[], .error g⟩) : Stuck (.lexical g) p := by
  have hcall : ∀ {r : Parser}, r.current.kind = .identifier → r.ahead = ⟨[], .error g⟩ →
      r.call.2 = r.emptied := by
    intro r hk hg
    have ha : advance r.emptied = .error (.lexical g) r.emptied :=
      advance_eq_error.mpr ⟨g, hg, rfl, rfl⟩
    have htarget := target_eq_error.mpr (.inr ⟨hk, ha⟩)
    exact congrArg Prod.snd (call_of_error (statement_eq_error.mpr (.inl htarget)))
  -- the first call takes the text, and the others find none to take
  have hstuck : Stuck (.lexical g) p.emptied :=
    stuck_of_call_eq (answer_of_stuck (p := p.emptied) hk hg) (hcall (r := p.emptied) hk hg)
  intro n
  cases n with
  | zero => exact answer_of_stuck hk hg
  | succ n =>
    rw [after_succ, hcall hk hg]
    exact hstuck n

/-! ## One call -/

/-- A call that reads a statement passes four tokens or more. -/
theorem remaining_call_of_ok {t : Tree} (h : p.answer = .ok t) :
    p.call.2.remaining + 4 ≤ p.remaining := by
  obtain ⟨q, hq⟩ := answer_eq_ok_iff.mp h
  obtain ⟨ts, name, e, -, hst, hp, -, -⟩ := statement_reads hq
  have hlen := hst.four_le_length
  have hle := hp.remaining_add_le hst.kind_ne_ending
  rw [call_of_ok hq]
  simp only
  omega

/-- A failure that passes no token leaves the parser stuck with it. -/
theorem StatementFails.stuck (h : StatementFails p [] f q) (hs : statement p = .error f q) :
    Stays p q ∧ Stuck f p := by
  cases h with
  | name hk =>
    have hcall := congrArg Prod.snd (call_of_error hs)
    exact ⟨.inl rfl, stuck_of_call_eq (answer_eq_error_iff.mpr ⟨_, hs⟩) hcall⟩
  | target hk hg => exact ⟨.inr ⟨hk, rfl⟩, stuck_of_foreign hk hg⟩

/-- A call passes a token, or it does not move the parser, which is stuck then. -/
theorem call_cases_remaining (hn : p.nesting ≤ maxDepth) :
    p.call.2.remaining < p.remaining ∨ Stays p p.call.2 ∧ ∃ f, Stuck f p := by
  cases hs : statement p with
  | ok t q =>
    have hle := remaining_call_of_ok (answer_eq_ok_iff.mpr ⟨q, hs⟩)
    exact .inl (by omega)
  | error f q =>
    obtain ⟨ts, hf⟩ := statement_fails hn hs
    have hle := hf.leaves.remaining_add_le hf.kind_ne_ending
    rw [call_of_error hs]
    cases ts with
    | nil =>
      obtain ⟨hstays, hstuck⟩ := hf.stuck hs
      exact .inr ⟨hstays, f, hstuck⟩
    | cons t ts =>
      rw [List.length_cons] at hle
      exact .inl (by simp only; omega)

/-! ## Any number of calls -/

/-- After so many calls the parser is stuck, or each of them has passed a token. -/
theorem settled_after (hn : ∀ k, (p.after k).nesting ≤ maxDepth) (k : Nat) :
    (∃ f, Stuck f (p.after k)) ∨ (p.after k).remaining + k ≤ p.remaining := by
  induction k with
  | zero => exact .inr (Nat.le_refl _)
  | succ k ih =>
    rcases ih with ⟨f, hf⟩ | hle
    · exact .inl ⟨f, hf.after 1⟩
    · rcases call_cases_remaining (hn k) with hlt | ⟨-, f, hf⟩
      · right
        change (p.after (k + 1)).remaining < _ at hlt
        omega
      · exact .inl ⟨f, hf.after 1⟩

/-- When no token is left the parser is stuck. -/
theorem stuck_after_remaining (hn : ∀ k, (p.after k).nesting ≤ maxDepth) :
    ∃ f, Stuck f (p.after p.remaining) := by
  rcases settled_after hn p.remaining with hf | hle
  · exact hf
  · rcases call_cases_remaining (hn p.remaining) with hlt | ⟨-, hf⟩
    · omega
    · exact hf

/-- Each statement that was read has taken four of the tokens. -/
theorem four_mul_countP_add_remaining_le (hn : ∀ k, (p.after k).nesting ≤ maxDepth) (calls : Nat) :
    4 * (List.range calls).countP (fun k => (p.after k).answer.isOk) + (p.after calls).remaining ≤
      p.remaining := by
  induction calls with
  | zero => exact Nat.le_of_eq (Nat.zero_add _)
  | succ k ih =>
    rw [List.range_succ, List.countP_append, List.countP_singleton]
    change _ + (p.after k).call.2.remaining ≤ _
    cases ha : (p.after k).answer with
    | ok t =>
      have hle := remaining_call_of_ok ha
      rw [if_pos (show (Except.ok t : Except Fault Tree).isOk = true from rfl)]
      omega
    | error f =>
      have hle := remaining_call_le (hn k)
      rw [if_neg (show ¬(Except.error f : Except Fault Tree).isOk = true from Bool.false_ne_true)]
      omega

/-- Each call of a parser passes at least one token, or leaves the token at hand where it is, but
perhaps without the text of an identifier, and then this call and all later ones have one and the
same fault. If `n` tokens are ahead when the parser takes over, all calls behind the first `n` have
one fault, and of any number of calls no more than a fourth of `n` read a statement. -/
theorem headway_of_lifetime (text : String) (steps : List Scanner.Step) (p : Parser)
    (h : ((Scanner.ofString text).after steps).parser = .ok p) :
    p.remaining = ((Scanner.ofString text).after steps).tokensAhead ∧
    (∀ k, (p.after (k + 1)).remaining < (p.after k).remaining ∨
      Stays (p.after k) (p.after (k + 1)) ∧ ∃ f, ∀ j, k ≤ j → (p.after j).answer = .error f) ∧
    (∃ f, ∀ j, ((Scanner.ofString text).after steps).tokensAhead ≤ j →
      (p.after j).answer = .error f) ∧
    ∀ calls, (List.range calls).countP (fun j => (p.after j).answer.isOk) ≤
      ((Scanner.ofString text).after steps).tokensAhead / 4 := by
  have hn : ∀ k, (p.after k).nesting ≤ maxDepth := fun k => (rests_after h k).2
  have hremaining : ((Scanner.ofString text).after steps).tokensAhead = p.remaining :=
    (start_eq_ok.mp h).1.length_eq_remaining fun t ht =>
      (Cursor.wellSpelt_of_mem_stream _ ht).kind_ne_ending
  have hlater : ∀ {k f}, Stuck f (p.after k) → ∀ j, k ≤ j → (p.after j).answer = .error f := by
    intro k f hf j hj
    obtain ⟨i, rfl⟩ := Nat.exists_eq_add_of_le hj
    rw [after_add]
    exact hf i
  rw [hremaining]
  refine ⟨rfl, fun k => ?_, ?_, fun calls => ?_⟩
  · exact (call_cases_remaining (hn k)).imp_right fun ⟨hs, f, hf⟩ => ⟨hs, f, hlater hf⟩
  · obtain ⟨f, hf⟩ := stuck_after_remaining hn
    exact ⟨f, hlater hf⟩
  · have hle := four_mul_countP_add_remaining_le hn calls
    omega

/-- Of nine tokens the first call takes four and the second, which fails, four more. The last one
stays, with a foreign character behind it: its text is lost and nothing else happens any more. -/
theorem headway_of_lifetime_emptied :
    ∃ p, ((Scanner.ofString "; x = 1; y = (2 z é").after [.read]).parser = .ok p ∧
      (p.after 0).answer = .ok (.assign "x" (.number 1)) ∧
      (p.after 2).remaining = 1 ∧ Stays (p.after 2) (p.after 3) ∧
      (∀ j, 2 ≤ j → (p.after j).answer = .error (.lexical ⟨'é', 18⟩)) ∧
      ∀ calls, (List.range calls).countP (fun j => (p.after j).answer.isOk) ≤ 2 := by
  have hrun : ∃ p, ((Scanner.ofString "; x = 1; y = (2 z é").after [.read]).parser = .ok p ∧
      (p.after 0).answer = .ok (.assign "x" (.number 1)) ∧
      (p.after 2).answer = .error (.lexical ⟨'é', 18⟩) ∧ (p.after 2).remaining = 1 ∧
      (p.after 3).remaining = 1 := by
    have hcheck : (((Scanner.ofString "; x = 1; y = (2 z é").after [.read]).parser.map
        fun p => ((p.after 0).answer, (p.after 2).answer, (p.after 2).remaining,
          (p.after 3).remaining)) =
        .ok (.ok (.assign "x" (.number 1)), .error (.lexical ⟨'é', 18⟩), 1, 1) := by
      decide +kernel
    obtain ⟨p, hp, hafter⟩ := exists_of_map_eq_ok hcheck
    simp only [Prod.mk.injEq] at hafter
    exact ⟨p, hp, hafter⟩
  obtain ⟨p, hp, hfirst, hthird, htwo, hthree⟩ := hrun
  obtain ⟨-, hcalls, -, hcount⟩ := headway_of_lifetime "; x = 1; y = (2 z é" [.read] p hp
  have hnine : ((Scanner.ofString "; x = 1; y = (2 z é").after [.read]).tokensAhead = 9 := by
    decide +kernel
  rw [hnine] at hcount
  rcases hcalls 2 with hlt | ⟨hstays, f, hf⟩
  · rw [htwo, hthree] at hlt
    exact absurd hlt (Nat.lt_irrefl 1)
  · have hfault : f = .lexical ⟨'é', 18⟩ := by
      have heq := (hf 2 (Nat.le_refl 2)).symm.trans hthird
      exact Except.error.inj heq
    exact ⟨p, hp, hfirst, htwo, hstays, hfault ▸ hf, hcount⟩

end Parser

end Reckon
