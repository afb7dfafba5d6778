import Mathlib.Control.Monad.Basic
import Reckon.Proofs.Foreign
import Reckon.Proofs.Restart
import Reckon.Proofs.Tiling

/-!
  The tokens of two texts, one behind the other. They are the tokens of the first text and then
  those of the second, further on by the length of the first, unless the boundary goes through a
  word or a number (`Fuses`). Blanks, marks and foreign characters at the boundary do no harm, and
  neither does a number in front of a letter.

  A lexical fault is kept wherever the boundary goes. That of the first text comes first, and that
  of the second is met because the first text has none, also if a word reaches over the boundary.
-/

namespace Reckon

/-- The boundary of the two texts goes through a word or a number: the last token of the first text
ends with the text, and the second text begins with a character that makes it longer. -/
def Fuses (a b : String) (ts : List Token) : Prop :=
  ∃ t ∈ ts.getLast?, t.stop = a.length ∧ ∃ c ∈ b.toList.head?,
    t.kind = .identifier ∧ (isLetter c = true ∨ isDigit c = true) ∨
      t.kind = .number ∧ isDigit c = true

section

variable {a b : String} {f : LexFault} {t : Token} {ts us : List Token}

/-- A token ends before characters of which the first does not go on with it. -/
theorem Token.Kind.endsBefore_iff (k : Token.Kind) (cs : List Char) :
    k.EndsBefore cs ↔ ∀ c ∈ cs.head?,
      ¬(k = .identifier ∧ (isLetter c = true ∨ isDigit c = true) ∨
        k = .number ∧ isDigit c = true) := by
  unfold EndsBefore Cursor.Ends isWordPart
  cases k <;> simp

theorem not_fuses_iff : ¬Fuses a b ts ↔ EndBefore ts a.length b.toList := by
  simp only [Fuses, EndBefore, Token.Kind.endsBefore_iff, not_exists, not_and]

/-! ## Faults -/

/-- What is behind the first foreign character makes no difference to the fault. -/
theorem tokenize_append_of_error (h : tokenize a = .error f) : tokenize (a ++ b) = .error f := by
  rw [tokenize_eq_error_iff_endsAs] at h ⊢
  obtain ⟨clean, tail, ha, hclean, hf, hp⟩ := h
  refine ⟨clean, tail ++ b.toList, ?_, hclean, hf, hp⟩
  rw [String.toList_append, ha, List.append_assoc, List.cons_append]

/-- A text that is read to its end holds no foreign character. -/
theorem not_foreign_of_tokenize (h : tokenize a = .ok ts) :
    ∀ c ∈ a.toList, isForeign c = false := by
  have hrow := (tokenize_eq_ok_iff_spells.mp h).stream_eq
  have hends := (Cursor.ofString a).endsAs
  rw [Cursor.ofString, hrow] at hends
  exact hends.2

/-- The fault of a text, counted from the start of another text in front of it. -/
theorem endsAs_shift (h : tokenize b = .error f) (k : Nat) :
    EndsAs k b.toList (.error (f.shift k)) := by
  have hends := (Cursor.mk b.toList (0 + k)).endsAs
  rw [Cursor.stream_shift, TokenStream.shift, ← Cursor.ofString, tokenize_eq_error.mp h,
    Nat.zero_add] at hends
  exact hends

theorem tokenize_append_of_ok_of_error (ha : tokenize a = .ok ts) (hb : tokenize b = .error f) :
    tokenize (a ++ b) = .error (f.shift a.length) := by
  rw [tokenize_eq_error_iff_endsAs, String.toList_append]
  refine EndsAs.append ?_ (not_foreign_of_tokenize ha)
  rw [Nat.zero_add, String.length_toList]
  exact endsAs_shift hb a.length

/-! ## Tokens -/

/-- Where no token reaches over the boundary, the first text is read up to it. -/
theorem stream_append_of_not_fuses (h : tokenize a = .ok ts) (hf : ¬Fuses a b ts) :
    (Cursor.ofString (a ++ b)).stream =
      ((Cursor.ofString b).stream.shift a.length).prepend ts := by
  have hrow := tokenize_eq_ok_iff_spells.mp h
  have hends : EndBefore ts (0 + a.toList.length) b.toList := by
    rw [Nat.zero_add, String.length_toList]
    exact not_fuses_iff.mp hf
  have hscan := hrow.scans_append hends
  rw [Cursor.ofString, String.toList_append, hscan, String.length_toList, Cursor.stream_shift]
  rfl

/-- The tokens of a text in front of another one are as long as they can, so none of them goes on
behind the boundary. -/
theorem not_fuses_of_tokenize_append (h : tokenize (a ++ b) = .ok (ts ++ us)) :
    ¬Fuses a b ts := by
  have htiles : Tiles (a ++ b).toList 0 (ts ++ us) :=
    (tokenize_eq_ok_iff_spells.mp h).tiles rfl (Nat.zero_le _)
  rw [not_fuses_iff]
  intro t ht hstop
  have hmem : t ∈ ts ++ us := List.mem_append_left us (List.mem_of_getLast? ht)
  have hmaximal := htiles.maximal t hmem
  rwa [hstop, String.toList_append, ← String.length_toList, List.drop_left] at hmaximal

end

/-- A text with a lexical fault has the same fault whatever is put behind it. Behind a text without
one, the lexical fault of another text stays, further on by the length of the first; and if there
is none either, the tokens are those of the first text and then those of the second, further on by
that length, exactly if no word or number reaches over the boundary. -/
theorem tokenize_append (a b : String) :
    (∀ f, tokenize a = .error f → tokenize (a ++ b) = .error f) ∧
    ∀ ts, tokenize a = .ok ts →
      (∀ f, tokenize b = .error f → tokenize (a ++ b) = .error (f.shift a.length)) ∧
      ∀ us, tokenize b = .ok us →
        (tokenize (a ++ b) = .ok (ts ++ us.map (Token.shift a.length)) ↔ ¬Fuses a b ts) := by
  refine ⟨fun f => tokenize_append_of_error, fun ts ha =>
    ⟨fun f => tokenize_append_of_ok_of_error ha, fun us hb =>
      ⟨not_fuses_of_tokenize_append, fun hf => ?_⟩⟩⟩
  have hstream : (Cursor.ofString b).stream = ⟨us, .ok (0 + b.toList.length)⟩ :=
    (tokenize_eq_ok_iff_spells.mp hb).stream_eq
  rw [tokenize, stream_append_of_not_fuses ha hf, hstream]
  rfl

/-- A number in front of a letter, a word in front of a digit, and a foreign character behind the
boundary. -/
theorem tokenize_append_number_letter :
    tokenize (" x = 12" ++ "ab ;") = .ok ([⟨.identifier, "x", 1⟩, ⟨.equals, "=", 3⟩,
      ⟨.number, "12", 5⟩] ++ [⟨.identifier, "ab", 0⟩, ⟨.semicolon, ";", 3⟩].map (Token.shift 7)) ∧
    Fuses "ab" "12" [⟨.identifier, "ab", 0⟩] ∧
    tokenize ("ab" ++ "12") ≠ .ok ([⟨.identifier, "ab", 0⟩] ++
      [⟨.number, "12", 0⟩].map (Token.shift 2)) ∧
    tokenize ("ab" ++ "12 $") = .error ⟨'$', 5⟩ := by
  have hfirst : tokenize " x = 12" =
      .ok [⟨.identifier, "x", 1⟩, ⟨.equals, "=", 3⟩, ⟨.number, "12", 5⟩] := by decide +kernel
  have hsecond : tokenize "ab ;" = .ok [⟨.identifier, "ab", 0⟩, ⟨.semicolon, ";", 3⟩] := by
    decide +kernel
  have hword : tokenize "ab" = .ok [⟨.identifier, "ab", 0⟩] := by decide +kernel
  have hnumber : tokenize "12" = .ok [⟨.number, "12", 0⟩] := by decide +kernel
  have hparted : ¬Fuses " x = 12" "ab ;"
      [⟨.identifier, "x", 1⟩, ⟨.equals, "=", 3⟩, ⟨.number, "12", 5⟩] := by
    rw [not_fuses_iff]
    intro t ht _
    rw [← Option.some.inj ht]
    exact ⟨by simp, fun _ => Cursor.ends_cons (by decide) _⟩
  have hfuses : Fuses "ab" "12" [⟨.identifier, "ab", 0⟩] :=
    ⟨_, rfl, by decide, '1', by decide, .inl ⟨rfl, .inr (by decide)⟩⟩
  refine ⟨?_, hfuses, fun h => ?_, ?_⟩
  · exact (((tokenize_append _ _).2 _ hfirst).2 _ hsecond).mpr hparted
  · exact (((tokenize_append _ _).2 _ hword).2 _ hnumber).mp h hfuses
  · exact ((tokenize_append "ab" "12 $").2 _ hword).1 ⟨'$', 3⟩ (by decide +kernel)

end Reckon
