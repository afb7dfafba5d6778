import Mathlib.Control.Monad.Basic
import Reckon.Proofs.Diagnosis
import Reckon.Proofs.Progress

/-!
  Lexical faults. A text has one exactly if it holds a character outside the language
  (`Legible` lists those inside), and it is about the first such character, by its index. Whoever
  reads the text meets that fault or none: the listing of the tokens, a parser that is started
  somewhere in the text, and a parser that has gone on over faults of its own
  (`lexical_fault_at_first_illegible`).

  A fault of the listing is the ending of the stream, and the characters determine that
  (`EndsAs.unique`). So what remains is that a parser has no other lexical fault than the one its
  stream ends with (`Parser.ending_of_answer`).
-/

namespace Reckon

/-! ## Characters of the language -/

/-- The characters that a statement can hold: letters, digits, marks and blanks. -/
def Legible (c : Char) : Prop :=
  ('A' ≤ c ∧ c ≤ 'Z') ∨ ('a' ≤ c ∧ c ≤ 'z') ∨ ('0' ≤ c ∧ c ≤ '9') ∨
    c ∈ ['+', '-', '*', '/', '=', '(', ')', ';'] ∨ c ∈ [' ', '\t', '\n', '\x0b', '\x0c', '\r']

instance (c : Char) : Decidable (Legible c) := inferInstanceAs (Decidable (_ ∨ _))

theorem isDigit_iff {c : Char} : isDigit c = true ↔ '0' ≤ c ∧ c ≤ '9' := by
  simp only [isDigit, Char.isDigit, Bool.and_eq_true, decide_eq_true_eq, Char.le_def, ge_iff_le]

theorem isForeign_iff {c : Char} : isForeign c = true ↔ ¬Legible c := by
  unfold isForeign Legible
  rw [Bool.not_eq_true', ← Bool.not_eq_true, ← or_assoc, ← isLetter_iff, ← isDigit_iff]
  apply not_congr
  simp only [Bool.or_eq_true, isMark, isBlank, beq_iff_eq, List.mem_cons, List.not_mem_nil,
    or_false]
  grind

theorem not_isForeign_iff {c : Char} : isForeign c = false ↔ Legible c := by
  rw [← Bool.not_eq_true, isForeign_iff, not_not]

/-! ## The fault of a text -/

theorem tokenize_eq_error {text : String} {f : LexFault} :
    tokenize text = .error f ↔ (Cursor.ofString text).stream.ending = .error f := by
  unfold tokenize TokenStream.toExcept
  cases (Cursor.ofString text).stream.ending with
  | ok n => simp [Except.map]
  | error g => simp [Except.map]

theorem tokenize_eq_error_iff_endsAs {text : String} {f : LexFault} :
    tokenize text = .error f ↔ EndsAs 0 text.toList (.error f) := by
  have hends := (Cursor.ofString text).endsAs
  rw [tokenize_eq_error]
  constructor
  · intro h
    rw [h] at hends
    exact hends
  · intro h
    exact hends.unique h

/-- A text with a foreign character has a first one. -/
theorem exists_endsAs_error {cs : List Char} (h : ∃ c ∈ cs, isForeign c = true) :
    ∃ f, EndsAs 0 cs (.error f) := by
  obtain ⟨c, hc, hforeign⟩ := h
  have hends := (Cursor.mk cs 0).endsAs
  cases he : (Cursor.mk cs 0).stream.ending with
  | ok n =>
    rw [he] at hends
    have hclean := hends.2 c hc
    rw [hforeign] at hclean
    cases hclean
  | error f =>
    rw [he] at hends
    exact ⟨f, hends⟩

/-! ## The faults of its parsers -/

namespace Parser

variable {p : Parser} {s : TokenStream} {f : LexFault}

/-- A parser on a stream has no other lexical fault than the one that the stream ends with. -/
theorem ending_of_answer (h : Nearly (On s) p) (hn : p.nesting ≤ maxDepth)
    (hanswer : p.answer = .error (.lexical f)) : s.ending = .error f := by
  rcases h with h | ⟨r, g, hr, hk, hg, rfl⟩
  · obtain ⟨u, hu, hat⟩ := h
    rw [← hu.ending]
    exact (viable_of_answer hat hn hanswer).1
  · -- it lost the text of its identifier, and says why it cannot pass it
    have hending := hr.ending_ahead
    rw [hg] at hending
    rw [answer_of_stuck (p := r.emptied) hk hg] at hanswer
    cases hanswer
    exact hending.symm

/-- A parser that cannot be started has the fault of the stream. -/
theorem ending_of_start (h : start s = .error (.lexical f)) : s.ending = .error f := by
  obtain ⟨g, rfl, hf⟩ := start_eq_error.mp h
  cases hf
  rfl

end Parser

/-- A text has a lexical fault exactly if it holds a character outside the language, and the fault
gives the first such character and its index. Parsing has the same lexical fault or none, and so
has a parser that takes over after any steps of the scanner, when it is started and whenever it is
asked for a statement. -/
theorem lexical_fault_at_first_illegible (text : String) :
    ((∃ f, tokenize text = .error f) ↔ ∃ c ∈ text.toList, ¬Legible c) ∧
    (∀ f, tokenize text = .error f ↔
      ∃ clean tail, text.toList = clean ++ f.character :: tail ∧ (∀ x ∈ clean, Legible x) ∧
        ¬Legible f.character ∧ f.position = clean.length) ∧
    (∀ f, parse text = .error (.lexical f) → tokenize text = .error f) ∧
    ∀ steps f,
      (((Scanner.ofString text).after steps).parser = .error (.lexical f) →
        tokenize text = .error f) ∧
      ∀ p, ((Scanner.ofString text).after steps).parser = .ok p → ∀ n,
        (p.after n).answer = .error (.lexical f) → tokenize text = .error f := by
  refine ⟨?_, fun f => ?_, fun f h => ?_, fun steps f => ⟨fun h => ?_, fun p h n hanswer => ?_⟩⟩
  · simp only [← isForeign_iff]
    constructor
    · rintro ⟨f, h⟩
      obtain ⟨clean, tail, htext, -, hf, -⟩ := tokenize_eq_error_iff_endsAs.mp h
      exact ⟨f.character, by rw [htext]; simp, hf⟩
    · intro h
      obtain ⟨f, hf⟩ := exists_endsAs_error h
      exact ⟨f, tokenize_eq_error_iff_endsAs.mpr hf⟩
  · rw [tokenize_eq_error_iff_endsAs]
    simp only [EndsAs, Nat.zero_add, isForeign_iff, not_isForeign_iff]
  · exact tokenize_eq_error.mpr (by rw [(viable_items_of_parse h).1])
  · have hending := Parser.ending_of_start h
    rw [(Scanner.tailOf_after _ steps).ending] at hending
    exact tokenize_eq_error.mpr hending
  · obtain ⟨hnearly, hn⟩ := Parser.on_after h n
    exact tokenize_eq_error.mpr (Parser.ending_of_answer hnearly hn hanswer)

/-- The first call reads a statement, the second loses the text of its identifier, and the third
has the fault once more. -/
theorem lexical_fault_at_first_illegible_repeated :
    ∃ p, ((Scanner.ofString "; x = 1; y é $").after [.read]).parser = .ok p ∧
      (p.after 0).answer = .ok (.assign "x" (.number 1)) ∧
      (p.after 2).answer = .error (.lexical ⟨'é', 11⟩) ∧
      tokenize "; x = 1; y é $" = .error ⟨'é', 11⟩ := by
  have hrun : ∃ p, ((Scanner.ofString "; x = 1; y é $").after [.read]).parser = .ok p ∧
      (p.after 0).answer = .ok (.assign "x" (.number 1)) ∧
      (p.after 2).answer = .error (.lexical ⟨'é', 11⟩) := by
    have hcheck : (((Scanner.ofString "; x = 1; y é $").after [.read]).parser.map
        fun p => ((p.after 0).answer, (p.after 2).answer)) =
          .ok (.ok (.assign "x" (.number 1)), .error (.lexical ⟨'é', 11⟩)) := by
      decide +kernel
    obtain ⟨p, hp, hafter⟩ := exists_of_map_eq_ok hcheck
    exact ⟨p, hp, Prod.mk.inj hafter⟩
  obtain ⟨p, hp, hfirst, hthird⟩ := hrun
  obtain ⟨-, -, -, hlife⟩ := lexical_fault_at_first_illegible "; x = 1; y é $"
  exact ⟨p, hp, hfirst, hthird, (hlife [.read] ⟨'é', 11⟩).2 p hp 2 hthird⟩

end Reckon
