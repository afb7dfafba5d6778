import Mathlib.Control.Monad.Basic
import Reckon.Program
import Reckon.Proofs.Layout

/-!
  The three modes of the program on one statement. They read different parts of it: the listing of
  the tokens reads the whole text, the other two no more than a statement and one token, and only
  one of those evaluates. They agree all the same on what is wrong with it. A fault that the tree
  listing has the plain run has too, and a foreign character that either of them meets is the one
  that the token listing reports, as there is only one that a text can end with.

  A response shows a fault by its message alone, which begins differently for each kind of fault
  (`Fault.head?_message`), so that it can be told of a response that it reports a lexical one.
-/

namespace Reckon

/-! ## What the stages have in common -/

/-- A foreign character that the parser meets is the one that ends the tokens. -/
theorem tokenize_of_parse_eq_lexical {text : String} {f : LexFault}
    (h : parse text = .error (.lexical f)) : tokenize text = .error f := by
  have hstream := (viable_items_of_parse h).1
  unfold tokenize TokenStream.toExcept
  rw [hstream]
  rfl

/-- A run fails with the fault of the parser, if there is one, and else only in the evaluation. -/
theorem execute_cases (text : String) :
    (∃ f, parse text = .error f ∧ execute text = .error f) ∨
      ∃ t, parse text = .ok t ∧
        ((∃ o, execute text = .ok o) ∨ ∃ f, execute text = .error (.arithmetic f)) := by
  cases h : parse text with
  | error f => exact .inl ⟨f, rfl, execute_of_parse_eq_error h⟩
  | ok t => exact .inr ⟨t, rfl, execute_of_parse_eq_ok h⟩

/-- The first character of a fault's message, which tells its kind. -/
def Fault.initial : Fault → Char
  | lexical _ => 'l'
  | grammatical _ => 'p'
  | arithmetic _ => 'r'

theorem head?_toList_append {s : String} {c : Char} (h : s.toList.head? = some c) (t : String) :
    (s ++ t).toList.head? = some c := by
  rw [String.toList_append, List.head?_append, h]
  rfl

theorem Fault.head?_message (f : Fault) : f.message.toList.head? = some f.initial := by
  cases f with
  | lexical f =>
    have hinitial : "lex error: ".toList.head? = some 'l' := by decide
    exact head?_toList_append hinitial f.message
  | grammatical f =>
    have hinitial : "parse error: ".toList.head? = some 'p' := by decide
    exact head?_toList_append hinitial f.message
  | arithmetic f =>
    have hinitial : "runtime error: ".toList.head? = some 'r' := by decide
    exact head?_toList_append hinitial f.message

/-- Messages that are equal are of one kind of fault. -/
theorem Fault.initial_eq {f g : Fault} (h : f.message = g.message) : f.initial = g.initial := by
  have hhead := congrArg (fun s => s.toList.head?) h
  simp only [head?_message, Option.some.injEq] at hhead
  exact hhead

/-- The options that ask for a mode. -/
def Mode.options : Mode → List String
  | value => []
  | tokens => ["--tokens"]
  | tree => ["--ast"]

/-- What the options of a mode settle. -/
def Mode.settings : Mode → CommandLine.Settings
  | value => {}
  | tokens => { tokens := true }
  | tree => { tree := true }

namespace Program

/-! ## Responses -/

/-- The run ends with this fault. -/
def Reports (r : Response) (f : Fault) : Prop := r = failure 1 f.message

instance (r : Response) (f : Fault) : Decidable (Reports r f) :=
  inferInstanceAs (Decidable (r = failure 1 f.message))

theorem failure_injective {status : Nat} {reason reason' : String}
    (h : failure status reason = failure status reason') : reason = reason' := by
  have herrors := congrArg (fun r => r.errors.toList) h
  simp only [failure, String.toList_append] at herrors
  exact String.toList_inj.mp (List.append_cancel_left (List.append_cancel_right herrors))

/-- A response that shows a lexical fault comes from one. -/
theorem lexical_of_reports {r : Response} {f : LexFault} {g : Fault} (h : Reports r (.lexical f))
    (hg : Reports r g) : ∃ g', g = .lexical g' := by
  have hinitial : g.initial = 'l' := Fault.initial_eq (failure_injective (hg.symm.trans h))
  cases g with
  | lexical g => exact ⟨g, rfl⟩
  | grammatical g => exact absurd hinitial (show 'p' ≠ 'l' by decide)
  | arithmetic g => exact absurd hinitial (show 'r' ≠ 'l' by decide)

/-- The response of a run that is asked to process the text in this mode, however its arguments are
written and wherever it has the text from. -/
def IsResponse (mode : Mode) (text : String) (r : Response) : Prop :=
  ∃ around arguments source, CommandLine.read arguments = .ok (.process mode source) ∧
    statement around source = .ok text ∧ r = run around arguments

theorem IsResponse.eq_respond {mode : Mode} {text : String} {r : Response}
    (h : IsResponse mode text r) : r = respond mode text := by
  obtain ⟨around, arguments, source, hread, hstatement, rfl⟩ := h
  unfold run fulfil
  rw [hread]
  dsimp only
  rw [hstatement]

theorem read_options (mode : Mode) (rest : List String) :
    CommandLine.read (mode.options ++ rest) = CommandLine.readFrom mode.settings rest := by
  cases mode <;> rfl

theorem read_argument (mode : Mode) (text : String) :
    CommandLine.read (mode.options ++ ["--", text]) = .ok (.process mode (.argument text)) := by
  rw [read_options]
  cases mode <;> exact CommandLine.readFrom_separator rfl text

/-- A text behind the options of a mode is processed in that mode. -/
theorem isResponse_options (around : Surroundings) (mode : Mode) (text : String) :
    IsResponse mode text (run around (mode.options ++ ["--", text])) :=
  ⟨around, _, .argument text, read_argument mode text, rfl, rfl⟩

/-! ## Modes -/

theorem respond_of_ok {mode : Mode} {text output : String} (h : render mode text = .ok output) :
    respond mode text = success output := by
  unfold respond
  rw [h]

theorem respond_of_error {mode : Mode} {text : String} {f : Fault}
    (h : render mode text = .error f) : Reports (respond mode text) f := by
  unfold Reports respond
  rw [h]

/-- A response is an output with status 0, or a fault with status 1. -/
theorem respond_cases (mode : Mode) (text : String) :
    (∃ output, render mode text = .ok output ∧ respond mode text = ⟨0, output, ""⟩) ∨
      ∃ f, render mode text = .error f ∧ Reports (respond mode text) f := by
  cases h : render mode text with
  | ok output => exact .inl ⟨output, rfl, respond_of_ok h⟩
  | error f => exact .inr ⟨f, rfl, respond_of_error h⟩

/-- What the two modes that read a statement make of a text: it cannot be parsed, or it is parsed
and perhaps cannot be evaluated. -/
theorem render_cases (text : String) :
    (∃ f, parse text = .error f ∧ render .tree text = .error f ∧ render .value text = .error f) ∨
      ((∃ output, render .tree text = .ok output) ∧
        ((∃ output, render .value text = .ok output) ∨
          ∃ f, render .value text = .error (.arithmetic f))) := by
  unfold render
  rcases execute_cases text with ⟨f, hp, he⟩ | ⟨t, hp, he⟩
  · left
    rw [hp, he]
    exact ⟨f, rfl, rfl, rfl⟩
  · right
    rw [hp]
    refine ⟨⟨_, rfl⟩, ?_⟩
    rcases he with ⟨o, he⟩ | ⟨f, he⟩
    · rw [he]
      exact .inl ⟨_, rfl⟩
    · rw [he]
      exact .inr ⟨f, rfl⟩

theorem parse_of_render_eq_lexical {mode : Mode} {text : String} {f : LexFault}
    (hmode : mode ≠ .tokens) (h : render mode text = .error (.lexical f)) :
    parse text = .error (.lexical f) := by
  rcases render_cases text with ⟨g, hg, htree, hvalue⟩ | ⟨⟨output, htree⟩, hvalue⟩
  · have hsame : render mode text = .error g := by
      cases mode with
      | tokens => exact absurd rfl hmode
      | tree => exact htree
      | value => exact hvalue
    rw [hsame] at h
    cases h
    exact hg
  · -- what is parsed has no lexical fault
    cases mode with
    | tokens => exact absurd rfl hmode
    | tree =>
      rw [htree] at h
      cases h
    | value =>
      rcases hvalue with ⟨output, hvalue⟩ | ⟨g, hvalue⟩
      · rw [hvalue] at h
        cases h
      · rw [hvalue] at h
        cases h

/-- A lexical fault of any mode is the fault of the tokens. -/
theorem render_tokens_of_lexical {mode : Mode} {text : String} {f : LexFault}
    (h : render mode text = .error (.lexical f)) :
    render .tokens text = .error (.lexical f) := by
  by_cases hmode : mode = .tokens
  · rwa [← hmode]
  · unfold render
    rw [tokenize_of_parse_eq_lexical (parse_of_render_eq_lexical hmode h)]

/-- Runs in the three modes on one text agree. If the tree listing fails the plain run gives the
same response, and a plain run that fails alone does so in the evaluation. A foreign character that
one of them reports the token listing reports in the same way, so where that succeeds there is
none. Each run has status 0 and its output, or status 1 and no output. -/
theorem modes_agree (text : String) (r : Mode → Response)
    (h : ∀ mode, IsResponse mode text (r mode)) :
    ((r .tree).status ≠ 0 → r .value = r .tree) ∧
    ((r .value).status ≠ 0 → (r .tree).status = 0 → ∃ f, Reports (r .value) (.arithmetic f)) ∧
    (∀ mode f, Reports (r mode) (.lexical f) → r .tokens = r mode) ∧
    ((r .tokens).status = 0 → ∀ mode f, ¬Reports (r mode) (.lexical f)) ∧
    ∀ mode, (∃ output, render mode text = .ok output ∧ r mode = ⟨0, output, ""⟩) ∨
      ∃ f, render mode text = .error f ∧ r mode = ⟨1, "", "error: " ++ f.message ++ "\n"⟩ := by
  have hr : ∀ mode, r mode = respond mode text := fun mode => (h mode).eq_respond
  simp only [hr]
  have hlexical : ∀ mode f, Reports (respond mode text) (.lexical f) →
      respond .tokens text = respond mode text := by
    intro mode f hf
    rcases respond_cases mode text with ⟨output, -, ho⟩ | ⟨g, hg, hreports⟩
    · rw [Reports, ho] at hf
      cases hf
    · obtain ⟨g', rfl⟩ := lexical_of_reports hf hreports
      exact (respond_of_error (render_tokens_of_lexical hg)).trans hreports.symm
  refine ⟨fun hs => ?_, fun hv hs => ?_, hlexical, fun hs mode f hf => ?_,
    fun mode => respond_cases mode text⟩
  · rcases render_cases text with ⟨f, -, htree, hvalue⟩ | ⟨⟨output, htree⟩, -⟩
    · exact (respond_of_error hvalue).trans (respond_of_error htree).symm
    · rw [respond_of_ok htree] at hs
      exact absurd rfl hs
  · rcases render_cases text with ⟨f, -, htree, -⟩ | ⟨-, ⟨output, hvalue⟩ | ⟨f, hvalue⟩⟩
    · rw [respond_of_error htree] at hs
      cases hs
    · rw [respond_of_ok hvalue] at hv
      exact absurd rfl hv
    · exact ⟨f, respond_of_error hvalue⟩
  · rw [hlexical mode f hf, hf] at hs
    cases hs

/-- A statement that can be parsed but not evaluated, where a foreign character comes too late to be
read with it; and one where it comes in time, for the listing of the tree as for that of the
tokens. -/
theorem modes_agree_late :
    (∃ f, Reports (run ⟨fun _ => .ok .empty, .empty⟩ ["--", "x = 1 / 0; y $"]) (.arithmetic f)) ∧
      (run ⟨fun _ => .ok .empty, .empty⟩ ["--tokens", "--", "x = 1 / 0; y $"]).status = 1 ∧
      run ⟨fun _ => .ok .empty, .empty⟩ ["--tokens", "--", "x = (1 + $"] =
        run ⟨fun _ => .ok .empty, .empty⟩ ["--ast", "--", "x = (1 + $"] := by
  obtain ⟨-, hplain, -⟩ := modes_agree "x = 1 / 0; y $" _
    (isResponse_options ⟨fun _ => .ok .empty, .empty⟩ · "x = 1 / 0; y $")
  obtain ⟨-, -, hlexical, -⟩ := modes_agree "x = (1 + $" _
    (isResponse_options ⟨fun _ => .ok .empty, .empty⟩ · "x = (1 + $")
  exact ⟨hplain (by decide +kernel) (by decide +kernel), by decide +kernel,
    hlexical .tree ⟨'$', 9⟩ (by decide +kernel)⟩

end Program

end Reckon
