import Reckon.Proofs.LineEnd

/-!
  Where a statement comes from. It can be an argument behind the separator, the content of a file
  or the first line of standard input, and the three are cut off differently: an argument and a
  file are taken as they are, but a line is taken with its line feed and without what follows it.
  `Hands` lists the runs that are handed one text in these ways.

  All of them process that text (`Hands.isResponse`), so they have one response. For standard
  input this rests on the encoding, in which no character but the line feed has its byte
  (`eq_of_mem_utf8EncodeChar`); what follows the first line is not decoded and need not be text.

  A line that ends with a line feed is another text than the same line without. The responses
  differ only where a fault is about the end of the text (`run_eq_of_hands`).
-/

namespace Reckon

/-! ## Bytes -/

/-- A line feed has a byte of its own. -/
theorem eq_of_mem_utf8EncodeChar {c : Char} (h : 10 ∈ String.utf8EncodeChar c) : c = '\n' := by
  have hhigh : ∀ n, 128 ≤ n → n < 256 → (10 : UInt8) ≠ UInt8.ofNat n := by
    intro n hlow hhigh hn
    have heq : 10 = n % 256 := congrArg UInt8.toNat hn
    omega
  -- the bytes of longer characters are all 128 or more
  unfold String.utf8EncodeChar at h
  simp only at h
  split at h
  · next hascii =>
    have heq : 10 = c.val.toNat % 256 := congrArg UInt8.toNat (List.mem_singleton.mp h)
    have hcode : c.val.toNat = '\n'.val.toNat := by
      show c.val.toNat = 10
      omega
    exact Char.ext (UInt32.toNat_inj.mp hcode)
  · exfalso
    split at h
    · simp only [List.mem_cons, List.not_mem_nil, or_false] at h
      rcases h with h | h <;> exact hhigh _ (by omega) (by omega) h
    · split at h <;> simp only [List.mem_cons, List.not_mem_nil, or_false] at h
      · rcases h with h | h | h <;> exact hhigh _ (by omega) (by omega) h
      · rcases h with h | h | h | h <;> exact hhigh _ (by omega) (by omega) h

theorem toList_toUTF8 (text : String) :
    text.toUTF8.data.toList = text.toList.flatMap String.utf8EncodeChar := by
  have hbytes : text.toUTF8 = text.toList.utf8Encode := by
    rw [← String.toByteArray_ofList, String.ofList_toList]
    rfl
  rw [hbytes, List.utf8Encode, List.data_toByteArray]

theorem not_mem_toUTF8 {text : String} (h : '\n' ∉ text.toList) :
    10 ∉ text.toUTF8.data.toList := by
  rw [toList_toUTF8, List.mem_flatMap]
  rintro ⟨c, hc, hmem⟩
  exact h (eq_of_mem_utf8EncodeChar hmem ▸ hc)

namespace Program

section

variable {bs : List UInt8}

theorem firstLine_eq_self (h : 10 ∉ bs) : firstLine bs = bs := by
  induction bs with
  | nil => rfl
  | cons b bs ih =>
    rw [List.mem_cons, not_or] at h
    rw [firstLine, if_neg (Ne.symm h.1), ih h.2]

/-- The first line ends with the first line feed. -/
theorem firstLine_append (h : 10 ∉ bs) (more : List UInt8) :
    firstLine (bs ++ 10 :: more) = bs ++ [10] := by
  induction bs with
  | nil => rfl
  | cons b bs ih =>
    rw [List.mem_cons, not_or] at h
    rw [List.cons_append, firstLine, if_neg (Ne.symm h.1), ih h.2]
    rfl

end

/-- The bytes of a text are decoded to the text. -/
theorem decode_toUTF8 (text : String) : decode text.toUTF8 = .ok text := by
  have hdecode : String.fromUTF8? text.toUTF8 = some text := dif_pos text.isValidUTF8
  unfold decode
  rw [hdecode]

/-! ## Files and standard input -/

section

variable {around : Surroundings} {text line : String}

theorem statement_file {path : String} (h : around.file path = .ok text.toUTF8) :
    statement around (.file path) = .ok text := by
  unfold statement
  dsimp only
  rw [h]
  exact decode_toUTF8 text

/-- A text in one line is read from standard input if nothing follows it. -/
theorem statement_input_last (h : '\n' ∉ text.toList) (hinput : around.input = text.toUTF8) :
    statement around .input = .ok text := by
  unfold statement
  rw [hinput, firstLine_eq_self (not_mem_toUTF8 h)]
  exact decode_toUTF8 text

/-- A text in one line is read from standard input with its line feed, whatever follows it. -/
theorem statement_input_line {more : ByteArray} (h : '\n' ∉ line.toList)
    (hinput : around.input = (line ++ "\n").toUTF8 ++ more) :
    statement around .input = .ok (line ++ "\n") := by
  have hline : (line ++ "\n").toUTF8.data.toList = line.toUTF8.data.toList ++ [10] := by
    rw [toList_toUTF8, toList_toUTF8, String.toList_append, List.flatMap_append]
    rfl
  have hfirst : firstLine around.input.data.toList = (line ++ "\n").toUTF8.data.toList := by
    rw [hinput, ByteArray.data_append, Array.toList_append, hline, List.append_assoc]
    exact firstLine_append (not_mem_toUTF8 h) more.data.toList
  unfold statement
  rw [hfirst]
  exact decode_toUTF8 (line ++ "\n")

end

/-! ## Arguments -/

/-- The path option with the path behind an equals sign, whatever the path looks like. -/
theorem item_file_value (path : String) :
    CommandLine.item ("--file=" ++ path) = .ok (.file (some path)) := by
  have hlist : ("--file=" ++ path).toList =
      '-' :: '-' :: 'f' :: 'i' :: 'l' :: 'e' :: '=' :: path.toList := by
    rw [String.toList_append]
    rfl
  have hlong : CommandLine.longItem ("--file=" ++ path) "file"
      (some (String.ofList path.toList)) = .ok (.file (some path)) := by
    rw [String.ofList_toList]
    rfl
  unfold CommandLine.item
  rw [hlist]
  exact hlong

theorem setPath_settings (mode : Mode) {path : String} (h : path ≠ "") :
    mode.settings.setPath path = .ok { mode.settings with path := some path } := by
  unfold CommandLine.Settings.setPath
  rw [if_neg h]
  cases mode <;> rfl

theorem request_path (mode : Mode) (path : String) :
    CommandLine.Settings.request { mode.settings with path := some path } =
      .ok (.process mode (.file path)) := by
  cases mode <;> rfl

/-- A path in an argument of its own must not look like an option. -/
theorem read_file (mode : Mode) {path : String} (hpath : path ≠ "")
    (hoption : CommandLine.isOption path = false) :
    CommandLine.read (mode.options ++ ["--file", path]) = .ok (.process mode (.file path)) := by
  have hitem : CommandLine.item "--file" = .ok (.file none) := rfl
  rw [read_options, ← request_path]
  simp only [CommandLine.readFrom, hitem, hoption, setPath_settings mode hpath,
    Bool.false_eq_true, if_false]

theorem read_file_value (mode : Mode) {path : String} (hpath : path ≠ "") :
    CommandLine.read (mode.options ++ ["--file=" ++ path]) = .ok (.process mode (.file path)) := by
  rw [read_options, ← request_path]
  simp only [CommandLine.readFrom, item_file_value, setPath_settings mode hpath]

theorem read_input (mode : Mode) :
    CommandLine.read mode.options = .ok (.process mode .input) := by
  cases mode <;> rfl

/-! ## Runs -/

/-- The arguments ask for the mode and name a source from which the run has the text. -/
inductive Hands (mode : Mode) (text : String) : Surroundings → List String → Prop where
  /-- The text is the argument behind the separator. -/
  | argument (around : Surroundings) : Hands mode text around (mode.options ++ ["--", text])
  /-- The text is the content of a file. -/
  | file {around : Surroundings} {path : String} (hpath : path ≠ "")
      (hoption : CommandLine.isOption path = false)
      (hfile : around.file path = .ok text.toUTF8) :
      Hands mode text around (mode.options ++ ["--file", path])
  /-- The text is the content of a file, and the path stands behind an equals sign. -/
  | fileValue {around : Surroundings} {path : String} (hpath : path ≠ "")
      (hfile : around.file path = .ok text.toUTF8) :
      Hands mode text around (mode.options ++ ["--file=" ++ path])
  /-- The text has no line feed, and standard input holds nothing else. -/
  | last {around : Surroundings} (hline : '\n' ∉ text.toList)
      (hinput : around.input = text.toUTF8) : Hands mode text around mode.options
  /-- The text is a line with its line feed, and standard input goes on with anything. -/
  | line {around : Surroundings} {line : String} {more : ByteArray} (htext : text = line ++ "\n")
      (hline : '\n' ∉ line.toList) (hinput : around.input = text.toUTF8 ++ more) :
      Hands mode text around mode.options

/-- However a text is handed, it is the text that is processed. -/
theorem Hands.isResponse {mode : Mode} {text : String} {around : Surroundings}
    {arguments : List String} (h : Hands mode text around arguments) :
    IsResponse mode text (run around arguments) := by
  cases h with
  | argument => exact isResponse_options around mode text
  | file hpath hoption hfile =>
    exact ⟨around, _, _, read_file mode hpath hoption, statement_file hfile, rfl⟩
  | fileValue hpath hfile =>
    exact ⟨around, _, _, read_file_value mode hpath, statement_file hfile, rfl⟩
  | last hline hinput =>
    exact ⟨around, _, _, read_input mode, statement_input_last hline hinput, rfl⟩
  | line htext hline hinput =>
    subst htext
    exact ⟨around, _, _, read_input mode, statement_input_line hline hinput, rfl⟩

/-- Runs that are handed one text have one response, in whatever way they are handed it. With a
line feed behind the text the output is the same, or the fault is the same but for the place of the
end of the text, which is one further on. -/
theorem run_eq_of_hands (mode : Mode) (text : String) :
    (∀ around arguments around' arguments', Hands mode text around arguments →
      Hands mode text around' arguments' → run around arguments = run around' arguments') ∧
    ∀ around arguments around' arguments', Hands mode text around arguments →
      Hands mode (text ++ "\n") around' arguments' →
        (∃ output, render mode text = .ok output ∧ run around arguments = success output ∧
          run around' arguments' = success output) ∨
        ∃ f, render mode text = .error f ∧ Reports (run around arguments) f ∧
          Reports (run around' arguments') f.afterNewline := by
  refine ⟨fun _ _ _ _ h h' => ?_, fun _ _ _ _ h h' => ?_⟩
  · rw [h.isResponse.eq_respond, h'.isResponse.eq_respond]
  · have hrender := render_append_newline mode text
    rw [h.isResponse.eq_respond, h'.isResponse.eq_respond]
    cases hr : render mode text with
    | ok output =>
      rw [hr] at hrender
      exact .inl ⟨output, rfl, respond_of_ok hr, respond_of_ok hrender⟩
    | error f =>
      rw [hr] at hrender
      exact .inr ⟨f, rfl, respond_of_error hr, respond_of_error hrender⟩

/-- A statement without its semicolon, as an argument and as the first line of an input that is no
text behind it, and then as the content of a file as well. -/
theorem run_eq_of_hands_unfinished :
    Reports (run ⟨fun _ => .ok .empty, .empty⟩ ["--", "x = 1"])
      (.grammatical (.unexpectedToken "end of input" "`;`" 5)) ∧
    Reports (run ⟨fun _ => .ok .empty, "x = 1\n".toUTF8 ++ ⟨#[255]⟩⟩ [])
      (.grammatical (.unexpectedToken "end of input" "`;`" 6)) ∧
    run ⟨fun _ => .ok .empty, "x = 1\n".toUTF8 ++ ⟨#[255]⟩⟩ [] =
      run ⟨fun _ => .ok "x = 1\n".toUTF8, .empty⟩ ["--file", "statement"] := by
  have hargument : Hands .value "x = 1" ⟨fun _ => .ok .empty, .empty⟩ ["--", "x = 1"] :=
    .argument _
  have hline : Hands .value "x = 1\n" ⟨fun _ => .ok .empty, "x = 1\n".toUTF8 ++ ⟨#[255]⟩⟩ [] :=
    @Hands.line .value _ _ "x = 1" _ (by decide) (by decide) rfl
  have hfile : Hands .value "x = 1\n" ⟨fun _ => .ok "x = 1\n".toUTF8, .empty⟩
      ["--file", "statement"] := .file (by decide) (by decide) rfl
  have hexecute : execute "x = 1" =
      .error (.grammatical (.unexpectedToken "end of input" "`;`" 5)) :=
    execute_of_parse_eq_error (by decide +kernel)
  have hrender : render .value "x = 1" =
      .error (.grammatical (.unexpectedToken "end of input" "`;`" 5)) := by
    unfold render
    dsimp only
    rw [hexecute]
    rfl
  obtain ⟨-, hnewline⟩ := run_eq_of_hands .value "x = 1"
  obtain ⟨hsame, -⟩ := run_eq_of_hands .value "x = 1\n"
  rcases hnewline _ _ _ _ hargument hline with ⟨output, hok, -⟩ | ⟨f, hf, hreports, hreports'⟩
  · rw [hrender] at hok
    cases hok
  · obtain rfl := Except.error.inj (hrender.symm.trans hf)
    exact ⟨hreports, hreports', hsame _ _ _ _ hline hfile⟩

end Program

end Reckon
