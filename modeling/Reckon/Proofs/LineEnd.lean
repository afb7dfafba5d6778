import Reckon.Proofs.Modes
import Reckon.Proofs.Quotation

/-!
  A line feed at the end of a text. It is a blank, so it makes no difference to the tokens and to
  what they are read as; but the text ends one character later, and a fault that is about its end
  says so. No other fault changes (`parse_append_newline`, `render_append_newline`).

  The stream of the longer text is known from that of the text (`Cursor.stream_append_blank`), and
  what is parsed corresponds as it does for any two layouts of the same tokens. What remains is to
  find out from a fault alone, without its text, if it is about the end: it is if it says so
  (`SyntaxFault.atEnd_iff`), since what a fault quotes stands in front of the end.
-/

namespace Reckon

/-! ## Streams -/

/-- The same tokens, in a text that ends one character later. -/
def TokenStream.lengthen (s : TokenStream) : TokenStream :=
  { s with ending := s.ending.map (· + 1) }

section

variable {x : Char} {cs : List Char}

theorem Token.Kind.EndsBefore.append_blank {k : Token.Kind} (h : k.EndsBefore cs)
    (hx : isBlank x = true) : k.EndsBefore (cs ++ [x]) := by
  cases cs with
  | nil => exact k.endsBefore_cons (not_wordPart_of_blank hx) []
  | cons c cs => exact h

/-- No lexeme goes on into a blank. -/
theorem Lexeme.first?_append_blank {l : Lexeme} (h : first? cs = some l) (hx : isBlank x = true) :
    first? (cs ++ [x]) = some { l with rest := l.rest ++ [x] } := by
  have hends : l.kind.EndsBefore (l.rest ++ [x]) := (endsBefore_rest h).append_blank hx
  have hfirst := first?_append (wellSpelt h 0) hends
  rwa [String.toList_ofList, ← List.append_assoc, text_append_rest h] at hfirst

/-- A blank at the end of a text moves nothing but the end. -/
theorem Cursor.stream_append_blank (hx : isBlank x = true) (cs : List Char) (n : Nat) :
    (mk (cs ++ [x]) n).stream = (mk cs n).stream.lengthen := by
  induction cs, n using charInduction with
  | nil n =>
    rw [List.nil_append, scans_blank hx, stream_nil, stream_nil]
    rfl
  | blank y cs n hy ih =>
    rw [List.cons_append, scans_blank hy, scans_blank hy, ih]
    rfl
  | lexeme cs l n hl ih =>
    rw [scans_lexeme hl, scans_lexeme (Lexeme.first?_append_blank hl hx), ih]
    rfl
  | foreign y cs n hy =>
    rw [List.cons_append, stream_foreign hy, stream_foreign hy]
    rfl

end

/-- At one index of two lists that differ in their last element only stands an element that both
have, or the last one of each. -/
theorem getElem?_concat_cases {α : Type} {xs : List α} {x x' y y' : α} {i : Nat}
    (h : (xs ++ [x])[i]? = some y) (h' : (xs ++ [x'])[i]? = some y') :
    y ∈ xs ∧ y' = y ∨ y = x ∧ y' = x' := by
  by_cases hi : i < xs.length
  · rw [List.getElem?_append_left hi] at h h'
    exact .inl ⟨List.mem_of_getElem? h, Option.some.inj (h'.symm.trans h)⟩
  · rw [List.getElem?_append_right (Nat.not_lt.mp hi)] at h h'
    have hy : y ∈ [x] := List.mem_of_getElem? h
    have hy' : y' ∈ [x'] := List.mem_of_getElem? h'
    exact .inr ⟨List.mem_singleton.mp hy, List.mem_singleton.mp hy'⟩

namespace TokenStream

variable {s : TokenStream} {i : Nat} {t t' : Token}

theorem alike_lengthen (s : TokenStream) : s.Alike s.lengthen := by
  refine ⟨rfl, ?_⟩
  unfold lengthen
  cases s.ending <;> rfl

/-- The items of one index are the same token, or both are the end. -/
theorem items_lengthen (h : s.items[i]? = some t) (h' : s.lengthen.items[i]? = some t') :
    t ∈ s.tokens ∧ t' = t ∨ ∃ n, s.ending = .ok n ∧ t = .ending n ∧ t' = .ending (n + 1) := by
  obtain ⟨tokens, ending⟩ := s
  cases ending with
  | ok n => exact (getElem?_concat_cases h h').imp_right fun hlast => ⟨n, rfl, hlast⟩
  | error f =>
    have htokens : tokens[i]? = some t := (congrArg (·[i]?) (List.append_nil tokens)).symm.trans h
    have hsame : t' = t := Option.some.inj (h'.symm.trans h)
    exact .inl ⟨List.mem_of_getElem? htokens, hsame⟩

end TokenStream

/-- A line feed at the end of a text moves nothing but the end. -/
theorem stream_append_newline (text : String) :
    (Cursor.ofString (text ++ "\n")).stream = (Cursor.ofString text).stream.lengthen := by
  rw [Cursor.ofString, String.toList_append]
  exact Cursor.stream_append_blank rfl text.toList 0

/-! ## Faults about the end -/

/-- The fault says that it is about the end of the text. -/
def SyntaxFault.AtEnd (g : SyntaxFault) : Prop := g.found?.map Prod.fst = some "end of input"

instance (g : SyntaxFault) : Decidable g.AtEnd :=
  inferInstanceAs (Decidable (g.found?.map Prod.fst = some "end of input"))

/-- The fault of a text once a line feed is put behind it. -/
def Fault.afterNewline : Fault → Fault
  | lexical f => lexical f
  | grammatical g => grammatical (if g.AtEnd then g.moveTo (g.position + 1) else g)
  | arithmetic f => arithmetic f

section

variable {cs : List Char}

/-- What was found is the end exactly if it was found at the end. -/
theorem FoundAt.eq_end_iff {found : String} {position : Nat} (h : FoundAt cs found position) :
    found = "end of input" ↔ position = cs.length := by
  rcases h with ⟨hend, hlen⟩ | ⟨t, ht, -, rfl, rfl⟩
  · exact ⟨fun _ => hlen, fun _ => hend⟩
  · have hlt := ht.position_lt
    have hother : "`" ++ t.text ++ "`" ≠ "end of input" := by
      intro hend
      have hhead := congrArg (fun s => s.toList.head?) hend
      simp [String.toList_append] at hhead
    exact ⟨fun hend => absurd hend hother, fun hlen => absurd hlen (Nat.ne_of_lt hlt)⟩

/-- A fault of a text says that it is about the end exactly if it stands there. -/
theorem SyntaxFault.atEnd_iff {g : SyntaxFault} (h : (Fault.grammatical g).Quotes cs) :
    g.AtEnd ↔ g.position = cs.length := by
  cases g with
  | unexpectedToken | unexpectedFactor | expectedIdentifier =>
    exact (Iff.of_eq (Option.some.injEq _ _)).trans (FoundAt.eq_end_iff h)
  | nestingTooDeep limit n =>
    obtain ⟨c, -, hc⟩ := h
    have hlt : n < cs.length := (List.getElem?_eq_some_iff.mp hc).1
    exact ⟨fun hend => absurd hend (by simp [AtEnd, found?]),
      fun hlen => absurd hlen (Nat.ne_of_lt hlt)⟩
  | integerOutOfRange literal n =>
    obtain ⟨hrun, -⟩ := h
    have hlt : n < cs.length := by
      obtain ⟨c, w, hw, -⟩ := hrun.numeral
      have hlen := hrun.quoted.length_le
      rw [hw, List.length_cons, List.length_drop] at hlen
      omega
    exact ⟨fun hend => absurd hend (by simp [AtEnd, found?]),
      fun hlen => absurd hlen (Nat.ne_of_lt hlt)⟩

end

/-! ## Texts -/

/-- A line feed behind a text makes no difference to what is parsed, but to the place of a fault
about the end. -/
theorem parse_append_newline (text : String) :
    parse (text ++ "\n") = (parse text).mapError Fault.afterNewline := by
  have hstream := stream_append_newline text
  have hcorr : Corresponds text (text ++ "\n") (parse text) (parse (text ++ "\n")) :=
    corresponds_parse (hstream ▸ TokenStream.alike_lengthen _)
  generalize hx : parse text = x at hcorr
  generalize hx' : parse (text ++ "\n") = x' at hcorr
  cases hcorr with
  | ok t => rfl
  | @lexical f f' h h' =>
    rw [hstream, TokenStream.lengthen, h] at h'
    rw [← Except.error.inj h']
    rfl
  | @grammatical g i t t' h h' hg =>
    have hatEnd := SyntaxFault.atEnd_iff (Parser.points_of_parse hx).quotes
    rw [items_eq_items_stream] at h h'
    rw [hstream] at h'
    rcases TokenStream.items_lengthen h h' with ⟨ht, rfl⟩ | ⟨n, hn, rfl, rfl⟩
    · have hlt := (Token.standsIn_of_mem ht).position_lt
      have hnot : ¬g.AtEnd := fun hend => absurd (hatEnd.mp hend) (by omega)
      rw [← hg, g.moveTo_position]
      show _ = Except.error (Fault.grammatical (if g.AtEnd then _ else g))
      rw [if_neg hnot]
    · have hlen : n = text.toList.length := (Cursor.ending_eq hn).trans (Nat.zero_add _)
      have hend : g.AtEnd := hatEnd.mpr (hg.trans hlen)
      show _ = Except.error (Fault.grammatical (if g.AtEnd then _ else g))
      rw [if_pos hend, hg]
      rfl
  | arithmetic f => rfl

theorem execute_append_newline (text : String) :
    execute (text ++ "\n") = (execute text).mapError Fault.afterNewline := by
  have hparse := parse_append_newline text
  rcases execute_cases text with ⟨f, hf, hexecute⟩ | ⟨t, ht, hexecute⟩
  · rw [hf] at hparse
    rw [hexecute]
    exact execute_of_parse_eq_error hparse
  · rw [ht] at hparse
    rw [execute_congr (hparse.trans ht.symm)]
    rcases hexecute with ⟨o, ho⟩ | ⟨f, hf⟩
    · rw [ho]
      rfl
    · rw [hf]
      rfl

theorem tokenize_append_newline (text : String) : tokenize (text ++ "\n") = tokenize text := by
  unfold tokenize
  rw [stream_append_newline]
  unfold TokenStream.toExcept TokenStream.lengthen
  cases (Cursor.ofString text).stream.ending <;> rfl

/-- A line feed behind a text makes no difference to the answer in any mode, but to the place of a
fault about the end. -/
theorem Program.render_append_newline (mode : Mode) (text : String) :
    render mode (text ++ "\n") = (render mode text).mapError Fault.afterNewline := by
  cases mode with
  | value =>
    simp only [render, execute_append_newline]
    cases execute text <;> rfl
  | tokens =>
    simp only [render, tokenize_append_newline]
    cases tokenize text <;> rfl
  | tree =>
    simp only [render, parse_append_newline]
    cases parse text <;> rfl

end Reckon
