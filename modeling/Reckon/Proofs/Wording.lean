import Reckon.Proofs.Modes
import Reckon.Proofs.Quotation
import Reckon.Proofs.Readability

/-!
  The message of a fault tells the whole fault: its kind, what it quotes and where. This is not so
  of all faults that could be written down. A message holds words from outside, and where these
  can be anything, it can be taken apart in several ways.

  What a text brings into a message has an end that can be seen. A token stands in backticks and
  holds none, a number ends where no digit follows, and a character is one character. So a message
  is taken apart from its front: the words that it begins with tell the kind of fault
  (`Fault.initial_eq`, `SyntaxFault.opening_eq`), and behind them each part ends before the next one
  begins (`IsFinding.append_inj`, `ends_words`). `Fault.Plain` is what this needs to know of a
  fault, and `Fault.plain_of_execute` that the faults of texts are such.
-/

namespace Reckon

open Cursor (ends_nil ends_cons)

/-! ## Parts of messages -/

section

variable {s t : String} {cs ds : List Char} {m n : Nat}

/-- What holds no backtick ends at the first one. -/
theorem append_backtick_inj (hs : '\x60' ∉ s.toList) (ht : '\x60' ∉ t.toList)
    (h : s.toList ++ '\x60' :: cs = t.toList ++ '\x60' :: ds) : s = t ∧ cs = ds := by
  have hbefore : ∀ {w : List Char}, '\x60' ∉ w → ∀ x ∈ w, (x != '\x60') = true := fun hw x hx =>
    bne_iff_ne.mpr (ne_of_mem_of_not_mem hx hw)
  have hends : ∀ w, Cursor.Ends (· != '\x60') ('\x60' :: w) := ends_cons rfl
  obtain ⟨hst, hrest⟩ :=
    Cursor.append_inj_of_ends (hbefore hs) (hbefore ht) (hends cs) (hends ds) h
  exact ⟨String.toList_inj.mp hst, (List.cons.inj hrest).2⟩

/-- No number in a message goes on into the words behind it. -/
theorem ends_words {c : Char} (h : s.toList.head? = some c) (hc : isDigit c = false)
    (cs : List Char) : Cursor.Ends isDigit (s.toList ++ cs) := by
  intro x hx
  rw [List.head?_append, h] at hx
  rwa [← Option.some.inj hx]

theorem place_inj (h : (toString m).toList = (toString n).toList) : m = n := by
  have hdigits : Integer.ofDigits m.repr.toList = Integer.ofDigits n.repr.toList :=
    congrArg Integer.ofDigits h
  rwa [Integer.ofDigits_repr, Integer.ofDigits_repr] at hdigits

/-- How a message names what was found: the end of the text, or something in backticks without a
backtick in it. -/
def IsFinding (s : String) : Prop :=
  s = "end of input" ∨ ∃ w : String, s = "`" ++ w ++ "`" ∧ '\x60' ∉ w.toList

/-- What was found ends with its second backtick or with the word for the end of the text. -/
theorem IsFinding.append_inj (hs : IsFinding s) (ht : IsFinding t)
    (h : s.toList ++ cs = t.toList ++ ds) : s = t ∧ cs = ds := by
  have hquoted : ∀ (w : String) (ds : List Char),
      ("`" ++ w ++ "`").toList ++ ds = '\x60' :: (w.toList ++ '\x60' :: ds) := by simp
  have hother : ∀ (w : String) (cs ds : List Char),
      "end of input".toList ++ cs ≠ ("`" ++ w ++ "`").toList ++ ds := by
    intro w cs ds h
    rw [hquoted] at h
    exact absurd (List.cons.inj h).1 (by decide)
  rcases hs with rfl | ⟨v, rfl, hv⟩ <;> rcases ht with rfl | ⟨w, rfl, hw⟩
  · exact ⟨rfl, List.append_cancel_left h⟩
  · exact absurd h (hother w cs ds)
  · exact absurd h.symm (hother v ds cs)
  · rw [hquoted, hquoted] at h
    obtain ⟨rfl, hrest⟩ := append_backtick_inj hv hw (List.cons.inj h).2
    exact ⟨rfl, hrest⟩

/-- What was found and the place of it, at the end of a message. -/
theorem IsFinding.append_place_inj (hs : IsFinding s) (ht : IsFinding t)
    (h : s.toList ++ (" at position ".toList ++ (toString m).toList) =
      t.toList ++ (" at position ".toList ++ (toString n).toList)) : s = t ∧ m = n := by
  obtain ⟨rfl, hplace⟩ := hs.append_inj ht h
  exact ⟨rfl, place_inj (List.append_cancel_left hplace)⟩

theorem IsNumeral.not_backtick (h : IsNumeral s) : '\x60' ∉ s.toList := fun hmem =>
  absurd (h.digit _ hmem) (by decide)

theorem Token.WellSpelt.not_backtick {t : Token} (h : t.WellSpelt) : '\x60' ∉ t.text.toList := by
  intro hmem
  rcases h.wordPart_or_mark _ hmem with hc | hc
  · exact absurd hc (by decide)
  · exact absurd hc (by decide)

end

/-! ## Messages of one stage -/

theorem LexFault.message_inj {f g : LexFault} (h : f.message = g.message) : f = g := by
  obtain ⟨c, m⟩ := f
  obtain ⟨d, n⟩ := g
  have hlist := congrArg String.toList h
  unfold message at hlist
  simp only [Char.toString_eq_singleton, String.toList_append, String.toList_singleton,
    List.append_assoc, List.append_cancel_left_eq, List.cons_append, List.nil_append,
    List.cons.injEq] at hlist
  obtain ⟨rfl, hplace⟩ := hlist
  rw [place_inj hplace]

theorem RunFault.message_inj {f g : RunFault} (h : f.message = g.message) : f = g := by
  have hother : ∀ a c b, divisionByZero.message ≠ (overflow a c b).message := by
    intro a c b h
    have hd : "division by zero".toList.head? = some 'd' := by decide
    have hi : "integer overflow evaluating ".toList.head? = some 'i' := by decide
    have hhead := congrArg (fun s => s.toList.head?) h
    unfold message at hhead
    simp only [String.toList_append, List.head?_append, hd, hi, Option.some_or,
      Option.some.injEq] at hhead
    exact absurd hhead (by decide)
  cases f with
  | divisionByZero =>
    cases g with
    | divisionByZero => rfl
    | overflow a c b => exact absurd h (hother a c b)
  | overflow a c b =>
    cases g with
    | divisionByZero => exact absurd h.symm (hother a c b)
    | overflow a' c' b' =>
      have hlist := congrArg String.toList h
      unfold message at hlist
      simp only [Char.toString_eq_singleton, String.toList_append, String.toList_singleton,
        List.append_assoc, List.append_cancel_left_eq] at hlist
      have hblank : ∀ w, Cursor.Ends isDigit (" ".toList ++ w) := ends_words rfl (by decide)
      obtain ⟨rfl, hrest⟩ := Integer.toString_append_inj (hblank _) (hblank _) hlist
      simp only [List.append_cancel_left_eq, List.cons_append, List.nil_append,
        List.cons.injEq] at hrest
      obtain ⟨rfl, hright⟩ := hrest
      obtain ⟨rfl, -⟩ := Integer.toString_append_inj (ends_nil _) (ends_nil _)
        (congrArg (· ++ []) hright)
      rfl

namespace SyntaxFault

/-- The words that a message begins with. -/
def opening : SyntaxFault → String
  | unexpectedToken _ _ _ => "unexpected token "
  | unexpectedFactor _ _ => "unexpected factor "
  | expectedIdentifier _ _ => "expected identifier in assignment, found "
  | nestingTooDeep _ _ => "expression nested deeper than "
  | integerOutOfRange _ _ => "integer literal `"

theorem opening_prefix (g : SyntaxFault) : g.opening.toList <+: g.message.toList := by
  cases g <;> unfold opening message <;> simp only [String.toList_append, List.append_assoc] <;>
    exact List.prefix_append _ _

/-- No message begins in two ways. -/
theorem opening_eq {g g' : SyntaxFault} (h : g.message = g'.message) :
    g.opening = g'.opening := by
  have hwords : ∀ g g' : SyntaxFault, g.opening.toList <+: g'.opening.toList →
      g.opening = g'.opening := by
    intro g g'
    cases g <;> cases g' <;> simp only [opening] <;> decide
  have hg := g.opening_prefix
  rw [h] at hg
  rcases List.prefix_or_prefix_of_prefix hg g'.opening_prefix with hle | hle
  · exact hwords g g' hle
  · exact (hwords g' g hle).symm

/-- What the fault quotes has an end that can be seen. -/
def Plain : SyntaxFault → Prop
  | unexpectedToken found _ _ => IsFinding found
  | unexpectedFactor found _ => IsFinding found
  | expectedIdentifier found _ => IsFinding found
  | nestingTooDeep _ _ => True
  | integerOutOfRange literal _ => '\x60' ∉ literal.toList

theorem message_inj {g g' : SyntaxFault} (hg : g.Plain) (hg' : g'.Plain)
    (h : g.message = g'.message) : g = g' := by
  have hopening := opening_eq h
  have hlist := congrArg String.toList h
  cases g with
  | unexpectedToken found expected n =>
    cases g' with
    | unexpectedToken found' expected' n' =>
      unfold message at hlist
      simp only [String.toList_append, List.append_assoc, List.append_cancel_left_eq] at hlist
      have hcomma : ∀ w, Cursor.Ends isDigit (", expected ".toList ++ w) :=
        ends_words rfl (by decide)
      obtain ⟨rfl, hplace⟩ := hg.append_inj hg' hlist
      obtain ⟨rfl, hrest⟩ := Integer.repr_append_inj (hcomma _) (hcomma _)
        (List.append_cancel_left hplace)
      rw [String.toList_inj.mp (List.append_cancel_left hrest)]
    | _ => simp [opening] at hopening
  | unexpectedFactor found n =>
    cases g' with
    | unexpectedFactor found' n' =>
      unfold message at hlist
      simp only [String.toList_append, List.append_assoc, List.append_cancel_left_eq] at hlist
      obtain ⟨rfl, rfl⟩ := hg.append_place_inj hg' hlist
      rfl
    | _ => simp [opening] at hopening
  | expectedIdentifier found n =>
    cases g' with
    | expectedIdentifier found' n' =>
      unfold message at hlist
      simp only [String.toList_append, List.append_assoc, List.append_cancel_left_eq] at hlist
      obtain ⟨rfl, rfl⟩ := hg.append_place_inj hg' hlist
      rfl
    | _ => simp [opening] at hopening
  | nestingTooDeep limit n =>
    cases g' with
    | nestingTooDeep limit' n' =>
      unfold message at hlist
      simp only [String.toList_append, List.append_assoc, List.append_cancel_left_eq] at hlist
      have hlevels : ∀ w, Cursor.Ends isDigit (" levels at position ".toList ++ w) :=
        ends_words rfl (by decide)
      obtain ⟨rfl, hrest⟩ := Integer.repr_append_inj (hlevels _) (hlevels _) hlist
      rw [place_inj (List.append_cancel_left hrest)]
    | _ => simp [opening] at hopening
  | integerOutOfRange literal n =>
    cases g' with
    | integerOutOfRange literal' n' =>
      have hquote : "` at position ".toList = '\x60' :: " at position ".toList := by decide
      unfold message at hlist
      simp only [String.toList_append, List.append_assoc, List.append_cancel_left_eq, hquote,
        List.cons_append] at hlist
      obtain ⟨rfl, hrest⟩ := append_backtick_inj hg hg' hlist
      simp only [List.append_cancel_left_eq, List.append_cancel_right_eq] at hrest
      rw [place_inj hrest]
    | _ => simp [opening] at hopening

end SyntaxFault

/-! ## Faults of texts -/

theorem FoundAt.isFinding {text : List Char} {found : String} {position : Nat}
    (h : FoundAt text found position) : IsFinding found := by
  rcases h with ⟨rfl, -⟩ | ⟨t, ht, -, rfl, -⟩
  · exact .inl rfl
  · exact .inr ⟨t.text, rfl, ht.spelt.not_backtick⟩

namespace Fault

/-- What the fault quotes has an end that can be seen. -/
def Plain : Fault → Prop
  | grammatical g => g.Plain
  | lexical _ | arithmetic _ => True

/-- What is quoted from a text has an end that can be seen. -/
theorem Quotes.plain {text : List Char} {f : Fault} (h : f.Quotes text) : f.Plain := by
  cases f with
  | lexical f => trivial
  | grammatical g =>
    cases g with
    | unexpectedToken | unexpectedFactor | expectedIdentifier => exact FoundAt.isFinding h
    | nestingTooDeep => trivial
    | integerOutOfRange => exact h.1.numeral.not_backtick
  | arithmetic f => trivial

theorem plain_of_execute {text : String} {f : Fault} (h : execute text = .error f) : f.Plain := by
  rcases execute_cases text with ⟨g, hparse, hg⟩ | ⟨t, -, ⟨o, ho⟩ | ⟨g, hg⟩⟩
  · rw [hg] at h
    obtain rfl := Except.error.inj h
    exact (Parser.points_of_parse hparse).quotes.plain
  · rw [ho] at h
    cases h
  · rw [hg] at h
    obtain rfl := Except.error.inj h
    trivial

/-- The words of the stage in front are the same, so the messages behind them are. -/
theorem message_inj {f g : Fault} (hf : f.Plain) (hg : g.Plain) (h : f.message = g.message) :
    f = g := by
  have hinitial := initial_eq h
  cases f with
  | lexical f =>
    cases g with
    | lexical g => rw [LexFault.message_inj ((String.append_right_inj _).mp h)]
    | _ => simp [initial] at hinitial
  | grammatical f =>
    cases g with
    | grammatical g => rw [SyntaxFault.message_inj hf hg ((String.append_right_inj _).mp h)]
    | _ => simp [initial] at hinitial
  | arithmetic f =>
    cases g with
    | arithmetic g => rw [RunFault.message_inj ((String.append_right_inj _).mp h)]
    | _ => simp [initial] at hinitial

end Fault

/-- Two texts that cannot be run are answered with one message exactly if they have one fault, of
the same kind, with the same quotation or operation and at the same place. -/
theorem message_eq_iff_fault_eq {text text' : String} {f f' : Fault}
    (h : execute text = .error f) (h' : execute text' = .error f') :
    f.message = f'.message ↔ f = f' := by
  refine ⟨fun hmessage => ?_, congrArg Fault.message⟩
  exact Fault.message_inj (Fault.plain_of_execute h) (Fault.plain_of_execute h') hmessage

/-- The same token, found at one place and at the next. -/
theorem message_eq_iff_fault_eq_shifted :
    execute "x = ;" = .error (.grammatical (.unexpectedFactor "`;`" 4)) ∧
    execute "xy = ;" = .error (.grammatical (.unexpectedFactor "`;`" 5)) ∧
    (Fault.grammatical (.unexpectedFactor "`;`" 4)).message ≠
      (Fault.grammatical (.unexpectedFactor "`;`" 5)).message := by
  have hx : execute "x = ;" = .error (.grammatical (.unexpectedFactor "`;`" 4)) :=
    execute_of_parse_eq_error (by decide +kernel)
  have hxy : execute "xy = ;" = .error (.grammatical (.unexpectedFactor "`;`" 5)) :=
    execute_of_parse_eq_error (by decide +kernel)
  exact ⟨hx, hxy, (message_eq_iff_fault_eq hx hxy).not.mpr (by decide)⟩

-- With free words in them, two messages can be one text.
example : (SyntaxFault.unexpectedToken "a" "b at position 2, expected c" 1).message =
    (SyntaxFault.unexpectedToken "a at position 1, expected b" "c" 2).message := by decide +kernel

end Reckon
