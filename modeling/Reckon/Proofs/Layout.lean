import Mathlib.Control.Monad.Basic
import Mathlib.Data.List.Find
import Reckon.Proofs.Diagnosis
import Reckon.Proofs.RoundTrip

/-!
  The layout of a text has no part in how it is parsed. Two texts whose tokens have the same kinds
  and texts, and which both end with a foreign character or both do not, are parsed to the same
  tree, or to faults that differ in their places only (`Corresponds`); the places are those of the
  tokens with one index in each of the texts, and the end of the text counts as the last of them.

  The proof couples the two runs (`relaid`): what is left of the streams lies behind the same
  number of items. Where texts differ in their blanks alone they also have the same foreign
  character first, if any, so of a fault nothing but its place can differ.
-/

namespace Reckon

/-! ## Streams that are alike -/

/-- What a token is, wherever it stands. -/
def Token.word (t : Token) : Token.Kind × String := (t.kind, t.text)

theorem Token.eq_of_word_eq {t t' : Token} (h : t'.word = t.word) :
    t' = { t with position := t'.position } := by
  obtain ⟨k, s, n⟩ := t
  obtain ⟨k', s', n'⟩ := t'
  obtain ⟨rfl, rfl⟩ := Prod.mk.inj h
  rfl

namespace TokenStream

variable {q r s s' : TokenStream} {t : Token}

/-- The tokens of the streams differ in their places only, and both streams end with the text or
both with a foreign character. -/
structure Alike (s s' : TokenStream) : Prop where
  words : s.tokens.map Token.word = s'.tokens.map Token.word
  endings : s.ending.isOk = s'.ending.isOk

theorem Alike.symm (h : s.Alike s') : s'.Alike s := ⟨h.words.symm, h.endings.symm⟩

theorem Alike.of_cons (h : (q.cons t).Alike s') :
    ∃ t' q', s' = q'.cons t' ∧ t' = { t with position := t'.position } ∧ q.Alike q' := by
  obtain ⟨tokens, ending⟩ := s'
  obtain ⟨hwords, hendings⟩ := h
  cases tokens with
  | nil => cases hwords
  | cons t' tokens =>
    obtain ⟨hword, hwords⟩ := List.cons.inj hwords
    exact ⟨t', ⟨tokens, ending⟩, rfl, Token.eq_of_word_eq hword.symm, hwords, hendings⟩

theorem Alike.of_ending {n : Nat} (h : Alike ⟨[], .ok n⟩ s') : ∃ n', s' = ⟨[], .ok n'⟩ := by
  obtain ⟨tokens, ending⟩ := s'
  obtain rfl := List.map_eq_nil_iff.mp h.words.symm
  cases ending with
  | ok n' => exact ⟨n', rfl⟩
  | error f => cases h.endings

theorem Alike.of_fault {f : LexFault} (h : Alike ⟨[], .error f⟩ s') :
    ∃ f', s' = ⟨[], .error f'⟩ := by
  obtain ⟨tokens, ending⟩ := s'
  obtain rfl := List.map_eq_nil_iff.mp h.words.symm
  cases ending with
  | ok n => cases h.endings
  | error f' => exact ⟨f', rfl⟩

/-- The tokens of a stream and, if it ends with the text, the ending. -/
def items (s : TokenStream) : List Token :=
  s.tokens ++ match s.ending with
    | .ok position => [.ending position]
    | .error _ => []

end TokenStream

theorem items_eq_items_stream (text : String) :
    items text = (Cursor.ofString text).stream.items := by
  unfold TokenStream.items
  cases he : (Cursor.ofString text).stream.ending with
  | ok n => exact items_eq_of_ok he
  | error g =>
    have hitems := congrArg TokenStream.tokens (items_eq_of_error he)
    exact hitems.symm.trans (List.append_nil _).symm

theorem getElem?_of_drop_eq_cons {α : Type} {xs rest : List α} {k : Nat} {x : α}
    (h : x :: rest = xs.drop k) : xs[k]? = some x ∧ rest = xs.drop (k + 1) := by
  rw [← List.head?_drop, ← List.tail_drop, ← h]
  exact ⟨rfl, rfl⟩

/-! ## Two layouts -/

/-- The streams have items of one index at these places. -/
def TokenStream.SamePlace (s s' : TokenStream) (n n' : Nat) : Prop :=
  ∃ (i : Nat) (t t' : Token), s.items[i]? = some t ∧ s'.items[i]? = some t' ∧
    t.position = n ∧ t'.position = n'

/-- The runs on two streams, as long as what is left of them is alike and lies behind equally many
items. -/
def relaid (s s' : TokenStream) : Coupling where
  Ahead r r' := r.Alike r' ∧ r.ending = s.ending ∧ r'.ending = s'.ending ∧
    ∃ k, r.items = s.items.drop k ∧ r'.items = s'.items.drop k
  Place := s.SamePlace s'
  Lexical f f' := s.ending = .error f ∧ s'.ending = .error f'
  Apart _ := False
  next_ok := by
    rintro r r' t q ⟨halike, he, he', k, hk, hk'⟩ h
    rcases TokenStream.next_eq_ok.mp h with rfl | ⟨n, rfl, rfl, rfl⟩
    · obtain ⟨t', q', rfl, ht, hq⟩ := halike.of_cons
      obtain ⟨hi, hrest⟩ := getElem?_of_drop_eq_cons hk
      obtain ⟨hi', hrest'⟩ := getElem?_of_drop_eq_cons hk'
      refine ⟨t'.position, q', ?_, ⟨k, t, t', hi, hi', rfl, rfl⟩, hq, he, he', k + 1, hrest,
        hrest'⟩
      rw [← ht, TokenStream.next_cons]
    · obtain ⟨n', rfl⟩ := halike.of_ending
      obtain ⟨hi, -⟩ := getElem?_of_drop_eq_cons hk
      obtain ⟨hi', -⟩ := getElem?_of_drop_eq_cons hk'
      exact ⟨n', _, rfl, ⟨k, _, _, hi, hi', rfl, rfl⟩, halike, he, he', k, hk, hk'⟩
  next_error := by
    rintro r r' f q ⟨halike, he, he', k, hk, hk'⟩ h
    obtain ⟨rfl, rfl⟩ := TokenStream.next_eq_error.mp h
    obtain ⟨f', rfl⟩ := halike.of_fault
    exact .inr ⟨f', _, rfl, ⟨he.symm, he'.symm⟩, halike, he, he', k, hk, hk'⟩

/-- The results that one statement has in two texts: the same, or each text's own foreign
character, or one fault at the items of one index. -/
inductive Corresponds (text text' : String) {α : Type} :
    Except Fault α → Except Fault α → Prop where
  | ok (a : α) : Corresponds text text' (.ok a) (.ok a)
  | lexical {f f' : LexFault} (h : (Cursor.ofString text).stream.ending = .error f)
      (h' : (Cursor.ofString text').stream.ending = .error f') :
      Corresponds text text' (.error (.lexical f)) (.error (.lexical f'))
  | grammatical {g : SyntaxFault} {i : Nat} {t t' : Token} (h : (items text)[i]? = some t)
      (h' : (items text')[i]? = some t') (hg : g.position = t.position) :
      Corresponds text text' (.error (.grammatical g))
        (.error (.grammatical (g.moveTo t'.position)))
  | arithmetic (f : RunFault) :
      Corresponds text text' (.error (.arithmetic f)) (.error (.arithmetic f))

section

variable {text text' : String}

/-- Texts with streams that are alike parse to results that correspond. -/
theorem corresponds_parse (h : (Cursor.ofString text).stream.Alike (Cursor.ofString text').stream) :
    Corresponds text text' (parse text) (parse text') := by
  rcases parse_cases text with ⟨g, hg, hparse⟩ | ⟨p, hp, hanswer⟩ <;>
    rcases parse_cases text' with ⟨g', hg', hparse'⟩ | ⟨p', hp', hanswer'⟩
  · rw [hparse, hparse']
    exact .lexical (by rw [hg]) (by rw [hg'])
  · rw [hg] at h
    obtain ⟨f', hf'⟩ := h.of_fault
    obtain ⟨hat, -⟩ := Parser.start_eq_ok.mp hp'
    rw [hf'] at hat
    cases hat
  · rw [hg'] at h
    obtain ⟨f, hf⟩ := h.symm.of_fault
    obtain ⟨hat, -⟩ := Parser.start_eq_ok.mp hp
    rw [hf] at hat
    cases hat
  · obtain ⟨hat, hn⟩ := Parser.start_eq_ok.mp hp
    obtain ⟨hat', hn'⟩ := Parser.start_eq_ok.mp hp'
    have hcouples := Coupling.couples_of_at
      (C := relaid (Cursor.ofString text).stream (Cursor.ofString text').stream)
      ⟨h, rfl, rfl, 0, rfl, rfl⟩ hat hat' (hn'.trans hn.symm)
    rw [hanswer, hanswer']
    rcases hcouples.answer_cases with ⟨t, ht, ht'⟩ | ⟨f, f', hf, hf', hsame⟩ | ⟨f, hapart, -⟩
    · rw [ht, ht']
      exact .ok t
    · rw [hf, hf']
      cases hsame with
      | lexical hl => exact .lexical hl.1 hl.2
      | grammatical hplace =>
        obtain ⟨i, t, t', hi, hi', hg, rfl⟩ := hplace
        rw [← items_eq_items_stream] at hi hi'
        exact .grammatical hi hi' hg.symm
    · exact absurd hapart id

theorem execute_of_parse_eq_error {f : Fault} (h : parse text = .error f) :
    execute text = .error f := by
  unfold execute EStateM.run
  rw [Session.run_of_parse_eq_error h]

theorem execute_of_parse_eq_ok {t : Tree} (h : parse text = .ok t) :
    (∃ o, execute text = .ok o) ∨ ∃ f, execute text = .error (.arithmetic f) := by
  unfold execute EStateM.run
  rw [Session.run_of_parse_eq_ok h, Session.interpret_eq]
  cases t.eval Store.empty with
  | ok n s => exact .inl ⟨_, rfl⟩
  | error f s => exact .inr ⟨f, rfl⟩

/-- What texts are run to corresponds if what they are parsed to does. -/
theorem Corresponds.execute (h : Corresponds text text' (parse text) (parse text')) :
    Corresponds text text' (execute text) (execute text') := by
  generalize hx : parse text = x at h
  generalize hx' : parse text' = x' at h
  cases h with
  | ok t =>
    rw [← execute_congr (hx.trans hx'.symm)]
    rcases execute_of_parse_eq_ok hx with ⟨o, ho⟩ | ⟨f, hf⟩
    · rw [ho]
      exact .ok o
    · rw [hf]
      exact .arithmetic f
  | lexical h h' =>
    rw [execute_of_parse_eq_error hx, execute_of_parse_eq_error hx']
    exact .lexical h h'
  | grammatical h h' hg =>
    rw [execute_of_parse_eq_error hx, execute_of_parse_eq_error hx']
    exact .grammatical h h' hg
  | arithmetic f =>
    rw [execute_of_parse_eq_error hx, execute_of_parse_eq_error hx']
    exact .arithmetic f

end

/-! ## Blanks -/

/-- The same fault at another place, if it has one. -/
def Fault.moveTo (position : Nat) : Fault → Fault
  | lexical f => lexical { f with position }
  | grammatical g => grammatical (g.moveTo position)
  | arithmetic f => arithmetic f

/-- The characters of a text without its blanks. -/
def nonblanks (text : String) : List Char := text.toList.filter fun c => !isBlank c

/-- The foreign character that a stream ends with, if it does. -/
def TokenStream.foreign? (s : TokenStream) : Option Char :=
  match s.ending with
  | .ok _ => none
  | .error f => some f.character

theorem Cursor.foreign?_stream (c : Cursor) : c.stream.foreign? = c.rest.find? isForeign := by
  have hend := c.endsAs
  unfold TokenStream.foreign?
  cases he : c.stream.ending with
  | ok n =>
    rw [he] at hend
    refine (List.find?_eq_none.mpr fun x hx => ?_).symm
    rw [hend.2 x hx]
    exact Bool.false_ne_true
  | error f =>
    rw [he] at hend
    obtain ⟨clean, tail, hrest, hclean, hf, -⟩ := hend
    have hnone : clean.find? isForeign = none := List.find?_eq_none.mpr fun x hx => by
      rw [hclean x hx]
      exact Bool.false_ne_true
    rw [hrest, List.find?_append, hnone, List.find?_cons_of_pos hf]
    rfl

/-- Blanks make no difference to the first foreign character. -/
theorem find?_isForeign_nonblanks (text : String) :
    (nonblanks text).find? isForeign = text.toList.find? isForeign := by
  rw [nonblanks, List.find?_filter]
  refine List.find?_congr fun c _ => ?_
  cases hc : isForeign c with
  | false => simp
  | true => simp [Cursor.not_blank_of_foreign hc]

section

variable {text text' : String}

theorem foreign?_of_nonblanks (h : nonblanks text = nonblanks text') :
    (Cursor.ofString text).stream.foreign? = (Cursor.ofString text').stream.foreign? := by
  rw [Cursor.foreign?_stream, Cursor.foreign?_stream]
  exact ((find?_isForeign_nonblanks text).symm.trans (congrArg _ h)).trans
    (find?_isForeign_nonblanks text')

theorem TokenStream.Alike.of_foreign? {s s' : TokenStream}
    (hw : s.tokens.map Token.word = s'.tokens.map Token.word) (h : s.foreign? = s'.foreign?) :
    s.Alike s' := by
  obtain ⟨tokens, ending⟩ := s
  obtain ⟨tokens', ending'⟩ := s'
  refine ⟨hw, ?_⟩
  cases ending <;> cases ending' <;> first | rfl | cases h

/-- Results that correspond are equal but for the place of a fault, if the foreign characters of
the texts are equal. -/
theorem Corresponds.exists_moveTo {α : Type} {x x' : Except Fault α}
    (h : Corresponds text text' x x')
    (hforeign : (Cursor.ofString text).stream.foreign? = (Cursor.ofString text').stream.foreign?) :
    ∃ n, x' = x.mapError (Fault.moveTo n) := by
  cases h with
  | ok a => exact ⟨0, rfl⟩
  | @lexical f f' h h' =>
    simp only [TokenStream.foreign?, h, h', Option.some.injEq] at hforeign
    refine ⟨f'.position, ?_⟩
    show _ = Except.error (Fault.lexical ⟨f.character, f'.position⟩)
    rw [hforeign]
  | @grammatical g i t t' h h' hg => exact ⟨t'.position, rfl⟩
  | arithmetic f => exact ⟨0, rfl⟩

end

/-- Texts whose tokens have the same kinds and texts in the same order, and which end alike, are
parsed and run to the same result, or to faults of one kind and content at the items of one index,
or each to its own foreign character. If the texts differ in their blanks only, and their tokens
are the same, then nothing but the place of a fault can differ. -/
theorem layout_independent (text text' : String) :
    ((Cursor.ofString text).stream.Alike (Cursor.ofString text').stream →
      Corresponds text text' (parse text) (parse text') ∧
        Corresponds text text' (execute text) (execute text')) ∧
    (nonblanks text = nonblanks text' →
      (Cursor.ofString text).stream.tokens.map Token.word =
        (Cursor.ofString text').stream.tokens.map Token.word →
      (∃ n, parse text' = (parse text).mapError (Fault.moveTo n)) ∧
        ∃ n, execute text' = (execute text).mapError (Fault.moveTo n)) := by
  refine ⟨fun h => ⟨corresponds_parse h, (corresponds_parse h).execute⟩, fun hb hw => ?_⟩
  have hforeign := foreign?_of_nonblanks hb
  have hparse := corresponds_parse (.of_foreign? hw hforeign)
  exact ⟨hparse.exists_moveTo hforeign, hparse.execute.exists_moveTo hforeign⟩

/-- A fault that stands further on in the second text, each text having a foreign character of its
own behind it; and a division by zero, written in two ways. -/
theorem layout_independent_spaced :
    parse "x=(1+;$" = .error (.grammatical (.unexpectedFactor "`;`" 5)) ∧
    Corresponds "x=(1+;$" " x = ( 1\t+ ; #" (parse "x=(1+;$") (parse " x = ( 1\t+ ; #") ∧
    execute "x=7/0;y" = .error (.arithmetic .divisionByZero) ∧
    ∃ n, execute "x = 7\n/ 0 ; y " = (execute "x=7/0;y").mapError (Fault.moveTo n) := by
  have halike : (Cursor.ofString "x=(1+;$").stream.Alike
      (Cursor.ofString " x = ( 1\t+ ; #").stream := ⟨by decide +kernel, by decide +kernel⟩
  have hparse : parse "x=7/0;y" =
      .ok (.assign "x" (.binary .divide (.number 7) (.number 0))) := by decide +kernel
  obtain ⟨hcorr, -⟩ := (layout_independent _ _).1 halike
  obtain ⟨-, hexecute⟩ := (layout_independent "x=7/0;y" "x = 7\n/ 0 ; y ").2
    (by decide +kernel) (by decide +kernel)
  refine ⟨by decide +kernel, hcorr, ?_, hexecute⟩
  unfold execute EStateM.run
  rw [Session.run_of_parse_eq_ok hparse]
  rfl

end Reckon
