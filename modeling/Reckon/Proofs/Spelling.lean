import Reckon.Proofs.Lexing

/-!
  Texts as rows of blanks and lexemes. `Spells n cs ts` says, without any way of reading, that the
  characters `cs`, the first of them at index `n`, are the tokens `ts` with blanks around them,
  each token being as long as it can. `spells_stream` and `Spells.stream_eq` say that a cursor
  reads exactly these tokens. `Spells.scans_append` reads such a row in front of more characters,
  and `exists_spells_of_stream` cuts a row off behind any token of a stream.

  `charInduction` is induction over what a cursor meets next: the end of the text, a blank, a
  lexeme or a foreign character. How a stream ends is settled by the first foreign character, if
  there is one (`Cursor.endsAs`, `EndsAs.unique`).
-/

namespace Reckon

open Cursor (Ends Scans)

/-- A token of this kind ends before these characters: they cannot make it longer. -/
def Token.Kind.EndsBefore (k : Token.Kind) (cs : List Char) : Prop :=
  (k = .identifier → Ends isWordPart cs) ∧ (k = .number → Ends isDigit cs)

/-- The index behind the last character of a token. -/
def Token.stop (t : Token) : Nat := t.position + t.text.length

/-! ## The first lexeme -/

theorem Token.Kind.endsBefore_nil (k : Token.Kind) : k.EndsBefore [] :=
  ⟨fun _ => Cursor.ends_nil _, fun _ => Cursor.ends_nil _⟩

/-- In front of a character that is in no word every token ends. -/
theorem Token.Kind.endsBefore_cons (k : Token.Kind) {x : Char} (h : isWordPart x = false)
    (cs : List Char) : k.EndsBefore (x :: cs) :=
  have hends := Cursor.ends_cons h cs
  ⟨fun _ => hends, fun _ => hends.digit⟩

/-- Whether a token ends depends on the next character only. -/
theorem Token.Kind.EndsBefore.of_append {k : Token.Kind} {cs ds : List Char}
    (h : k.EndsBefore (cs ++ ds)) : k.EndsBefore cs := by
  cases cs with
  | nil => exact k.endsBefore_nil
  | cons c cs => exact h

theorem Cursor.ends_dropWhile (p : Char → Bool) (cs : List Char) : Ends p (cs.dropWhile p) := by
  intro x hx
  have h := List.head?_dropWhile_not p cs
  rw [Option.mem_def.mp hx] at h
  simpa using h

theorem Lexeme.endsBefore_rest {cs : List Char} {l : Lexeme} (h : first? cs = some l) :
    l.kind.EndsBefore l.rest := by
  cases cs with
  | nil => simp [first?] at h
  | cons c cs =>
    simp only [first?] at h
    split at h
    · cases h
      exact ⟨fun _ => Cursor.ends_dropWhile _ _, by simp⟩
    · split at h
      · cases h
        exact ⟨by simp, fun _ => Cursor.ends_dropWhile _ _⟩
      · obtain ⟨k, hk, rfl⟩ := Option.map_eq_some_iff.mp h
        have hm := Token.Kind.ofMark?_eq_some_iff.mp hk
        refine ⟨fun h => ?_, fun h => ?_⟩
        · simp only at h
          rw [h] at hm
          cases hm
        · simp only at h
          rw [h] at hm
          cases hm

/-- A text that fits its kind is the first lexeme in front of characters that it ends before. -/
theorem Lexeme.first?_append {t : Token} (ht : t.WellSpelt) {cs : List Char}
    (h : t.kind.EndsBefore cs) :
    first? (t.text.toList ++ cs) = some ⟨t.kind, t.text.toList, cs⟩ := by
  obtain ⟨k, s, n⟩ := t
  cases k with
  | identifier =>
    obtain ⟨x, w, hs, hx, hw⟩ := ht
    obtain ⟨htake, hdrop⟩ := Cursor.takeWhile_append_of_ends hw (h.1 rfl)
    simp only [hs, List.cons_append]
    rw [first?_letter hx, htake, hdrop]
  | number =>
    obtain ⟨x, w, hs, hx, hw⟩ := ht
    obtain ⟨htake, hdrop⟩ := Cursor.takeWhile_append_of_ends hw (h.2 rfl)
    simp only [hs, List.cons_append]
    rw [first?_digit hx, htake, hdrop]
  | _ =>
    obtain ⟨c, hm, hs⟩ := ht
    simp only at hs
    rw [hs]
    exact first?_mark (Token.Kind.ofMark?_eq_some_iff.mpr hm) cs

theorem Token.WellSpelt.text_ne_nil {t : Token} (h : t.WellSpelt) : t.text.toList ≠ [] := by
  have hfirst := Lexeme.first?_append h t.kind.endsBefore_nil
  exact Lexeme.text_ne_nil hfirst

theorem Token.WellSpelt.length_pos {t : Token} (h : t.WellSpelt) : 0 < t.text.length := by
  rw [← String.length_toList]
  exact List.length_pos_iff.mpr h.text_ne_nil

theorem Token.WellSpelt.kind_ne_ending {t : Token} (h : t.WellSpelt) : t.kind ≠ .ending := by
  have hfirst := Lexeme.first?_append h t.kind.endsBefore_nil
  exact Lexeme.kind_ne_ending hfirst

theorem Token.Kind.isMark_of_mark? {k : Token.Kind} {c : Char} (h : k.mark? = some c) :
    isMark c = true := by
  rw [← isSome_ofMark?, ofMark?_eq_some_iff.mpr h]
  rfl

/-- A token is made of letters, digits and marks. -/
theorem Token.WellSpelt.wordPart_or_mark {t : Token} (h : t.WellSpelt) :
    ∀ x ∈ t.text.toList, isWordPart x = true ∨ isMark x = true := by
  obtain ⟨k, s, p⟩ := t
  cases k with
  | identifier => exact fun x hx => .inl (IsName.wordPart h x hx)
  | number => exact fun x hx => .inl (wordPart_of_digit (IsNumeral.digit h x hx))
  | _ =>
    obtain ⟨c, hm, hs⟩ := h
    simp only at hs
    rw [hs, List.forall_mem_singleton]
    exact .inr (Token.Kind.isMark_of_mark? hm)

/-! ## What a cursor meets -/

/-- Induction over the characters in front of a cursor, lexeme by lexeme. -/
theorem charInduction {motive : List Char → Nat → Prop} (nil : ∀ n, motive [] n)
    (blank : ∀ x cs n, isBlank x = true → motive cs (n + 1) → motive (x :: cs) n)
    (lexeme : ∀ cs l n, Lexeme.first? cs = some l → motive l.rest (n + l.text.length) →
      motive cs n)
    (foreign : ∀ x cs n, isForeign x = true → motive (x :: cs) n) (cs : List Char) (n : Nat) :
    motive cs n := by
  induction hlen : cs.length using Nat.strong_induction_on generalizing cs n with
  | h m ih =>
    cases cs with
    | nil => exact nil n
    | cons x cs =>
      cases hb : isBlank x with
      | true =>
        rw [List.length_cons] at hlen
        exact blank x cs n hb (ih cs.length (by omega) cs (n + 1) rfl)
      | false =>
        cases hl : Lexeme.first? (x :: cs) with
        | none => exact foreign x cs n ((Lexeme.first?_cons_eq_none_iff hb).mp hl)
        | some l =>
          have hlt := Lexeme.length_rest_lt hl
          exact lexeme _ l n hl (ih _ (by omega) l.rest _ rfl)

namespace Cursor

theorem not_blank_of_foreign {x : Char} (h : isForeign x = true) : isBlank x = false := by
  simp only [isForeign, Bool.not_eq_eq_eq_not, Bool.not_true, Bool.or_eq_false_iff] at h
  exact h.1.1.1

theorem stream_foreign {x : Char} (h : isForeign x = true) (cs : List Char) (n : Nat) :
    (mk (x :: cs) n).stream = ⟨[], .error ⟨x, n⟩⟩ := by
  have hb := not_blank_of_foreign h
  have hread : read ⟨x :: cs, n⟩ = .error ⟨x, n⟩ ⟨x :: cs, n⟩ := by
    show readHere (skipBlanks ⟨x :: cs, n⟩) = _
    rw [skipBlanks_of_not_blank hb]
    simp only [readHere, (Lexeme.first?_cons_eq_none_iff hb).mpr h]
  rw [stream_eq, hread]

theorem Scans.refl (c : Cursor) : Scans c [] c := rfl

end Cursor

/-! ## Rows of blanks and lexemes -/

/-- The characters from index `n` on are these tokens, in order, with blanks around them. -/
inductive Spells : Nat → List Char → List Token → Prop where
  | nil (n : Nat) : Spells n [] []
  | blank {n : Nat} {x : Char} {cs : List Char} {ts : List Token} (hx : isBlank x = true)
      (h : Spells (n + 1) cs ts) : Spells n (x :: cs) ts
  | token {t : Token} {cs : List Char} {ts : List Token} (ht : t.WellSpelt)
      (he : t.kind.EndsBefore cs) (h : Spells t.stop cs ts) :
      Spells t.position (t.text.toList ++ cs) (t :: ts)

/-- The lexeme at the front makes a token of a row. -/
theorem Spells.lexeme {n : Nat} {cs ds : List Char} {ts : List Token} {l : Lexeme}
    (hl : Lexeme.first? cs = some l) (hd : l.kind.EndsBefore ds)
    (h : Spells (n + l.text.length) ds ts) :
    Spells n (l.text ++ ds) (⟨l.kind, String.ofList l.text, n⟩ :: ts) := by
  have hstop : (Token.mk l.kind (String.ofList l.text) n).stop = n + l.text.length := by
    simp [Token.stop]
  have hrow := @Spells.token ⟨l.kind, String.ofList l.text, n⟩ ds ts (Lexeme.wellSpelt hl n) hd
    (hstop ▸ h)
  rwa [String.toList_ofList] at hrow

/-- A text that is read to its end is a row of the tokens that were read. -/
theorem spells_stream (cs : List Char) (n : Nat) :
    ∀ m, (Cursor.mk cs n).stream.ending = .ok m → Spells n cs (Cursor.mk cs n).stream.tokens := by
  induction cs, n using charInduction with
  | nil n =>
    intro m _
    rw [Cursor.stream_nil]
    exact .nil n
  | blank x cs n hx ih =>
    intro m hm
    rw [Cursor.scans_blank hx] at hm ⊢
    exact .blank hx (ih m hm)
  | lexeme cs l n hl ih =>
    intro m hm
    rw [Cursor.scans_lexeme hl] at hm ⊢
    have hrow := Spells.lexeme hl (Lexeme.endsBefore_rest hl) (ih m hm)
    rwa [Lexeme.text_append_rest hl] at hrow
  | foreign x cs n hx =>
    intro m hm
    rw [Cursor.stream_foreign hx] at hm
    cases hm

/-- The last of the tokens, if it reaches up to the index, ends before the characters. -/
def EndBefore (ts : List Token) (stop : Nat) (cs : List Char) : Prop :=
  ∀ t ∈ ts.getLast?, t.stop = stop → t.kind.EndsBefore cs

theorem endBefore_nil (ts : List Token) (stop : Nat) : EndBefore ts stop [] :=
  fun t _ _ => t.kind.endsBefore_nil

theorem Spells.ts_eq_nil {n : Nat} {ts : List Token} (h : Spells n [] ts) : ts = [] := by
  generalize hcs : ([] : List Char) = cs at h
  cases h with
  | nil n => rfl
  | blank hx h => cases hcs
  | token ht he h => exact absurd (List.append_eq_nil_iff.mp hcs.symm).1 ht.text_ne_nil

/-- In front of more characters that do not go on with its last token, a row is read as its
tokens. The induction is on the row; only a token at its very end meets the new characters. -/
theorem Spells.scans_append {n : Nat} {w : List Char} {ts : List Token} (h : Spells n w ts)
    {cs : List Char} (hcs : EndBefore ts (n + w.length) cs) :
    Scans ⟨w ++ cs, n⟩ ts ⟨cs, n + w.length⟩ := by
  induction h with
  | nil n => exact Scans.refl _
  | @blank n x w ts hx h ih =>
    have hlen : n + (x :: w).length = n + 1 + w.length := by rw [List.length_cons]; omega
    rw [hlen] at hcs ⊢
    exact (ih hcs).blank hx
  | @token t w ts ht he h ih =>
    have hlen : t.position + (t.text.toList ++ w).length = t.stop + w.length := by
      rw [List.length_append, String.length_toList, Token.stop]
      omega
    rw [hlen] at hcs ⊢
    have hend : t.kind.EndsBefore (w ++ cs) := by
      cases w with
      | nil =>
        have hts := h.ts_eq_nil
        subst hts
        exact hcs t rfl rfl
      | cons x w => exact he
    have hrest : EndBefore ts (t.stop + w.length) cs := by
      intro u hu hstop
      refine hcs u ?_ hstop
      rw [List.getLast?_cons, Option.mem_def.mp hu]
      rfl
    have hscan := @Cursor.scans_lexeme _ t.position _ (Lexeme.first?_append ht hend)
    rw [List.append_assoc]
    simp only [String.ofList_toList, String.length_toList] at hscan
    exact hscan.append (ih hrest)

/-- The tokens of a row are what a cursor reads, up to the end of the text. -/
theorem Spells.stream_eq {n : Nat} {cs : List Char} {ts : List Token} (h : Spells n cs ts) :
    (Cursor.mk cs n).stream = ⟨ts, .ok (n + cs.length)⟩ := by
  have hscan := h.scans_append (endBefore_nil ts _)
  rw [List.append_nil] at hscan
  rw [hscan, Cursor.stream_nil]
  simp [TokenStream.prepend]

/-- Up to the end of any token of its stream, a text is a row. -/
theorem exists_spells_of_stream (cs : List Char) (n : Nat) :
    ∀ ts t rest, (Cursor.mk cs n).stream.tokens = ts ++ t :: rest →
      ∃ w tail, cs = w ++ tail ∧ n + w.length = t.stop ∧ Spells n w (ts ++ [t]) := by
  induction cs, n using charInduction with
  | nil n =>
    intro ts t rest h
    simp [Cursor.stream_nil] at h
  | blank x cs n hx ih =>
    intro ts t rest h
    rw [Cursor.scans_blank hx] at h
    obtain ⟨w, tail, rfl, hw, hrow⟩ := ih ts t rest h
    exact ⟨x :: w, tail, rfl, by rw [← hw, List.length_cons]; omega, .blank hx hrow⟩
  | lexeme cs l n hl ih =>
    intro ts t rest h
    rw [Cursor.scans_lexeme hl] at h
    simp only [TokenStream.prepend, List.cons_append, List.nil_append] at h
    cases ts with
    | nil =>
      obtain ⟨rfl, -⟩ := List.cons.inj h
      have hrow := Spells.lexeme hl l.kind.endsBefore_nil (.nil (n + l.text.length))
      rw [List.append_nil] at hrow
      exact ⟨l.text, l.rest, (Lexeme.text_append_rest hl).symm, by simp [Token.stop], hrow⟩
    | cons u ts =>
      obtain ⟨rfl, htail⟩ := List.cons.inj h
      obtain ⟨w, tail, hrest, hw, hrow⟩ := ih ts t rest htail
      have hend : l.kind.EndsBefore w := by
        have he := Lexeme.endsBefore_rest hl
        rw [hrest] at he
        exact he.of_append
      refine ⟨l.text ++ w, tail, ?_, ?_, Spells.lexeme hl hend hrow⟩
      · rw [List.append_assoc, ← hrest, Lexeme.text_append_rest hl]
      · rw [List.length_append]
        omega
  | foreign x cs n hx =>
    intro ts t rest h
    simp [Cursor.stream_foreign hx] at h

/-! ## The end of a stream -/

theorem not_foreign_of_blank {x : Char} (h : isBlank x = true) : isForeign x = false := by
  simp [isForeign, h]

theorem not_foreign_of_wordPart_or_mark {x : Char} (h : isWordPart x = true ∨ isMark x = true) :
    isForeign x = false := by
  rcases h with h | h
  · simp only [isWordPart, Bool.or_eq_true] at h
    rcases h with h | h <;> simp [isForeign, h]
  · simp [isForeign, h]

/-- A stream of these characters, the first of them at index `n`, should end like this: with the
first foreign one or, if there is none, with the text. -/
def EndsAs (n : Nat) (cs : List Char) : Except LexFault Nat → Prop
  | .ok m => m = n + cs.length ∧ ∀ x ∈ cs, isForeign x = false
  | .error f => ∃ clean tail, cs = clean ++ f.character :: tail ∧
      (∀ x ∈ clean, isForeign x = false) ∧ isForeign f.character = true ∧
      f.position = n + clean.length

/-- More characters in front make no difference if none of them is foreign. -/
theorem EndsAs.append {n : Nat} {w cs : List Char} {e : Except LexFault Nat}
    (h : EndsAs (n + w.length) cs e) (hw : ∀ x ∈ w, isForeign x = false) :
    EndsAs n (w ++ cs) e := by
  cases e with
  | ok m =>
    obtain ⟨rfl, hcs⟩ := h
    exact ⟨by rw [List.length_append, Nat.add_assoc], List.forall_mem_append.mpr ⟨hw, hcs⟩⟩
  | error f =>
    obtain ⟨clean, tail, rfl, hclean, hf, hp⟩ := h
    refine ⟨w ++ clean, tail, (List.append_assoc _ _ _).symm, ?_, hf, ?_⟩
    · exact List.forall_mem_append.mpr ⟨hw, hclean⟩
    · rw [hp, List.length_append, Nat.add_assoc]

theorem Cursor.endsAs (c : Cursor) : EndsAs c.position c.rest c.stream.ending := by
  obtain ⟨cs, n⟩ := c
  show EndsAs n cs (mk cs n).stream.ending
  induction cs, n using charInduction with
  | nil n =>
    rw [stream_nil]
    exact ⟨rfl, by simp⟩
  | blank x cs n hx ih =>
    rw [scans_blank hx]
    exact EndsAs.append (w := [x]) ih (List.forall_mem_singleton.mpr (not_foreign_of_blank hx))
  | lexeme cs l n hl ih =>
    have hw := (Lexeme.wellSpelt hl n).wordPart_or_mark
    simp only [String.toList_ofList] at hw
    have hcs := ih.append fun x hx => not_foreign_of_wordPart_or_mark (hw x hx)
    rw [Lexeme.text_append_rest hl] at hcs
    rw [scans_lexeme hl]
    exact hcs
  | foreign x cs n hx =>
    rw [stream_foreign hx]
    exact ⟨[], cs, rfl, by simp, hx, rfl⟩

/-- The fault of a stream stands behind the characters that are not foreign. -/
theorem EndsAs.dropWhile_eq {n : Nat} {cs : List Char} {f : LexFault} (h : EndsAs n cs (.error f)) :
    (∃ tail, cs.dropWhile (fun x => !isForeign x) = f.character :: tail) ∧
      f.position = n + (cs.takeWhile fun x => !isForeign x).length := by
  obtain ⟨clean, tail, rfl, hclean, hf, hp⟩ := h
  have hends : Cursor.Ends (fun x => !isForeign x) (f.character :: tail) :=
    Cursor.ends_cons (by simp [hf]) tail
  obtain ⟨htake, hdrop⟩ := Cursor.takeWhile_append_of_ends (w := clean)
    (fun x hx => by simp [hclean x hx]) hends
  rw [htake, hdrop]
  exact ⟨⟨tail, rfl⟩, hp⟩

/-- A stream does not end with the text as well as with a fault. -/
theorem EndsAs.not_error {n m : Nat} {cs : List Char} {f : LexFault} (h : EndsAs n cs (.ok m)) :
    ¬EndsAs n cs (.error f) := by
  rintro ⟨clean, tail, rfl, -, hf, -⟩
  have hclean := h.2 f.character (by simp)
  rw [hf] at hclean
  cases hclean

/-- The characters determine how a stream of them ends. -/
theorem EndsAs.unique {n : Nat} {cs : List Char} {e e' : Except LexFault Nat} (h : EndsAs n cs e)
    (h' : EndsAs n cs e') : e = e' := by
  cases e with
  | ok m =>
    cases e' with
    | ok m' => rw [h.1, h'.1]
    | error f' => exact absurd h' h.not_error
  | error f =>
    cases e' with
    | ok m' => exact absurd h h'.not_error
    | error f' =>
      obtain ⟨⟨tail, hdrop⟩, hp⟩ := h.dropWhile_eq
      obtain ⟨⟨tail', hdrop'⟩, hp'⟩ := h'.dropWhile_eq
      have hc : f.character = f'.character := (List.cons.inj (hdrop.symm.trans hdrop')).1
      have hn : f.position = f'.position := hp.trans hp'.symm
      cases f
      cases f'
      simp only at hc hn
      rw [hc, hn]

/-- A stream that ends with the text ends at its last character. -/
theorem Cursor.ending_eq {c : Cursor} {m : Nat} (h : c.stream.ending = .ok m) :
    m = c.position + c.rest.length := by
  have hend := c.endsAs
  rw [h] at hend
  exact hend.1

end Reckon
