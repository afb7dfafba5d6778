import Mathlib.Data.List.TakeWhile
import Reckon.TokenStream

/-!
  The tokens of a text, piece by piece. `c.Scans ts c'` says that the stream at `c` consists of the
  tokens `ts` and the stream at `c'`, so what is known of the pieces of a text is put together with
  `Scans.append`. A blank scans as nothing, a mark as its token, and a word or a row of digits as
  one token if what follows cannot make it longer. `wellSpelt_of_mem_stream` goes the other way:
  each token of a stream has a text that fits its kind.
-/

namespace Reckon

/-! ## Spelling -/

/-- A letter, and then letters and digits. -/
def IsName (s : String) : Prop :=
  ∃ c cs, s.toList = c :: cs ∧ isLetter c = true ∧ ∀ x ∈ cs, isWordPart x = true

/-- One digit or more. -/
def IsNumeral (s : String) : Prop :=
  ∃ c cs, s.toList = c :: cs ∧ isDigit c = true ∧ ∀ x ∈ cs, isDigit x = true

theorem IsName.wordPart {s : String} (h : IsName s) : ∀ x ∈ s.toList, isWordPart x = true := by
  obtain ⟨c, cs, hs, hc, hcs⟩ := h
  rw [hs]
  exact List.forall_mem_cons.mpr ⟨wordPart_of_letter hc, hcs⟩

theorem IsNumeral.digit {s : String} (h : IsNumeral s) : ∀ x ∈ s.toList, isDigit x = true := by
  obtain ⟨c, cs, hs, hc, hcs⟩ := h
  rw [hs]
  exact List.forall_mem_cons.mpr ⟨hc, hcs⟩

/-- The text of a token is one that its kind can have. -/
def Token.WellSpelt (t : Token) : Prop :=
  match t.kind with
  | .identifier => IsName t.text
  | .number => IsNumeral t.text
  | k => ∃ c, k.mark? = some c ∧ t.text.toList = [c]

/-- A lexeme has the spelling of its kind. -/
theorem Lexeme.wellSpelt {cs : List Char} {l : Lexeme} (h : first? cs = some l) (position : Nat) :
    Token.WellSpelt ⟨l.kind, String.ofList l.text, position⟩ := by
  cases cs with
  | nil => simp [first?] at h
  | cons c cs =>
    simp only [first?] at h
    split at h
    · next hc => cases h; exact ⟨c, _, String.toList_ofList, hc, fun x => List.mem_takeWhile_imp⟩
    · split at h
      · next hc => cases h; exact ⟨c, _, String.toList_ofList, hc, fun x => List.mem_takeWhile_imp⟩
      · obtain ⟨k, hk, rfl⟩ := Option.map_eq_some_iff.mp h
        have hm := Token.Kind.ofMark?_eq_some_iff.mp hk
        cases k with
        | identifier | number => cases hm
        | _ => exact ⟨c, hm, String.toList_ofList⟩

/-- No lexeme starts with a blank. -/
theorem Lexeme.not_blank_of_first? {c : Char} {cs : List Char} {l : Lexeme}
    (h : first? (c :: cs) = some l) : isBlank c = false := by
  simp only [first?] at h
  split at h
  · next hc => exact not_blank_of_letter hc
  · split at h
    · next hc => exact not_blank_of_digit hc
    · obtain ⟨k, hk, -⟩ := Option.map_eq_some_iff.mp h
      apply not_blank_of_mark
      rw [← Token.Kind.isSome_ofMark?, hk]
      rfl

namespace Cursor

theorem skipBlanks_of_not_blank {c : Char} (h : isBlank c = false) (cs : List Char)
    (position : Nat) : skipBlanks ⟨c :: cs, position⟩ = ⟨c :: cs, position⟩ := by
  simp [skipBlanks, h]

theorem skipBlanks_of_blank {c : Char} (h : isBlank c = true) (cs : List Char) (position : Nat) :
    skipBlanks ⟨c :: cs, position⟩ = skipBlanks ⟨cs, position + 1⟩ := by
  simp only [skipBlanks, List.dropWhile_cons_of_pos h, List.takeWhile_cons_of_pos h,
    List.length_cons, Cursor.mk.injEq, true_and]
  omega

theorem read_of_first? {cs : List Char} {l : Lexeme} (h : Lexeme.first? cs = some l)
    (position : Nat) :
    read ⟨cs, position⟩ = .ok (token ⟨cs, position⟩ l) (skip ⟨cs, position⟩ l) := by
  cases cs with
  | nil => simp [Lexeme.first?] at h
  | cons c cs =>
    show readHere (skipBlanks ⟨c :: cs, position⟩) = _
    rw [skipBlanks_of_not_blank (Lexeme.not_blank_of_first? h)]
    simp only [readHere, h]

/-- A token that is read is the ending or has the spelling of its kind. -/
theorem wellSpelt_of_read {c c' : Cursor} {t : Token} (h : c.read = .ok t c')
    (hk : t.kind ≠ .ending) : t.WellSpelt := by
  change readHere c.skipBlanks = .ok t c' at h
  unfold readHere at h
  split at h
  · cases h; exact absurd rfl hk
  · split at h
    · next hl => cases h; exact Lexeme.wellSpelt hl _
    · cases h

/-- Every token of a stream has the spelling of its kind. -/
theorem wellSpelt_of_mem_stream {t : Token} (c : Cursor) (h : t ∈ c.stream.tokens) :
    t.WellSpelt := by
  induction c using Cursor.stream.induct with
  | case1 c f c' hread => simp [stream_eq c, hread] at h
  | case2 c u c' hread hk => simp [stream_eq c, hread, hk] at h
  | case3 c u c' hread hk ih =>
    simp only [stream_eq c, hread, if_neg hk, TokenStream.cons, List.mem_cons] at h
    rcases h with rfl | h
    · exact wellSpelt_of_read hread hk
    · exact ih h

end Cursor

/-! ## Scanning -/

/-- Puts tokens in front. -/
def TokenStream.prepend (ts : List Token) (s : TokenStream) : TokenStream :=
  { s with tokens := ts ++ s.tokens }

namespace Cursor

/-- The stream at the one cursor is these tokens and then the stream at the other. -/
def Scans (c : Cursor) (ts : List Token) (c' : Cursor) : Prop :=
  c.stream = c'.stream.prepend ts

variable {c c' c'' : Cursor} {cs : List Char} {position : Nat}

theorem Scans.append {ts us : List Token} (h : Scans c ts c') (h' : Scans c' us c'') :
    Scans c (ts ++ us) c'' := by
  unfold Scans at h h' ⊢
  rw [h, h']
  simp [TokenStream.prepend]

theorem scans_blank {x : Char} (hx : isBlank x = true) :
    Scans ⟨x :: cs, position⟩ [] ⟨cs, position + 1⟩ := by
  have hread : read ⟨x :: cs, position⟩ = read ⟨cs, position + 1⟩ :=
    congrArg readHere (skipBlanks_of_blank hx cs position)
  unfold Scans
  rw [stream_eq, hread, ← stream_eq]
  rfl

/-- A blank in front of what is scanned. -/
theorem Scans.blank {x : Char} {ts : List Token} (hx : isBlank x = true)
    (h : Scans ⟨cs, position + 1⟩ ts c) : Scans ⟨x :: cs, position⟩ ts c :=
  (scans_blank hx).append h

theorem scans_lexeme {l : Lexeme} (h : Lexeme.first? cs = some l) :
    Scans ⟨cs, position⟩ [⟨l.kind, String.ofList l.text, position⟩]
      ⟨l.rest, position + l.text.length⟩ := by
  unfold Scans
  rw [stream_eq, read_of_first? h]
  exact if_neg (Lexeme.kind_ne_ending h)

theorem scans_mark {x : Char} {k : Token.Kind} (h : Token.Kind.ofMark? x = some k) :
    Scans ⟨x :: cs, position⟩ [⟨k, String.ofList [x], position⟩] ⟨cs, position + 1⟩ :=
  scans_lexeme (Lexeme.first?_mark h cs)

/-- A mark in front of what is scanned. -/
theorem Scans.mark {x : Char} {k : Token.Kind} {ts : List Token}
    (hx : Token.Kind.ofMark? x = some k) (h : Scans ⟨cs, position + 1⟩ ts c) :
    Scans ⟨x :: cs, position⟩ (⟨k, String.ofList [x], position⟩ :: ts) c :=
  (scans_mark hx).append h

/-- What follows does not go on with characters of this class. -/
def Ends (p : Char → Bool) (cs : List Char) : Prop := ∀ x ∈ cs.head?, p x = false

theorem ends_nil (p : Char → Bool) : Ends p [] := by
  intro x hx
  simp at hx

theorem ends_cons {p : Char → Bool} {x : Char} (h : p x = false) (cs : List Char) :
    Ends p (x :: cs) := by
  intro y hy
  rwa [← Option.some.inj hy]

theorem Ends.digit (h : Ends isWordPart cs) : Ends isDigit cs := by
  intro x hx
  have hw := h x hx
  simp only [isWordPart, Bool.or_eq_false_iff] at hw
  exact hw.2

theorem takeWhile_append_of_ends {p : Char → Bool} {w : List Char} (hw : ∀ x ∈ w, p x = true)
    (h : Ends p cs) : (w ++ cs).takeWhile p = w ∧ (w ++ cs).dropWhile p = cs := by
  have hcs : cs.takeWhile p = [] ∧ cs.dropWhile p = cs := by
    cases cs with
    | nil => exact ⟨rfl, rfl⟩
    | cons x cs => have hx := h x rfl; simp [hx]
  rw [List.takeWhile_append_of_pos hw, List.dropWhile_append_of_pos hw, hcs.1, hcs.2]
  exact ⟨List.append_nil w, rfl⟩

/-- A run of a class and what ends it are told apart in one way only. -/
theorem append_inj_of_ends {p : Char → Bool} {v w ds : List Char} (hv : ∀ x ∈ v, p x = true)
    (hw : ∀ x ∈ w, p x = true) (hcs : Ends p cs) (hds : Ends p ds) (h : v ++ cs = w ++ ds) :
    v = w ∧ cs = ds := by
  obtain ⟨htv, hdv⟩ := takeWhile_append_of_ends hv hcs
  obtain ⟨htw, hdw⟩ := takeWhile_append_of_ends hw hds
  rw [h] at htv hdv
  exact ⟨htv.symm.trans htw, hdv.symm.trans hdw⟩

/-- The longest run of a class after its first character is one token. -/
theorem scans_run {kind : Token.Kind} {p : Char → Bool} {x : Char} {w : List Char} {s : String}
    (hl : ∀ cs, Lexeme.first? (x :: cs) = some ⟨kind, x :: cs.takeWhile p, cs.dropWhile p⟩)
    (hs : s.toList = x :: w) (hw : ∀ y ∈ w, p y = true) (h : Ends p cs) :
    Scans ⟨s.toList ++ cs, position⟩ [⟨kind, s, position⟩] ⟨cs, position + s.toList.length⟩ := by
  obtain ⟨ht, hd⟩ := takeWhile_append_of_ends hw h
  have hfirst := hl (w ++ cs)
  rw [ht, hd] at hfirst
  have hscan := @scans_lexeme _ position _ hfirst
  rwa [← List.cons_append, ← hs, String.ofList_toList] at hscan

theorem scans_name {s : String} (hs : IsName s) (h : Ends isWordPart cs) :
    Scans ⟨s.toList ++ cs, position⟩ [⟨.identifier, s, position⟩]
      ⟨cs, position + s.toList.length⟩ := by
  obtain ⟨x, w, hsw, hx, hw⟩ := hs
  exact scans_run (Lexeme.first?_letter hx) hsw hw h

theorem scans_numeral {s : String} (hs : IsNumeral s) (h : Ends isDigit cs) :
    Scans ⟨s.toList ++ cs, position⟩ [⟨.number, s, position⟩]
      ⟨cs, position + s.toList.length⟩ := by
  obtain ⟨x, w, hsw, hx, hw⟩ := hs
  exact scans_run (Lexeme.first?_digit hx) hsw hw h

theorem stream_nil (position : Nat) : (Cursor.mk [] position).stream = ⟨[], .ok position⟩ := by
  rw [stream_eq]
  rfl

end Cursor

end Reckon
