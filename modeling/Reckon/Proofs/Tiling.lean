import Mathlib.Control.Monad.Basic
import Mathlib.Data.List.Chain
import Reckon.Proofs.Spelling

/-!
  Tokenizing as tiling. The tokens of a text are tiles on its characters: they lie in order and
  apart, each shows the characters that it covers, between them are blanks and under them none,
  and no word or number could be longer. `tokenize_eq_ok_iff_tiles` says that a text has one such
  tiling at most and that tokenizing finds it, or finds none because there is none.

  The conditions of `Tiles` look at one token or one index each. The proofs go from them to the row
  of blanks and lexemes that a cursor reads (`Spells`), from the left end of the text to the right,
  so the tiling starts at an index `n` here, which is zero for the whole text.
-/

namespace Reckon

/-- The token covers the character at an index. -/
def Token.Covers (t : Token) (i : Nat) : Prop := t.position ≤ i ∧ i < t.stop

/-- The tokens tile the text from the index `n` on. -/
structure Tiles (text : List Char) (n : Nat) (ts : List Token) : Prop where
  starts : ∀ t ∈ ts, n ≤ t.position
  /-- Each token starts at or after the end of the one before. -/
  ordered : ts.IsChain fun t u => t.stop ≤ u.position
  /-- The characters from a token's position on are its text. -/
  quoted : ∀ t ∈ ts, (text.drop t.position).take t.text.length = t.text.toList
  /-- The characters that no token covers are the blanks. -/
  blank_iff : ∀ i (hi : i < text.length), n ≤ i → (isBlank text[i] = true ↔ ∀ t ∈ ts, ¬t.Covers i)
  /-- The text of a token fits its kind. -/
  spelt : ∀ t ∈ ts, t.WellSpelt
  /-- A word is not followed by a letter or a digit, a number not by a digit. -/
  maximal : ∀ t ∈ ts, t.kind.EndsBefore (text.drop t.stop)

variable {text : List Char} {n : Nat} {t : Token} {ts : List Token}

/-! ## Order -/

theorem Token.WellSpelt.position_lt_stop (h : t.WellSpelt) : t.position < t.stop := by
  have hpos := h.length_pos
  rw [Token.stop]
  omega

/-- The tokens after the first one start at its end or later. -/
theorem stop_le_position_of_isChain (h : (t :: ts).IsChain fun t u => t.stop ≤ u.position) :
    ∀ u ∈ ts, t.stop ≤ u.position := by
  induction ts generalizing t with
  | nil => simp
  | cons v ts ih =>
    obtain ⟨hv, hts⟩ := List.isChain_cons_cons.mp h
    intro u hu
    rcases List.mem_cons.mp hu with rfl | hu
    · exact hv
    · have hle := ih hts u hu
      have hstop : v.position ≤ v.stop := Nat.le_add_right _ _
      omega

/-! ## From a tiling to a row of lexemes -/

namespace Tiles

theorem quoted_length (h : Tiles text n ts) (ht : t ∈ ts) : t.stop ≤ text.length := by
  have hquoted := congrArg List.length (h.quoted t ht)
  have hpos := (h.spelt t ht).length_pos
  rw [List.length_take, List.length_drop, String.length_toList] at hquoted
  rw [Token.stop]
  omega

/-- Behind the end of the text there is no room for a token. -/
theorem eq_nil (h : Tiles text n ts) (hn : text.length ≤ n) : ts = [] := by
  cases ts with
  | nil => rfl
  | cons t ts =>
    have hstart := h.starts t List.mem_cons_self
    have hstop := h.quoted_length List.mem_cons_self
    have hlt := (h.spelt t List.mem_cons_self).position_lt_stop
    omega

/-- A blank at the front is left out. -/
theorem tail_of_blank (h : Tiles text n ts) (hn : n < text.length)
    (hb : isBlank text[n] = true) : Tiles text (n + 1) ts := by
  have huncovered := (h.blank_iff n hn (Nat.le_refl n)).mp hb
  refine { h with starts := ?_, blank_iff := fun i hi hni => h.blank_iff i hi (by omega) }
  intro t ht
  have hstart := h.starts t ht
  have hlt := (h.spelt t ht).position_lt_stop
  have hne : t.position ≠ n := fun heq => huncovered t ht ⟨heq.le, heq ▸ hlt⟩
  omega

/-- A character at the front that is no blank starts the first token. -/
theorem exists_head (h : Tiles text n ts) (hn : n < text.length)
    (hb : isBlank text[n] = false) : ∃ t us, ts = t :: us ∧ t.position = n := by
  have hcovered : ∃ t ∈ ts, t.Covers n := by
    by_contra hnone
    have hblank := (h.blank_iff n hn (Nat.le_refl n)).mpr fun t ht hc => hnone ⟨t, ht, hc⟩
    rw [hblank] at hb
    cases hb
  obtain ⟨t, ht, hle, hlt⟩ := hcovered
  have hstart := h.starts t ht
  cases ts with
  | nil => cases ht
  | cons u us =>
    refine ⟨u, us, rfl, ?_⟩
    rcases List.mem_cons.mp ht with rfl | ht
    · omega
    · have hafter := stop_le_position_of_isChain h.ordered t ht
      have hu := h.starts u List.mem_cons_self
      have hpos := (h.spelt u List.mem_cons_self).position_lt_stop
      omega

/-- Behind the first token the rest of the tokens tile the rest of the text. -/
theorem tail_of_token (h : Tiles text n (t :: ts)) (hn : n ≤ t.position) :
    Tiles text t.stop ts := by
  have hlt := (h.spelt t List.mem_cons_self).position_lt_stop
  refine ⟨stop_le_position_of_isChain h.ordered, h.ordered.tail,
    fun u hu => h.quoted u (List.mem_cons_of_mem t hu), ?_,
    fun u hu => h.spelt u (List.mem_cons_of_mem t hu),
    fun u hu => h.maximal u (List.mem_cons_of_mem t hu)⟩
  intro i hi hstop
  have hnot : ¬t.Covers i := fun hc => absurd hc.2 (by omega)
  rw [h.blank_iff i hi (by omega), List.forall_mem_cons]
  exact and_iff_right hnot

/-- A tiling spells the rest of the text. The induction is on what is left of the text. -/
theorem spells (h : Tiles text n ts) (hn : n ≤ text.length) : Spells n (text.drop n) ts := by
  induction hlen : text.length - n using Nat.strong_induction_on generalizing n ts with
  | h m ih =>
    rcases Nat.lt_or_eq_of_le hn with hlt | rfl
    · cases hb : isBlank text[n] with
      | true =>
        rw [List.drop_eq_getElem_cons hlt]
        exact .blank hb (ih _ (by omega) (h.tail_of_blank hlt hb) hlt rfl)
      | false =>
        obtain ⟨t, us, rfl, rfl⟩ := h.exists_head hlt hb
        have hspelt := h.spelt t List.mem_cons_self
        have hstop := h.quoted_length List.mem_cons_self
        have hpos := hspelt.position_lt_stop
        have hrow := ih _ (by omega) (h.tail_of_token (Nat.le_refl _)) hstop rfl
        have hcut := List.take_append_drop t.text.length (text.drop t.position)
        rw [h.quoted t List.mem_cons_self, List.drop_drop] at hcut
        rw [← hcut]
        exact .token hspelt (h.maximal t List.mem_cons_self) hrow
    · rw [h.eq_nil (Nat.le_refl _), List.drop_length]
      exact .nil _

end Tiles

/-! ## From a row of lexemes to a tiling -/

/-- The part of the text under a token holds no blank. -/
theorem Token.WellSpelt.not_blank (h : t.WellSpelt) : ∀ x ∈ t.text.toList, isBlank x = false := by
  intro x hx
  rcases h.wordPart_or_mark x hx with hw | hm
  · exact not_blank_of_wordPart hw
  · exact not_blank_of_mark hm

/-- A blank in front of a tiling. -/
theorem Tiles.of_blank (h : Tiles text (n + 1) ts) (hn : n < text.length)
    (hb : isBlank text[n] = true) : Tiles text n ts := by
  refine { h with starts := fun t ht => ?_, blank_iff := ?_ }
  · have hstart := h.starts t ht
    omega
  · intro i hi hni
    rcases Nat.lt_or_eq_of_le hni with hlt | rfl
    · exact h.blank_iff i hi hlt
    · have huncovered : ∀ t ∈ ts, ¬t.Covers n := by
        intro t ht hc
        have hstart := h.starts t ht
        have hle := hc.1
        omega
      exact iff_of_true hb huncovered

/-- A token in front of a tiling of what follows it. -/
theorem Tiles.of_token {cs : List Char} (h : Tiles text t.stop ts) (ht : t.WellSpelt)
    (htext : text.drop t.position = t.text.toList ++ cs) (he : t.kind.EndsBefore cs) :
    Tiles text t.position (t :: ts) := by
  have hpos := ht.position_lt_stop
  have hdrop : text.drop t.stop = cs := by
    rw [Token.stop, ← List.drop_drop, htext, ← String.length_toList, List.drop_left]
  have hordered : (t :: ts).IsChain fun t u => t.stop ≤ u.position := by
    rw [List.isChain_cons]
    exact ⟨fun u hu => h.starts u (List.mem_of_mem_head? hu), h.ordered⟩
  have hquoted : (text.drop t.position).take t.text.length = t.text.toList := by
    rw [htext, ← String.length_toList, List.take_left]
  refine ⟨?_, hordered, List.forall_mem_cons.mpr ⟨hquoted, h.quoted⟩, ?_,
    List.forall_mem_cons.mpr ⟨ht, h.spelt⟩,
    List.forall_mem_cons.mpr ⟨by rw [hdrop]; exact he, h.maximal⟩⟩
  · intro u hu
    rcases List.mem_cons.mp hu with rfl | hu
    · exact Nat.le_refl _
    · have hstart := h.starts u hu
      omega
  · intro i hi hni
    rw [List.forall_mem_cons]
    rcases Nat.lt_or_ge i t.stop with hlt | hge
    · -- under the token
      have hmem : text[i] ∈ t.text.toList := by
        rw [← hquoted, List.mem_take_iff_getElem]
        rw [Token.stop] at hlt
        refine ⟨i - t.position, by rw [List.length_drop]; omega, ?_⟩
        rw [List.getElem_drop]
        congr 1
        omega
      refine iff_of_false ?_ fun hnone => hnone.1 ⟨hni, hlt⟩
      rw [ht.not_blank _ hmem]
      exact Bool.false_ne_true
    · -- behind it
      have hnot : ¬t.Covers i := fun hc => absurd hc.2 (by omega)
      rw [h.blank_iff i hi hge]
      exact (and_iff_right hnot).symm

/-- A row of blanks and lexemes at the end of a text is a tiling of it. -/
theorem Spells.tiles {cs : List Char} (h : Spells n cs ts) (htext : text.drop n = cs)
    (hn : n ≤ text.length) : Tiles text n ts := by
  induction h with
  | nil n =>
    have hlen := List.drop_eq_nil_iff.mp htext
    refine ⟨by simp, .nil, by simp, ?_, by simp, by simp⟩
    intro i hi hni
    omega
  | @blank n x cs ts hx h ih =>
    have hlen := congrArg List.length htext
    rw [List.length_drop, List.length_cons] at hlen
    have hlt : n < text.length := by omega
    rw [List.drop_eq_getElem_cons hlt] at htext
    obtain ⟨hx', hcs⟩ := List.cons.inj htext
    exact (ih hcs hlt).of_blank hlt (hx' ▸ hx)
  | @token t cs ts ht he h ih =>
    have hlen := congrArg List.length htext
    rw [List.length_drop, List.length_append, String.length_toList] at hlen
    have hdrop : text.drop t.stop = cs := by
      rw [Token.stop, ← List.drop_drop, htext, ← String.length_toList, List.drop_left]
    have hstop : t.stop ≤ text.length := by
      rw [Token.stop]
      omega
    exact (ih hdrop hstop).of_token ht htext he

/-! ## Tokenizing -/

theorem tokenize_eq_ok_iff_spells {text : String} {ts : List Token} :
    tokenize text = .ok ts ↔ Spells 0 text.toList ts := by
  unfold tokenize TokenStream.toExcept Cursor.ofString
  constructor
  · intro h
    cases he : (Cursor.mk text.toList 0).stream.ending with
    | error f => rw [he] at h; cases h
    | ok m =>
      have hrow := spells_stream text.toList 0 m he
      rw [he] at h
      cases h
      exact hrow
  · intro h
    rw [h.stream_eq]
    rfl

/-- Tokenizing succeeds exactly with the tiling of the text by longest tokens, and none of the
tokens is the ending. -/
theorem tokenize_eq_ok_iff_tiles (text : String) (ts : List Token) :
    (tokenize text = .ok ts ↔ Tiles text.toList 0 ts) ∧
      (Tiles text.toList 0 ts → ∀ t ∈ ts, t.kind ≠ .ending) := by
  refine ⟨?_, fun h t ht => (h.spelt t ht).kind_ne_ending⟩
  rw [tokenize_eq_ok_iff_spells]
  constructor
  · intro h
    exact h.tiles rfl (Nat.zero_le _)
  · intro h
    exact h.spells (Nat.zero_le _)

/-- A number and the word right behind it, where neither could be longer. -/
theorem tokenize_eq_ok_iff_tiles_touching :
    Tiles " 12ab\t".toList 0 [⟨.number, "12", 1⟩, ⟨.identifier, "ab", 3⟩] ∧
      ∀ t ∈ [Token.mk .number "12" 1, ⟨.identifier, "ab", 3⟩], t.kind ≠ .ending := by
  obtain ⟨hiff, hkind⟩ :=
    tokenize_eq_ok_iff_tiles " 12ab\t" [⟨.number, "12", 1⟩, ⟨.identifier, "ab", 3⟩]
  have htiles := hiff.mp (by decide +kernel)
  exact ⟨htiles, hkind htiles⟩

end Reckon
