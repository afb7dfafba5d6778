import Reckon.Proofs.Layout
import Reckon.Proofs.Wording

/-!
  The listing of the tokens of a text. It leaves out where the tokens stand, and nothing else: no
  label has a blank in it and a line quotes its token as a message does, so a listing is taken
  apart line by line and each line in one way (`tokenLine_append_inj`).

  Texts with one listing are therefore layouts of the same tokens, and a listing settles what the
  program answers in its other modes, up to the place of a fault (`render_of_listing_eq`).
-/

namespace Reckon

namespace Token

variable {t u : Token}

theorem Kind.label_ne_blank (k : Kind) : ∀ c ∈ k.label.toList, (c != ' ') = true := by
  rw [← List.all_eq_true]
  revert k
  decide

theorem WellSpelt.isFinding_describe (h : t.WellSpelt) : IsFinding t.describe :=
  .inr ⟨t.text, describe_of_ne_ending h.kind_ne_ending, h.not_backtick⟩

/-- Tokens that are described alike have one text between the backticks. -/
theorem WellSpelt.text_eq_of_describe_eq (ht : t.WellSpelt) (hu : u.WellSpelt)
    (h : t.describe = u.describe) : t.text = u.text := by
  rw [describe_of_ne_ending ht.kind_ne_ending, describe_of_ne_ending hu.kind_ne_ending] at h
  exact (String.append_right_inj _).mp ((String.append_left_inj _).mp h)

end Token

namespace Program

/-! ## Lines -/

/-- A line has an end that can be seen, and tells the kind and the text of its token. -/
theorem tokenLine_append_inj {t u : Token} {cs ds : List Char} (ht : t.WellSpelt)
    (hu : u.WellSpelt) (h : (tokenLine t).toList ++ cs = (tokenLine u).toList ++ ds) :
    t.word = u.word ∧ cs = ds := by
  unfold tokenLine at h
  simp only [String.toList_append, List.append_assoc] at h
  have hblank : ∀ w, Cursor.Ends (· != ' ') (" ".toList ++ w) := Cursor.ends_cons rfl
  obtain ⟨hlabel, hrest⟩ := Cursor.append_inj_of_ends t.kind.label_ne_blank
    u.kind.label_ne_blank (hblank _) (hblank _) h
  have hkind : t.kind = u.kind := Token.Kind.label_injective (String.toList_inj.mp hlabel)
  obtain ⟨hdescribe, hrest⟩ :=
    ht.isFinding_describe.append_inj hu.isFinding_describe (List.append_cancel_left hrest)
  have htext : t.text = u.text := ht.text_eq_of_describe_eq hu hdescribe
  exact ⟨Prod.ext hkind htext, List.append_cancel_left hrest⟩

/-- The lines of a listing do not run into each other. -/
theorem words_eq_of_listing_eq {ts us : List Token} (hts : ∀ t ∈ ts, t.WellSpelt)
    (hus : ∀ u ∈ us, u.WellSpelt)
    (h : String.join (ts.map tokenLine) = String.join (us.map tokenLine)) :
    ts.map Token.word = us.map Token.word := by
  refine map_eq_of_join_eq (fun t => ?_) (fun t ht u hu cs ds => ?_) (congrArg String.toList h)
  · simp [tokenLine]
  · exact tokenLine_append_inj (hts t ht) (hus u hu)

/-! ## Listings of texts -/

section

variable {text text' : String}

/-- A listing goes through all tokens of a text without a foreign character. -/
theorem stream_of_listing {output : String} (h : render .tokens text = .ok output) :
    ∃ ts n, (Cursor.ofString text).stream = ⟨ts, .ok n⟩ ∧ (∀ t ∈ ts, t.WellSpelt) ∧
      output = String.join (ts.map tokenLine) := by
  have hspelt : ∀ t ∈ (Cursor.ofString text).stream.tokens, t.WellSpelt := fun t ht =>
    (Token.standsIn_of_mem ht).spelt
  unfold render tokenize at h
  generalize (Cursor.ofString text).stream = s at h hspelt ⊢
  obtain ⟨ts, ending⟩ := s
  cases ending with
  | ok n => exact ⟨ts, n, rfl, hspelt, (Except.ok.inj h).symm⟩
  | error f => cases h

/-- Texts have one listing exactly if they are layouts of the same tokens. -/
theorem listing_eq_iff_alike {output output' : String} (h : render .tokens text = .ok output)
    (h' : render .tokens text' = .ok output') :
    output = output' ↔
      (Cursor.ofString text).stream.Alike (Cursor.ofString text').stream := by
  obtain ⟨ts, n, hstream, hspelt, rfl⟩ := stream_of_listing h
  obtain ⟨us, m, hstream', hspelt', rfl⟩ := stream_of_listing h'
  rw [hstream, hstream']
  constructor
  · intro hlisting
    exact ⟨words_eq_of_listing_eq hspelt hspelt' hlisting, rfl⟩
  · rintro ⟨hwords, -⟩
    have hline : tokenLine = (fun w => tokenLine ⟨w.1, w.2, 0⟩) ∘ Token.word := rfl
    rw [hline, ← List.map_map, ← List.map_map, hwords]

/-- A listing settles what a text is answered with in each mode, but for the place of a fault. -/
theorem render_of_listing_eq {output : String} (h : render .tokens text = .ok output)
    (h' : render .tokens text' = .ok output) (mode : Mode) :
    ∃ n, render mode text' = (render mode text).mapError (Fault.moveTo n) := by
  have halike := (listing_eq_iff_alike h h').mp rfl
  obtain ⟨_, _, hstream, -⟩ := stream_of_listing h
  obtain ⟨_, _, hstream', -⟩ := stream_of_listing h'
  have hforeign : (Cursor.ofString text).stream.foreign? =
      (Cursor.ofString text').stream.foreign? := by
    rw [hstream, hstream']
    rfl
  have hparse := corresponds_parse halike
  cases mode with
  | value =>
    obtain ⟨n, hn⟩ := hparse.execute.exists_moveTo hforeign
    refine ⟨n, ?_⟩
    simp only [render, hn]
    cases execute text <;> rfl
  | tokens => exact ⟨0, by rw [h, h']; rfl⟩
  | tree =>
    obtain ⟨n, hn⟩ := hparse.exists_moveTo hforeign
    refine ⟨n, ?_⟩
    simp only [render, hn]
    cases parse text <;> rfl

end

end Program

end Reckon
