import Mathlib.Control.Monad.Basic
import Mathlib.Data.List.Induction
import Reckon.Proofs.Progress
import Reckon.Proofs.Tiling

/-!
  Reading in two ways from one scanner. The items of a text are its tokens in order and then, for
  ever, the end of the text or its first foreign character. Whatever steps are taken, a step that
  reads the cursor at all shows the item that is next: all steps before it which did so are
  counted, of either kind.

  The invariant is `stream_after`: the stream at the cursor is the stream of the text without so
  many items. From it follow what the steps show and when the sequence is finished
  (`finished_after_iff`), each by one induction over the steps.
-/

namespace Reckon

/-! ## Items -/

namespace TokenStream

variable {s : TokenStream}

/-- The stream without its first items; the ending is not among those that can be taken away. -/
def drop (s : TokenStream) (n : Nat) : TokenStream := { s with tokens := s.tokens.drop n }

/-- The item behind so many others: a token or, from the last of them on, the ending. -/
def item (s : TokenStream) (n : Nat) : Except LexFault Token :=
  match s.tokens[n]? with
  | some t => .ok t
  | none => s.ending.map Token.ending

theorem drop_zero (s : TokenStream) : s.drop 0 = s := rfl

theorem drop_drop (s : TokenStream) (n k : Nat) : (s.drop n).drop k = s.drop (n + k) := by
  unfold drop
  rw [List.drop_drop]

theorem item_drop (s : TokenStream) (n k : Nat) : (s.drop n).item k = s.item (n + k) := by
  unfold item drop
  rw [List.getElem?_drop]

/-- Reading takes the first item, and leaves the others. -/
theorem next_eq_item (s : TokenStream) :
    s.next =
      match s.item 0 with
      | .ok t => .ok t (s.drop 1)
      | .error f => .error f (s.drop 1) := by
  obtain ⟨tokens, ending⟩ := s
  cases tokens with
  | cons t tokens => rfl
  | nil => cases ending <;> rfl

end TokenStream

/-- Nothing further comes after this item, only itself again. -/
def IsLast : Except LexFault Token → Prop
  | .ok t => t.kind = .ending
  | .error _ => True

/-- What a cursor reads is the first item of its stream, and it goes on to the others. -/
theorem Cursor.read_cases (c : Cursor) :
    (∃ t c', c.read = .ok t c' ∧ c.stream.item 0 = .ok t ∧ c'.stream = c.stream.drop 1) ∨
      ∃ f c', c.read = .error f c' ∧ c.stream.item 0 = .error f ∧
        c'.stream = c.stream.drop 1 := by
  have hnext := c.next_stream
  rw [TokenStream.next_eq_item] at hnext
  cases hr : c.read with
  | ok t c' =>
    cases hi : c.stream.item 0 with
    | error f => rw [hr, hi] at hnext; cases hnext
    | ok u =>
      rw [hr, hi] at hnext
      obtain ⟨rfl, hc⟩ := EStateM.Result.ok.inj hnext
      exact .inl ⟨_, _, rfl, rfl, hc.symm⟩
  | error f c' =>
    cases hi : c.stream.item 0 with
    | ok u => rw [hr, hi] at hnext; cases hnext
    | error g =>
      rw [hr, hi] at hnext
      obtain ⟨rfl, hc⟩ := EStateM.Result.error.inj hnext
      exact .inr ⟨_, _, rfl, rfl, hc.symm⟩

/-! ## The tokens before a foreign character -/

/-- In front of a foreign character every token ends. -/
theorem Token.Kind.endsBefore_foreign (k : Token.Kind) {x : Char} (hx : isForeign x = true)
    (cs : List Char) : k.EndsBefore (x :: cs) := by
  apply k.endsBefore_cons
  by_contra hword
  rw [not_foreign_of_wordPart_or_mark (.inl (by simpa using hword))] at hx
  cases hx

/-- Characters of which none is foreign are read to their end. -/
theorem spells_of_not_foreign {cs : List Char} (h : ∀ x ∈ cs, isForeign x = false) (n : Nat) :
    Spells n cs (Cursor.mk cs n).stream.tokens := by
  have hends : EndsAs n cs (.ok (n + cs.length)) := ⟨rfl, h⟩
  exact spells_stream cs n _ ((Cursor.mk cs n).endsAs.unique hends)

/-- A foreign character behind them makes no difference to the tokens. -/
theorem Spells.tokens_append_foreign {n : Nat} {cs : List Char} {ts : List Token}
    (h : Spells n cs ts) {x : Char} (hx : isForeign x = true) (tail : List Char) :
    (Cursor.mk (cs ++ x :: tail) n).stream.tokens = ts := by
  have hscan := h.scans_append fun t _ _ => t.kind.endsBefore_foreign hx tail
  rw [hscan, Cursor.stream_foreign hx]
  exact List.append_nil ts

/-- The tokens of a text tile what comes before its first foreign character. -/
theorem tiles_stream (text : String) :
    Tiles (text.toList.takeWhile fun c => !isForeign c) 0
      (Cursor.ofString text).stream.tokens := by
  have htext := List.takeWhile_append_dropWhile (p := fun c => !isForeign c) (l := text.toList)
  have hclean : ∀ x ∈ text.toList.takeWhile fun c => !isForeign c, isForeign x = false := by
    intro x hx
    simpa using List.mem_takeWhile_imp hx
  have hrow := spells_of_not_foreign hclean 0
  have htokens : (Cursor.ofString text).stream.tokens =
      (Cursor.mk (text.toList.takeWhile fun c => !isForeign c) 0).stream.tokens := by
    cases hrest : text.toList.dropWhile fun c => !isForeign c with
    | nil =>
      rw [hrest, List.append_nil] at htext
      rw [htext]
      rfl
    | cons x tail =>
      have hx : isForeign x = true := by
        have hends := Cursor.ends_dropWhile (fun c => !isForeign c) text.toList x
        rw [hrest] at hends
        simpa using hends rfl
      rw [hrest] at htext
      have hforeign := hrow.tokens_append_foreign hx tail
      rwa [htext] at hforeign
  rw [htokens]
  exact hrow.tiles rfl (Nat.zero_le _)

namespace Scanner

/-! ## Steps -/

/-- What a step shows of the text, if anything. -/
def observe (s : Scanner) : Step → Option (Except LexFault Token)
  | .read =>
    match s.read with
    | .ok t _ => some (.ok t)
    | .error f _ => some (.error f)
  | .next => s.next?.1

/-- How a step shows an item: a sequence does not show the end of the text. -/
def Step.shows : Step → Except LexFault Token → Option (Except LexFault Token)
  | .read, x => some x
  | .next, .ok t => if t.kind = .ending then none else some (.ok t)
  | .next, .error f => some (.error f)

/-- The step reads the cursor. The next member of a finished sequence does not. -/
def consults (s : Scanner) : Step → Bool
  | .read => true
  | .next => !s.finished

/-- How many of some steps read the cursor. -/
def consulted (s : Scanner) : List Step → Nat
  | [] => 0
  | a :: steps => (if s.consults a then 1 else 0) + (s.step a).consulted steps

variable {s : Scanner} {a : Step} {steps : List Step}

/-- A step that reads the cursor shows the first item ahead of it, goes on to the others, and
finishes the sequence if it looks for a member and meets the last item. -/
theorem step_of_consults (h : s.consults a = true) :
    s.observe a = a.shows (s.cursor.stream.item 0) ∧
      (s.step a).cursor.stream = s.cursor.stream.drop 1 ∧
      ((s.step a).finished = true ↔
        s.finished = true ∨ a = .next ∧ IsLast (s.cursor.stream.item 0)) := by
  cases a with
  | read =>
    rcases s.cursor.read_cases with ⟨t, c, hr, hi, hc⟩ | ⟨f, c, hr, hi, hc⟩
    · simp [observe, step, read, hr, hi, hc, Step.shows]
    · simp [observe, step, read, hr, hi, hc, Step.shows]
  | next =>
    have hfinished : s.finished = false := by simpa [consults] using h
    rcases s.cursor.read_cases with ⟨t, c, hr, hi, hc⟩ | ⟨f, c, hr, hi, hc⟩
    · by_cases hk : t.kind = .ending
      · simp [observe, step, next?, hfinished, hr, hi, hc, hk, Step.shows, IsLast]
      · simp [observe, step, next?, hfinished, hr, hi, hc, hk, Step.shows, IsLast]
    · simp [observe, step, next?, hfinished, hr, hi, hc, Step.shows, IsLast]

/-- A step that does not read the cursor changes nothing. -/
theorem step_of_not_consults (h : s.consults a = false) :
    s.step a = s ∧ a = .next ∧ s.finished = true := by
  cases a with
  | read => cases h
  | next =>
    have hfinished : s.finished = true := by simpa [consults] using h
    exact ⟨congrArg Prod.snd (next?_of_finished hfinished), rfl, hfinished⟩

/-! ## Runs -/

theorem after_append (s : Scanner) (steps more : List Step) :
    s.after (steps ++ more) = (s.after steps).after more := List.foldl_append

/-- The stream at the cursor lacks the items that the steps have read. -/
theorem stream_after (s : Scanner) (steps : List Step) :
    (s.after steps).cursor.stream = s.cursor.stream.drop (s.consulted steps) := by
  induction steps generalizing s with
  | nil => exact (TokenStream.drop_zero _).symm
  | cons a steps ih =>
    show ((s.step a).after steps).cursor.stream = _
    rw [ih, consulted]
    cases h : s.consults a with
    | true => rw [(step_of_consults h).2.1, TokenStream.drop_drop, if_pos rfl]
    | false => rw [(step_of_not_consults h).1, if_neg Bool.false_ne_true, Nat.zero_add]

theorem finished_step (h : s.finished = true) (a : Step) : (s.step a).finished = true := by
  cases hc : s.consults a with
  | true => exact (step_of_consults hc).2.2.mpr (.inl h)
  | false => rw [(step_of_not_consults hc).1]; exact h

/-- Once finished, a sequence stays so. -/
theorem finished_after (h : s.finished = true) (steps : List Step) :
    (s.after steps).finished = true := by
  induction steps generalizing s with
  | nil => exact h
  | cons a steps ih => exact ih (finished_step h a)

/-- A sequence is finished by the first attempt at a member that meets the last item. -/
theorem finished_after_iff (h : s.finished = false) (steps : List Step) :
    (s.after steps).finished = true ↔
      ∃ before rest, steps = before ++ .next :: rest ∧ (s.after before).finished = false ∧
        IsLast (s.cursor.stream.item (s.consulted before)) := by
  constructor
  · intro hfinished
    induction steps using List.reverseRecOn with
    | nil =>
      rw [show s.after [] = s from rfl, h] at hfinished
      cases hfinished
    | append_singleton steps a ih =>
      cases hbefore : (s.after steps).finished with
      | true =>
        obtain ⟨before, rest, rfl, hrest⟩ := ih hbefore
        exact ⟨before, rest ++ [a], by simp, hrest⟩
      | false =>
        have hc : (s.after steps).consults a = true := by
          by_contra hc
          have hnot := (step_of_not_consults (by simpa using hc)).2.2
          rw [hbefore] at hnot
          cases hnot
        rw [after_append] at hfinished
        rcases (step_of_consults hc).2.2.mp hfinished with hfalse | ⟨rfl, hlast⟩
        · rw [hbefore] at hfalse
          cases hfalse
        · rw [stream_after, TokenStream.item_drop] at hlast
          exact ⟨steps, [], rfl, hbefore, hlast⟩
  · rintro ⟨before, rest, rfl, hbefore, hlast⟩
    have hc : (s.after before).consults .next = true := by simp [consults, hbefore]
    have hstep := (step_of_consults hc).2.2.mpr
      (.inr ⟨rfl, by rwa [stream_after, TokenStream.item_drop]⟩)
    rw [after_append]
    exact finished_after hstep rest

/-! ## The cursor -/

theorem position_le_step (s : Scanner) (a : Step) :
    s.cursor.position ≤ (s.step a).cursor.position := by
  have hblanks : s.cursor.position ≤ s.cursor.skipBlanks.position := Nat.le_add_right _ _
  rcases s.cursor_step a with heq | ⟨t, hr⟩ | ⟨f, hr⟩
  · rw [heq]
  · rcases Cursor.read_eq_ok hr with ⟨-, -, hc⟩ | ⟨l, -, -, hc⟩
    · rwa [hc]
    · rw [hc]
      exact Nat.le_trans hblanks (Nat.le_add_right _ _)
  · rwa [Cursor.read_eq_error hr]

/-- The cursor does not go back. -/
theorem position_le_after (s : Scanner) (steps : List Step) :
    s.cursor.position ≤ (s.after steps).cursor.position := by
  induction steps generalizing s with
  | nil => exact Nat.le_refl _
  | cons a steps ih => exact Nat.le_trans (position_le_step s a) (ih (s.step a))

/-! ## Any steps from the start of a text -/

/-- The scanner after some steps from the start of a text. -/
def reached (text : String) (steps : List Step) : Scanner := (ofString text).after steps

/-- After these steps the scanner is where it should be in a text with these items. -/
structure Tracks (text : String) (items : TokenStream) (steps : List Step) : Prop where
  /-- A step that reads the cursor shows the item behind those that were read before. -/
  shows : ∀ a, (reached text steps).consults a = true →
    (reached text steps).observe a = a.shows (items.item ((ofString text).consulted steps))
  /-- The sequence was finished by an attempt at a member that met the last item. -/
  finished_iff : (reached text steps).finished = true ↔
    ∃ before rest, steps = before ++ .next :: rest ∧ (reached text before).finished = false ∧
      IsLast (items.item ((ofString text).consulted before))
  /-- A finished sequence has no further members, and looking for one changes nothing. -/
  idle : (reached text steps).finished = true →
    (reached text steps).next? = (none, reached text steps)
  finished_more : (reached text steps).finished = true →
    ∀ more, (reached text (steps ++ more)).finished = true
  position_le : (reached text steps).cursor.position ≤ text.length
  /-- The character in front of the cursor is the one at its position. -/
  current : (reached text steps).cursor.rest.head? =
    text.toList[(reached text steps).cursor.position]?
  forward : ∀ more,
    (reached text steps).cursor.position ≤ (reached text (steps ++ more)).cursor.position

/-- All steps on a scanner read the same items, however the two kinds of step are mixed: the tokens
of the text, which tile it up to its first foreign character, and then for ever its end or, if there
is one, that character. -/
theorem steps_read_one_stream (text : String) :
    ∃ items : TokenStream,
      Tiles (text.toList.takeWhile fun c => !isForeign c) 0 items.tokens ∧
      EndsAs 0 text.toList items.ending ∧ ∀ steps, Tracks text items steps := by
  refine ⟨(Cursor.ofString text).stream, tiles_stream text, (Cursor.ofString text).endsAs, ?_⟩
  intro steps
  have hin : (reached text steps).cursor.In text.toList :=
    cursor_in_after (cursor_in_ofString text) steps
  refine ⟨fun a ha => ?_, finished_after_iff rfl steps, fun h => next?_of_finished h,
    fun h more => ?_, ?_, ?_, fun more => ?_⟩
  · rw [(step_of_consults ha).1, reached, stream_after, TokenStream.item_drop]
    rfl
  · rw [reached, after_append]
    exact finished_after h more
  · rw [← String.length_toList]
    exact hin.position_le
  · rw [hin.rest_eq, List.head?_drop]
  · rw [reached, reached, after_append]
    exact position_le_after _ more

/-- Three attempts at a member: a token, the foreign character, and nothing, which did not read. The
step after them reads the foreign character again, as the third item. -/
theorem steps_read_one_stream_foreign :
    ∃ items : TokenStream, EndsAs 0 "a $".toList items.ending ∧
      items.item 2 = .error ⟨'$', 2⟩ ∧
      (reached "a $" [.next, .next]).next? = (none, reached "a $" [.next, .next]) := by
  obtain ⟨items, -, hends, htracks⟩ := steps_read_one_stream "a $"
  have hread := (htracks [.next, .next, .next]).shows .read rfl
  have hcount : (ofString "a $").consulted [.next, .next, .next] = 2 := by decide +kernel
  have hshown : (reached "a $" [.next, .next, .next]).observe .read = some (.error ⟨'$', 2⟩) := by
    decide +kernel
  rw [hcount, hshown] at hread
  exact ⟨items, hends, Option.some.inj hread.symm,
    (htracks [.next, .next]).idle (by decide +kernel)⟩

end Scanner

end Reckon
