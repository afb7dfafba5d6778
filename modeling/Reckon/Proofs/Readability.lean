import Reckon.Proofs.RoundTrip

/-!
  A text is written of one tree only. This holds of all trees whose names are names, also of those
  that no statement has: with negative numbers, which are written with a sign and no parentheses,
  and with assignments inside of operations and of each other, which have no parentheses either.

  Nothing reads such texts, so the trees are compared as they are written. The first character
  tells a number, a word and an operation apart (`Tree.opening_eq`). Where a tree ends is settled
  by what follows it (`Follows`): no digit and no letter, which would make its last word longer,
  and no equals sign, which would make that word the name of an assignment. Behind an operand there
  is a parenthesis or an operator, so `Tree.text_append_inj` goes by induction on the tree.
-/

namespace Reckon

/-! ## Lines -/

/-- Lines that are each told from what follows them are told apart in a row. -/
theorem map_eq_of_join_eq {α β : Type} {line : α → String} {g : α → β} {xs ys : List α}
    (hne : ∀ x, (line x).toList ≠ [])
    (hinj : ∀ x ∈ xs, ∀ y ∈ ys, ∀ cs ds,
      (line x).toList ++ cs = (line y).toList ++ ds → g x = g y ∧ cs = ds)
    (h : (String.join (xs.map line)).toList = (String.join (ys.map line)).toList) :
    xs.map g = ys.map g := by
  rw [String.toList_join, String.toList_join, List.flatMap_map, List.flatMap_map] at h
  induction xs generalizing ys with
  | nil =>
    cases ys with
    | nil => rfl
    | cons y ys => exact absurd (List.append_eq_nil_iff.mp h.symm).1 (hne y)
  | cons x xs ih =>
    cases ys with
    | nil => exact absurd (List.append_eq_nil_iff.mp h).1 (hne x)
    | cons y ys =>
      obtain ⟨hline, hrest⟩ := hinj x List.mem_cons_self y List.mem_cons_self _ _ h
      have htail := ih (fun x hx y hy => hinj x (.tail _ hx) y (.tail _ hy)) hrest
      rw [List.map_cons, List.map_cons, hline, htail]

/-! ## Numbers -/

namespace Integer

/-- The digits of a number end where no digit follows. -/
theorem repr_append_inj {m n : Nat} {cs ds : List Char} (hcs : Cursor.Ends isDigit cs)
    (hds : Cursor.Ends isDigit ds) (h : m.repr.toList ++ cs = n.repr.toList ++ ds) :
    m = n ∧ cs = ds := by
  obtain ⟨hrepr, hrest⟩ :=
    Cursor.append_inj_of_ends (isNumeral_repr m).digit (isNumeral_repr n).digit hcs hds h
  refine ⟨?_, hrest⟩
  rw [← ofDigits_repr m, hrepr, ofDigits_repr]

/-- A number is written with digits, behind a sign if it is negative. -/
theorem exists_toList_toString (n : Int) :
    (∃ k : Nat, n = k ∧ (toString n).toList = k.repr.toList) ∨
    ∃ k : Nat, n = -k ∧ (toString n).toList = '-' :: k.repr.toList := by
  cases n with
  | ofNat k => exact .inl ⟨k, rfl, rfl⟩
  | negSucc k => exact .inr ⟨k + 1, rfl, by simp [toString, Int.repr]⟩

theorem repr_append_ne_sign (n : Nat) (cs ds : List Char) : n.repr.toList ++ cs ≠ '-' :: ds := by
  obtain ⟨c, w, hw, hc, -⟩ := isNumeral_repr n
  intro h
  rw [hw, List.cons_append] at h
  obtain ⟨rfl, -⟩ := List.cons.inj h
  exact absurd hc (by decide)

/-- A number ends where no digit follows. -/
theorem toString_append_inj {m n : Int} {cs ds : List Char} (hcs : Cursor.Ends isDigit cs)
    (hds : Cursor.Ends isDigit ds) (h : (toString m).toList ++ cs = (toString n).toList ++ ds) :
    m = n ∧ cs = ds := by
  obtain ⟨j, hm, hj⟩ | ⟨j, hm, hj⟩ := exists_toList_toString m <;>
    obtain ⟨k, hn, hk⟩ | ⟨k, hn, hk⟩ := exists_toList_toString n <;>
    rw [hj, hk] at h
  · obtain ⟨rfl, hrest⟩ := repr_append_inj hcs hds h
    exact ⟨hm.trans hn.symm, hrest⟩
  · exact absurd h (repr_append_ne_sign j cs _)
  · exact absurd h.symm (repr_append_ne_sign k ds _)
  · obtain ⟨rfl, hrest⟩ := repr_append_inj hcs hds (List.cons.inj h).2
    exact ⟨hm.trans hn.symm, hrest⟩

end Integer

/-! ## Words -/

/-- A name ends where neither a letter nor a digit follows. -/
theorem IsName.append_inj {s t : String} {cs ds : List Char} (hs : IsName s) (ht : IsName t)
    (hcs : Cursor.Ends isWordPart cs) (hds : Cursor.Ends isWordPart ds)
    (h : s.toList ++ cs = t.toList ++ ds) : s = t ∧ cs = ds := by
  obtain ⟨hst, hrest⟩ := Cursor.append_inj_of_ends hs.wordPart ht.wordPart hcs hds h
  exact ⟨String.toList_inj.mp hst, hrest⟩

/-- What does not go on with the word in front of it, as a word or as an assignment. -/
structure Follows (cs : List Char) : Prop where
  ends : Cursor.Ends isWordPart cs
  no_equals : ∀ ds, cs ≠ ' ' :: '=' :: ds

theorem follows_nil : Follows [] := ⟨Cursor.ends_nil isWordPart, by simp⟩

theorem follows_parenthesis (cs : List Char) : Follows (')' :: cs) :=
  ⟨ends_wordPart_of_mark rfl cs, by simp⟩

theorem follows_operator (op : Operator) (cs : List Char) : Follows (' ' :: op.symbol :: cs) := by
  refine ⟨ends_wordPart_of_blank rfl _, fun ds h => ?_⟩
  have hsymbol : op.symbol = '=' := (List.cons.inj (List.cons.inj h).2).1
  revert hsymbol
  cases op <;> decide

/-! ## Trees -/

namespace Tree

/-- Every name in the tree is a name. -/
def Named : Tree → Prop
  | number _ => True
  | var name => IsName name
  | binary _ left right => left.Named ∧ right.Named
  | assign name value => IsName name ∧ value.Named

/-- How a text can begin. -/
inductive Opening where
  | numeral
  | word
  | group

/-- How a text begins that has this character first. -/
def Opening.ofChar (c : Char) : Opening :=
  if isLetter c then .word else if c = '(' then .group else .numeral

/-- How the text of a tree begins. -/
def opening : Tree → Opening
  | number _ => .numeral
  | var _ | assign _ _ => .word
  | binary _ _ _ => .group

theorem opening_of_number (n : Int) :
    ∃ c w, (toString n).toList = c :: w ∧ Opening.ofChar c = .numeral := by
  obtain ⟨k, -, hk⟩ | ⟨k, -, hk⟩ := Integer.exists_toList_toString n
  · obtain ⟨c, w, hw, hc, -⟩ := isNumeral_repr k
    refine ⟨c, w, hk.trans hw, ?_⟩
    have hparen : c ≠ '(' := by
      rintro rfl
      exact absurd hc (by decide)
    simp [Opening.ofChar, not_letter_of_digit hc, hparen]
  · exact ⟨'-', _, hk, rfl⟩

/-- The first character of a text tells how it begins. -/
theorem ofChar_eq_opening {t : Tree} (ht : t.Named) (cs : List Char) :
    ∃ c w, t.text.toList ++ cs = c :: w ∧ Opening.ofChar c = t.opening := by
  have hword : ∀ {s : String} (ds : List Char), IsName s →
      ∃ c w, s.toList ++ ds = c :: w ∧ Opening.ofChar c = .word := by
    rintro s ds ⟨c, w, hw, hc, -⟩
    exact ⟨c, w ++ ds, by rw [hw]; rfl, if_pos hc⟩
  cases t with
  | number n =>
    obtain ⟨c, w, hw, hc⟩ := opening_of_number n
    exact ⟨c, w ++ cs, by rw [text, hw]; rfl, hc⟩
  | var name => exact hword cs ht
  | binary op left right => exact ⟨'(', _, text_binary op left right cs, rfl⟩
  | assign name value =>
    rw [text_assign]
    exact hword _ ht.1

/-- Trees whose texts begin alike are of one sort. -/
theorem opening_eq {a b : Tree} {cs ds : List Char} (ha : a.Named) (hb : b.Named)
    (h : a.text.toList ++ cs = b.text.toList ++ ds) : a.opening = b.opening := by
  obtain ⟨c, v, hv, hc⟩ := ofChar_eq_opening ha cs
  obtain ⟨d, w, hw, hd⟩ := ofChar_eq_opening hb ds
  have hcd : c = d := (List.cons.inj (hv.symm.trans (h.trans hw))).1
  rw [← hc, hcd, hd]

/-- A tree and what follows it are told apart in one way only. -/
theorem text_append_inj {a b : Tree} {cs ds : List Char} (ha : a.Named) (hb : b.Named)
    (hcs : Follows cs) (hds : Follows ds) (h : a.text.toList ++ cs = b.text.toList ++ ds) :
    a = b ∧ cs = ds := by
  induction a generalizing b cs ds with
  | number m =>
    have hopening := opening_eq ha hb h
    cases b with
    | number n =>
      obtain ⟨rfl, hrest⟩ := Integer.toString_append_inj hcs.ends.digit hds.ends.digit h
      exact ⟨rfl, hrest⟩
    | _ => cases hopening
  | var x =>
    have hopening := opening_eq ha hb h
    cases b with
    | var y =>
      obtain ⟨rfl, hrest⟩ := ha.append_inj hb hcs.ends hds.ends h
      exact ⟨rfl, hrest⟩
    | assign y v =>
      rw [text_assign] at h
      obtain ⟨-, hrest⟩ := ha.append_inj hb.1 hcs.ends (ends_wordPart_of_blank rfl _) h
      exact absurd hrest (hcs.no_equals _)
    | _ => cases hopening
  | binary op left right ihl ihr =>
    have hopening := opening_eq ha hb h
    cases b with
    | binary op' left' right' =>
      rw [text_binary, text_binary] at h
      simp only [List.cons.injEq, true_and] at h
      obtain ⟨rfl, hop⟩ := ihl ha.1 hb.1 (follows_operator op _) (follows_operator op' _) h
      simp only [List.cons.injEq, true_and] at hop
      obtain ⟨hsymbol, hright⟩ := hop
      obtain rfl := Operator.symbol_injective hsymbol
      obtain ⟨rfl, hrest⟩ := ihr ha.2 hb.2 (follows_parenthesis _) (follows_parenthesis _) hright
      exact ⟨rfl, (List.cons.inj hrest).2⟩
    | _ => cases hopening
  | assign x v ih =>
    have hopening := opening_eq ha hb h
    rw [text_assign] at h
    cases b with
    | var y =>
      obtain ⟨-, hrest⟩ := ha.1.append_inj hb (ends_wordPart_of_blank rfl _) hds.ends h
      exact absurd hrest.symm (hds.no_equals _)
    | assign y w =>
      rw [text_assign] at h
      obtain ⟨rfl, hvalue⟩ := ha.1.append_inj hb.1 (ends_wordPart_of_blank rfl _)
        (ends_wordPart_of_blank rfl _) h
      simp only [List.cons.injEq, true_and] at hvalue
      obtain ⟨rfl, hrest⟩ := ih ha.2 hb.2 hcs hds hvalue
      exact ⟨rfl, hrest⟩
    | _ => cases hopening

/-- Trees of any shape whose names are names are equal if they are written alike. -/
theorem text_eq_iff {a b : Tree} (ha : a.Named) (hb : b.Named) : a.text = b.text ↔ a = b := by
  refine ⟨fun h => ?_, congrArg text⟩
  have happend : a.text.toList ++ [] = b.text.toList ++ [] := by rw [h]
  exact (text_append_inj ha hb follows_nil follows_nil happend).1

/-- An assignment as an operand, and an operation as what is assigned, with a negative number. -/
theorem text_eq_iff_assignment :
    (binary .subtract (assign "x" (var "a")) (number (-1))).Named ∧
    (assign "x" (binary .subtract (var "a") (number (-1)))).Named ∧
    (binary .subtract (assign "x" (var "a")) (number (-1))).text ≠
      (assign "x" (binary .subtract (var "a") (number (-1)))).text := by
  have hx : IsName "x" := ⟨'x', [], rfl, rfl, by simp⟩
  have ha : IsName "a" := ⟨'a', [], rfl, rfl, by simp⟩
  have hoperand : (binary .subtract (assign "x" (var "a")) (number (-1))).Named :=
    ⟨⟨hx, ha⟩, trivial⟩
  have hvalue : (assign "x" (binary .subtract (var "a") (number (-1)))).Named :=
    ⟨hx, ha, trivial⟩
  exact ⟨hoperand, hvalue, (text_eq_iff hoperand hvalue).not.mpr (by decide)⟩

-- A name that is none can be written as an assignment is.
example : (var "x = 1").text = (assign "x" (number 1)).text := by decide +kernel

end Tree

end Reckon
