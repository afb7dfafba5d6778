import Mathlib.Order.Monotone.Basic
import Reckon.Proofs.Quotation
import Reckon.Proofs.RoundTrip

/-!
  The trees that one parser hands out, one after the other. Each is canonical, and each is read
  from a run of tokens that ends with a semicolon: the name that it assigns and its leaves are the
  identifiers and numbers of the run, in order and without any other (`Tree.ReadFrom`). The runs
  follow each other in the text as the calls do, also over calls that fail in between.

  `Derives.leaves_eq` says so of a derivation. For the runs, `Parser.place` tells where in the
  stream a parser is: a call never goes back, and one that reads a statement goes from its start
  to its end.
-/

namespace Reckon

/-! ## Leaves -/

/-- What stands at a leaf of a tree, or is assigned at its root. -/
inductive Leaf where
  | name (text : String)
  | value (n : Int)
  deriving DecidableEq, Repr

/-- The names and numbers of a tree from left to right. -/
def Tree.leaves : Tree → List Leaf
  | number n => [.value n]
  | var name => [.name name]
  | binary _ left right => left.leaves ++ right.leaves
  | assign name value => .name name :: value.leaves

/-- The leaf that a token can be. -/
def Token.leaf? (t : Token) : Option Leaf :=
  match t.kind with
  | .identifier => some (.name t.text)
  | .number => some (.value (Integer.ofDigits t.text.toList))
  | _ => none

theorem Token.leaf?_eq_none {t : Token} (hi : t.kind ≠ .identifier) (hn : t.kind ≠ .number) :
    t.leaf? = none := by
  unfold leaf?
  split <;> simp_all

theorem Token.leaf?_eq_name {t : Token} {name : String} (h : t.leaf? = some (.name name)) :
    t.kind = .identifier ∧ t.text = name := by
  unfold leaf? at h
  split at h
  · next hk => exact ⟨hk, Leaf.name.inj (Option.some.inj h)⟩
  · cases h
  · cases h

theorem leaf?_operator {o : Token} {op : Operator}
    (h : Operator.additive o.kind = some op ∨ Operator.multiplicative o.kind = some op) :
    o.leaf? = none := by
  apply Token.leaf?_eq_none <;> rcases kind_of_operator h with h | h | h | h <;> simp [h]

/-- A derivation uses every name and number once, and in order. -/
theorem Derives.leaves_eq {m : Nonterminal} {ts : List Token} {e : Tree} (h : Derives m ts e) :
    e.leaves = ts.filterMap Token.leaf? := by
  induction h with
  | number ht => simp [Tree.leaves, Token.leaf?, ht]
  | identifier ht => simp [Tree.leaves, Token.leaf?, ht]
  | group hl he hr ih => simp [Token.leaf?, hl, hr, ih]
  | factor he ih => exact ih
  | product ha ho hb iha ihb =>
    rw [List.filterMap_append, List.filterMap_cons_none (leaf?_operator (.inr ho)), ← iha, ← ihb]
    rfl
  | term he ih => exact ih
  | sum ha ho hb iha ihb =>
    rw [List.filterMap_append, List.filterMap_cons_none (leaf?_operator (.inl ho)), ← iha, ← ihb]
    rfl

/-- The tree is that of a run of tokens: the last of them is a semicolon, and the identifiers and
numbers among them are the names and numbers of the tree. -/
structure Tree.ReadFrom (run : List Token) (t : Tree) : Prop where
  ends : ∃ s ∈ run.getLast?, s.kind = .semicolon
  leaves : t.leaves = run.filterMap Token.leaf?

theorem Statement.readFrom {ts : List Token} {name : String} {e : Tree}
    (h : Statement ts name e) : (Tree.assign name e).ReadFrom ts := by
  cases h with
  | @assign x q s ts e hx hq he hs =>
    have hlast : (x :: q :: (ts ++ [s])).getLast? = some s := by
      rw [← List.cons_append, ← List.cons_append, List.getLast?_concat]
    refine ⟨⟨s, hlast, hs⟩, ?_⟩
    simp [Tree.leaves, Token.leaf?, hx, hq, hs, he.leaves_eq]

/-- Every name of the tree is that of an identifier of the run. -/
theorem Tree.ReadFrom.exists_identifier {run : List Token} {t : Tree} (h : t.ReadFrom run)
    {name : String} (hname : .name name ∈ t.leaves) :
    ∃ u ∈ run, u.kind = .identifier ∧ u.text = name := by
  rw [h.leaves, List.mem_filterMap] at hname
  obtain ⟨u, hu, hleaf⟩ := hname
  exact ⟨u, hu, Token.leaf?_eq_name hleaf⟩

/-! ## Places in a stream -/

namespace Parser

variable {p q : Parser} {s : TokenStream} {ts : List Token}

/-- The index in the stream of the token at hand. -/
def place (s : TokenStream) (p : Parser) : Nat := s.tokens.length - p.remaining

/-- What is passed is what lies between the places. -/
theorem On.passes_extract (hp : p.On s) (hs : ∀ t ∈ s.tokens, t.kind ≠ .ending)
    (h : Passes p ts q) (hts : ∀ t ∈ ts, t.kind ≠ .ending) :
    s.tokens.extract (p.place s) (q.place s) = ts := by
  obtain ⟨r, hr, hat⟩ := hp
  obtain ⟨rest, hrest, hat'⟩ := h.exists_rest hat hts
  have hp' := hat.length_eq_remaining fun t ht => hs t (hr.tokens.mem ht)
  have hq' := hat'.length_eq_remaining fun t ht =>
    hs t (hr.tokens.mem (hrest ▸ List.mem_append_right ts ht))
  have hle := hr.tokens.length_le
  have hlen := congrArg List.length hrest
  rw [List.length_append] at hlen
  -- the distance of the places is the number of tokens that were passed
  have hdist : q.place s - p.place s = ts.length := by
    simp only at hq'
    simp only [place]
    omega
  rw [List.extract, hdist, place, drop_eq_of_at hr hat hs, hrest, List.take_left]

theorem place_call_le (hn : p.nesting ≤ maxDepth) : p.place s ≤ p.call.2.place s :=
  Nat.sub_le_sub_left (remaining_call_le hn) _

/-- A call that reads a statement goes over its tokens, which are within the limits. -/
theorem On.statement_extract {t : Tree} (hp : p.On s) (hs : ∀ t ∈ s.tokens, t.kind ≠ .ending)
    (h : p.answer = .ok t) :
    ∃ name e, t = .assign name e ∧ e.height ≤ maxDepth ∧
      Statement (s.tokens.extract (p.place s) (p.call.2.place s)) name e ∧
      NumbersFit (s.tokens.extract (p.place s) (p.call.2.place s)) := by
  obtain ⟨q, hq⟩ := answer_eq_ok_iff.mp h
  obtain ⟨ts, name, e, rfl, hst, hpasses, hh, hfit⟩ := statement_reads hq
  rw [call_of_ok hq, hp.passes_extract hs hpasses hst.kind_ne_ending]
  exact ⟨name, e, rfl, hh, hst, hfit.numbers⟩

/-- Whatever was scanned and parsed before, and whether it could be read or not, every tree that a
parser hands out is canonical, its names are identifiers that stand in the text, and it is read
from the tokens between the place of the parser before the call and that after it. The places never
go back, so the runs of different trees have no token in common and follow each other like the
calls. -/
theorem canonical_of_lifetime (text : String) (steps : List Scanner.Step) (p : Parser)
    (h : ((Scanner.ofString text).after steps).parser = .ok p) :
    ∃ place : Nat → Nat, Monotone place ∧ ∀ n t, (p.after n).answer = .ok t →
      t.Canonical ∧
      (∀ name, .name name ∈ t.leaves →
        ∃ u : Token, u.kind = .identifier ∧ u.text = name ∧ u.StandsIn text.toList) ∧
      t.ReadFrom
        ((Cursor.ofString text).stream.tokens.extract (place n) (place (n + 1))) := by
  have hstands : ∀ u ∈ (Cursor.ofString text).stream.tokens, u.StandsIn text.toList :=
    fun u => Token.standsIn_of_mem
  have hrun : ∀ i j, ∀ u ∈ (Cursor.ofString text).stream.tokens.extract i j,
      u.StandsIn text.toList := fun i j u hu =>
    hstands u (List.mem_of_mem_drop (List.mem_of_mem_take hu))
  refine ⟨fun n => (p.after n).place (Cursor.ofString text).stream, ?_, fun n t ht => ?_⟩
  · exact monotone_nat_of_le_succ fun n => place_call_le (on_after h n).2
  · have hon := (on_after h n).1.of_answer ht
    obtain ⟨name, e, rfl, hh, hst, hnum⟩ :=
      hon.statement_extract (fun u hu => (hstands u hu).spelt.kind_ne_ending) ht
    have hread := hst.readFrom
    refine ⟨hst.canonical (fun u hu => (hrun _ _ u hu).spelt) hnum hh, fun name hname => ?_,
      hread⟩
    obtain ⟨u, hu, hident, htext⟩ := hread.exists_identifier hname
    exact ⟨u, hident, htext, hrun _ _ u hu⟩

/-- Two statements with a broken one between them, whose last token is the first of the second. -/
theorem canonical_of_lifetime_broken :
    ∃ p, ((Scanner.ofString "; x = 1; y = (2 z = x - 07; w $").after [.next]).parser = .ok p ∧
      (p.after 0).answer = .ok (.assign "x" (.number 1)) ∧
      (p.after 1).answer = .error (.grammatical (.unexpectedToken "`z`" "`)`" 16)) ∧
      (p.after 2).answer = .ok (.assign "z" (.binary .subtract (.var "x") (.number 7))) ∧
      ∃ place : Nat → Nat, Monotone place ∧
        (Tree.assign "x" (.number 1)).ReadFrom
          ((Cursor.ofString "; x = 1; y = (2 z = x - 07; w $").stream.tokens.extract
            (place 0) (place 1)) ∧
        (Tree.assign "z" (.binary .subtract (.var "x") (.number 7))).ReadFrom
          ((Cursor.ofString "; x = 1; y = (2 z = x - 07; w $").stream.tokens.extract
            (place 2) (place 3)) := by
  have hcheck : (((Scanner.ofString "; x = 1; y = (2 z = x - 07; w $").after [.next]).parser.map
      fun p => ((p.after 0).answer, (p.after 1).answer, (p.after 2).answer)) =
        .ok (.ok (.assign "x" (.number 1)),
          .error (.grammatical (.unexpectedToken "`z`" "`)`" 16)),
          .ok (.assign "z" (.binary .subtract (.var "x") (.number 7)))) := by decide +kernel
  obtain ⟨p, hp, hafter⟩ := exists_of_map_eq_ok hcheck
  simp only [Prod.mk.injEq] at hafter
  obtain ⟨h₀, h₁, h₂⟩ := hafter
  obtain ⟨place, hplace, hrun⟩ :=
    canonical_of_lifetime "; x = 1; y = (2 z = x - 07; w $" [.next] p hp
  obtain ⟨-, -, hfirst⟩ := hrun 0 _ h₀
  obtain ⟨-, -, hsecond⟩ := hrun 2 _ h₂
  exact ⟨p, hp, h₀, h₁, h₂, place, hplace, hfirst, hsecond⟩

end Parser

end Reckon
