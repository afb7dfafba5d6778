import Mathlib.Control.Monad.Basic
import Reckon.Proofs.Effects
import Reckon.Proofs.History

/-!
  What an evaluation depends on. Of a store it sees the values of the tree's variables and nothing
  else, a name without a value counting as zero: over stores that agree on these it answers the
  same and writes the same values in the same order (`Tree.sameRun_of_agreeOn`), so afterwards every
  name has been given one value in both or is in each as it was (`Tree.eval_depends_on_reads`).

  So two statements of which neither assigns a name that the other one has in it can be run in
  either order, also if one of them or both fail (`Session.runs_commute`).
-/

namespace Reckon

/-! ## Agreement -/

/-- The names of the variables in a tree, from left to right. -/
def Tree.reads : Tree → List String
  | number _ => []
  | var name => [name]
  | binary _ left right => left.reads ++ right.reads
  | assign _ value => value.reads

namespace Store

variable {s s' : Store} {names : List String}

/-- Variables with these names read the same in both stores. -/
def AgreeOn (names : List String) (s s' : Store) : Prop :=
  ∀ name ∈ names, s'.read name = s.read name

theorem AgreeOn.of_append {more : List String} (h : AgreeOn (names ++ more) s s') :
    AgreeOn names s s' ∧ AgreeOn more s s' := List.forall_mem_append.mp h

/-- Stores that agree go on to agree if the same is written to both. -/
theorem AgreeOn.insertAll (h : AgreeOn names s s') (ws : List (String × Int)) :
    AgreeOn names (s.insertAll ws) (s'.insertAll ws) := by
  intro name hname
  unfold read
  rw [get?_insertAll, get?_insertAll]
  cases ws.reverse.lookup name with
  | none => exact h name hname
  | some n => rfl

/-- Giving a value to another name makes no difference. -/
theorem agreeOn_insert {name : String} (h : name ∉ names) (n : Int) :
    AgreeOn names s (s.insert name n) := by
  intro key hkey
  have hne : key ≠ name := fun heq => h (heq ▸ hkey)
  unfold read
  rw [get?_insert_of_ne s n hne]

theorem insert_comm {name name' : String} (h : name ≠ name') (n n' : Int) :
    (s.insert name n).insert name' n' = (s.insert name' n').insert name n := by
  apply ext_get?
  intro key
  rw [get?_insert, get?_insert, get?_insert, get?_insert]
  by_cases hkey : key = name
  · have hne : key ≠ name' := fun heq => h (hkey.symm.trans heq)
    rw [if_neg hne, if_pos hkey, if_pos hkey]
  · rw [if_neg hkey, if_neg hkey]

end Store

namespace Tree

variable {t : Tree} {s s' : Store}

/-- The evaluation answers the same over both stores, and the same nodes get the same values. -/
def SameRun (t : Tree) (s s' : Store) : Prop :=
  t.answer s' = t.answer s ∧ ∃ vs, Account t s vs ∧ Account t s' vs

theorem SameRun.intro {x : Except RunFault Int} {vs : List Valued} (h : t.answer s = x)
    (h' : t.answer s' = x) (hs : Account t s vs) (hs' : Account t s' vs) : t.SameRun s s' :=
  ⟨h'.trans h.symm, vs, hs, hs'⟩

/-- An operation runs the same if its operands do, the right one over what the left one leaves. -/
theorem SameRun.binary (op : Operator) {left right : Tree} (hl : left.SameRun s s')
    (hr : right.SameRun (left.storeAfter s) (left.storeAfter s')) :
    (binary op left right).SameRun s s' := by
  obtain ⟨hleft, vs, hs, hs'⟩ := hl
  obtain ⟨hright, ws, ht, ht'⟩ := hr
  cases ha : left.answer s with
  | error f =>
    have ha' := hleft.trans ha
    have hfail := binary_of_left op right ha
    have hfail' := binary_of_left op right ha'
    exact .intro hfail.1 hfail'.1 (hs.of_error ha hfail rfl) (hs'.of_error ha' hfail' rfl)
  | ok a =>
    have ha' := hleft.trans ha
    cases hb : right.answer (left.storeAfter s) with
    | error f =>
      have hb' := hright.trans hb
      exact .intro (binary_of_right op ha hb).1 (binary_of_right op ha' hb').1
        (hs.binary_of_right ha ht hb) (hs'.binary_of_right ha' ht' hb')
    | ok b =>
      have hb' := hright.trans hb
      have happly := (binary_of_operands op ha hb).1
      have happly' := (binary_of_operands op ha' hb').1
      cases hn : op.apply a b with
      | error f =>
        exact .intro (happly.trans hn) (happly'.trans hn) (hs.binary_of_fault ha ht hb hn)
          (hs'.binary_of_fault ha' ht' hb' hn)
      | ok n =>
        exact .intro (happly.trans hn) (happly'.trans hn) (hs.binary_of_result ha ht hb hn)
          (hs'.binary_of_result ha' ht' hb' hn)

theorem SameRun.assign (name : String) {value : Tree} (h : value.SameRun s s') :
    (assign name value).SameRun s s' := by
  obtain ⟨hvalue, vs, hs, hs'⟩ := h
  cases hn : value.answer s with
  | error f =>
    have hn' := hvalue.trans hn
    have hfail := assign_of_error name hn
    have hfail' := assign_of_error name hn'
    exact .intro hfail.1 hfail'.1 (hs.of_error hn hfail rfl) (hs'.of_error hn' hfail' rfl)
  | ok n =>
    have hn' := hvalue.trans hn
    exact .intro (assign_of_ok name hn).1 (assign_of_ok name hn').1 (hs.assign_of_ok hn)
      (hs'.assign_of_ok hn')

/-- The evaluation runs the same over stores that agree on the variables of the tree. In the
induction the operand on the left hands the agreement on: what it has written is in both stores. -/
theorem sameRun_of_agreeOn (h : s.AgreeOn t.reads s') : t.SameRun s s' := by
  induction t generalizing s s' with
  | number n =>
    exact .intro rfl rfl (.of_value (.nil s) rfl rfl rfl rfl) (.of_value (.nil s') rfl rfl rfl rfl)
  | var name =>
    have hread : s'.read name = s.read name := h name List.mem_cons_self
    have hanswer : (var name).answer s' = .ok (s.read name) := congrArg Except.ok hread
    exact .intro rfl hanswer (.of_value (.nil s) rfl rfl rfl rfl)
      (.of_value (.nil s') rfl hanswer hread.symm rfl)
  | binary op left right ihl ihr =>
    obtain ⟨hl, hr⟩ := Store.AgreeOn.of_append h
    have hleft := ihl hl
    obtain ⟨-, vs, hs, hs'⟩ := ihl hl
    have hagree : (left.storeAfter s).AgreeOn right.reads (left.storeAfter s') := by
      rw [hs.store, hs'.store]
      exact hr.insertAll (writes vs)
    exact hleft.binary op (ihr hagree)
  | assign name value ih => exact (ih h).assign name

/-- Over stores that give the same value to every variable that the tree reads, be it that a name
has no value in one of them and the value zero in the other, evaluation answers the same, with a
value or with a fault, and the same nodes get the same values. A name that is assigned on the way
has the same value in both stores afterwards, and any other name is in each of them as it was
there, with its value or without one. -/
theorem eval_depends_on_reads (t : Tree) (s s' : Store) (h : s.AgreeOn t.reads s') :
    t.answer s' = t.answer s ∧
    ∃ vs : List Valued, Account t s vs ∧ Account t s' vs ∧
      ∀ name,
        (∃ n, (name, n) ∈ writes vs ∧ (t.storeAfter s).get? name = some n ∧
          (t.storeAfter s').get? name = some n) ∨
        name ∉ (writes vs).map Prod.fst ∧ (t.storeAfter s).get? name = s.get? name ∧
          (t.storeAfter s').get? name = s'.get? name := by
  obtain ⟨hanswer, vs, hs, hs'⟩ := sameRun_of_agreeOn h
  refine ⟨hanswer, vs, hs, hs', fun name => ?_⟩
  rw [hs.store, hs'.store]
  rcases Store.get?_insertAll_cases (writes vs) name with ⟨n, hn, hget⟩ | ⟨hname, hget⟩
  · exact .inl ⟨n, hn, hget s, hget s'⟩
  · exact .inr ⟨hname, hget s, hget s'⟩

/-- A division by zero behind an assignment. The divisor has no value in the one store and the
value zero in the other, where the name that is assigned has a value that nothing reads. -/
theorem eval_depends_on_reads_quotient :
    (Store.ofList [("y", 2), ("q", 9)]).AgreeOn ["y", "w"]
        (.ofList [("y", 2), ("w", 0), ("x", 7)]) ∧
      (assign "z" (binary .divide (assign "x" (binary .add (var "y") (number 1)))
        (var "w"))).answer (.ofList [("y", 2), ("w", 0), ("x", 7)]) = .error .divisionByZero ∧
      ∃ vs : List Valued,
        Account (assign "z" (binary .divide (assign "x" (binary .add (var "y") (number 1)))
          (var "w"))) (.ofList [("y", 2), ("q", 9)]) vs ∧
        Account (assign "z" (binary .divide (assign "x" (binary .add (var "y") (number 1)))
          (var "w"))) (.ofList [("y", 2), ("w", 0), ("x", 7)]) vs ∧
        ("x", 3) ∈ writes vs ∧ "q" ∉ (writes vs).map Prod.fst := by
  have hagree : (Store.ofList [("y", 2), ("q", 9)]).AgreeOn ["y", "w"]
      (.ofList [("y", 2), ("w", 0), ("x", 7)]) := by
    unfold Store.AgreeOn
    decide
  obtain ⟨hanswer, vs, hs, hs', hnames⟩ := eval_depends_on_reads
    (assign "z" (binary .divide (assign "x" (binary .add (var "y") (number 1))) (var "w")))
    (.ofList [("y", 2), ("q", 9)]) (.ofList [("y", 2), ("w", 0), ("x", 7)]) hagree
  refine ⟨hagree, ?_, vs, hs, hs', ?_, ?_⟩
  · rw [hanswer]
    decide
  · rcases hnames "x" with ⟨n, hn, hx, -⟩ | ⟨-, hx, -⟩
    · have hthree : n = 3 := Option.some.inj (hx.symm.trans (by decide))
      exact hthree ▸ hn
    · exact absurd hx (by decide)
  · rcases hnames "q" with ⟨n, hn, -, hq⟩ | ⟨hq, -, -⟩
    · exact absurd (hq.symm.trans (by decide)) (Option.some_ne_none n)
    · exact hq

end Tree

/-! ## Independent statements -/

namespace Session

/-- The store after the statement that assigns an answer, if that is a value. -/
def keep (s : Store) (name : String) : Except RunFault Int → Store
  | .ok n => s.insert name n
  | .error _ => s

/-- A run of a statement answers as its expression does, and keeps the value under its name. -/
theorem record_of_parse {source name : String} {e : Tree}
    (h : parse source = .ok (.assign name e)) (s : Store) :
    record s source =
      ⟨source, (e.answer s).mapError .arithmetic, keep s name (e.answer s)⟩ := by
  obtain ⟨_, _, heq, -, hfree⟩ := isTarget_of_parse h
  obtain ⟨rfl, rfl⟩ := Tree.assign.inj heq
  unfold record Tree.answer
  rw [run_of_parse_eq_ok h, interpret_eq, Tree.eval_assign]
  rcases hfree.eval_eq s with ⟨n, hn⟩ | ⟨f, hf⟩
  · rw [hn]
    rfl
  · rw [hf]
    rfl

/-- What is kept under a name makes no difference to a tree that does not read the name. -/
theorem answer_keep {e : Tree} {name : String} (h : name ∉ e.reads) (s : Store)
    (x : Except RunFault Int) : e.answer (keep s name x) = e.answer s := by
  cases x with
  | ok n => exact (Tree.sameRun_of_agreeOn (Store.agreeOn_insert h n)).1
  | error f => rfl

theorem keep_comm {name name' : String} (h : name ≠ name') (s : Store)
    (x x' : Except RunFault Int) :
    keep (keep s name x) name' x' = keep (keep s name' x') name x := by
  cases x with
  | error f => rfl
  | ok n =>
    cases x' with
    | error f => rfl
    | ok n' => exact Store.insert_comm h n n'

/-- Two statements that assign different names, neither of which occurs in the expression of the
other, commute over every store: each gives the same result or the same fault, whichever comes
first, and the store in the end is the same. -/
theorem runs_commute {source source' name name' : String} {e e' : Tree}
    (h : parse source = .ok (.assign name e)) (h' : parse source' = .ok (.assign name' e'))
    (hne : name ≠ name') (he : name' ∉ e.reads) (he' : name ∉ e'.reads) (s : Store) :
    (record (record s source').store source).answer = (record s source).answer ∧
      (record (record s source).store source').answer = (record s source').answer ∧
      after s [source, source'] = after s [source', source] := by
  simp only [after, record_of_parse h, record_of_parse h', answer_keep he, answer_keep he',
    true_and]
  exact keep_comm hne s _ _

/-- Of these two statements the first fails before the second and behind it. -/
theorem runs_commute_failure :
    (record (.ofList [("a", 4), ("x", 1)]) "x = a / z;").answer =
        .error (.arithmetic .divisionByZero) ∧
      (record (record (.ofList [("a", 4), ("x", 1)]) "y = a * y; b").store "x = a / z;").answer =
        (record (.ofList [("a", 4), ("x", 1)]) "x = a / z;").answer ∧
      after (.ofList [("a", 4), ("x", 1)]) ["x = a / z;", "y = a * y; b"] =
        after (.ofList [("a", 4), ("x", 1)]) ["y = a * y; b", "x = a / z;"] := by
  have hquotient : parse "x = a / z;" =
      .ok (.assign "x" (.binary .divide (.var "a") (.var "z"))) := by decide +kernel
  have hproduct : parse "y = a * y; b" =
      .ok (.assign "y" (.binary .multiply (.var "a") (.var "y"))) := by decide +kernel
  obtain ⟨hfirst, -, hafter⟩ := runs_commute hquotient hproduct (by decide) (by decide) (by decide)
    (.ofList [("a", 4), ("x", 1)])
  refine ⟨?_, hfirst, hafter⟩
  rw [record_of_parse hquotient]
  rfl

end Session

end Reckon
