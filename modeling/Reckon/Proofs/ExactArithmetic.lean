import Reckon.Evaluation

/-!
  Evaluation against exact arithmetic. `Tree.exact` evaluates a tree over the integers without
  bounds: it threads the store from left to right, keeps the operations in the order in which they
  are performed, and stops only at a division by zero. The evaluation of the language gives the
  same value and the same store as long as every exact result is a value, and otherwise the fault
  of the first operation of which that is not so (`eval_agrees`). The two go apart at that
  operation and nowhere before it, so its operands are the exact ones.
-/

namespace Reckon

/-! ## Operations -/

/-- An operator with its two operands. -/
structure Operation where
  op : Operator
  left : Int
  right : Int
  deriving DecidableEq, Repr

namespace Operation

/-- The mathematical result, which a division by zero lacks. Division drops the fraction, toward
zero. -/
def exact (o : Operation) : Option Int :=
  match o.op with
  | .add => some (o.left + o.right)
  | .subtract => some (o.left - o.right)
  | .multiply => some (o.left * o.right)
  | .divide => if o.right = 0 then none else some (o.left.tdiv o.right)

/-- The mathematical result is there and is a value. -/
def InRange (o : Operation) : Prop := ∃ n, o.exact = some n ∧ Integer.Representable n

instance (o : Operation) : Decidable o.InRange :=
  match h : o.exact with
  | none => isFalse fun ⟨n, hn, _⟩ => by rw [h] at hn; cases hn
  | some n =>
    decidable_of_iff (Integer.Representable n)
      ⟨fun hr => ⟨n, h, hr⟩, fun ⟨m, hm, hr⟩ => Option.some.inj (h.symm.trans hm) ▸ hr⟩

/-- The fault of an operation that is not in range. -/
def fault (o : Operation) : RunFault :=
  if o.op = .divide ∧ o.right = 0 then .divisionByZero
  else .overflow o.left o.op.symbol o.right

/-- Checked arithmetic has the exact result if that is a value, and no other. -/
theorem checked_eq_some_iff {o : Operation} {n : Int} :
    o.op.checked o.left o.right = some n ↔ o.exact = some n ∧ Integer.Representable n := by
  obtain ⟨op, a, b⟩ := o
  cases op with
  | add | subtract | multiply =>
    simp only [Operator.checked, exact, Option.some.injEq]
    exact Integer.ofInt?_eq_some_iff
  | divide =>
    simp only [Operator.checked, exact]
    split
    · simp
    · rw [Integer.ofInt?_eq_some_iff, Option.some.injEq]

theorem apply_eq_ok_iff {o : Operation} {n : Int} :
    o.op.apply o.left o.right = .ok n ↔ o.exact = some n ∧ Integer.Representable n := by
  rw [← checked_eq_some_iff]
  unfold Operator.apply
  split
  · next h =>
    have hn : o.op.checked o.left o.right = none := by simp [h, Operator.checked]
    simp [hn]
  · cases o.op.checked o.left o.right <;> simp

theorem apply_of_not_inRange {o : Operation} (h : ¬ o.InRange) :
    o.op.apply o.left o.right = .error o.fault := by
  unfold Operator.apply fault
  split
  · rfl
  · cases hc : o.op.checked o.left o.right with
    | none => rfl
    | some n => exact absurd ⟨n, checked_eq_some_iff.mp hc⟩ h

/-- The first operation of a list that is not in range. -/
def IsFirstOutOfRange (os : List Operation) (o : Operation) : Prop :=
  ∃ before after, os = before ++ o :: after ∧ (∀ p ∈ before, p.InRange) ∧ ¬ o.InRange

theorem IsFirstOutOfRange.not_forall {os : List Operation} {o : Operation}
    (h : IsFirstOutOfRange os o) : ¬ ∀ p ∈ os, p.InRange := by
  obtain ⟨before, after, rfl, -, hout⟩ := h
  intro hin
  exact hout (hin o (by simp))

theorem IsFirstOutOfRange.unique {os : List Operation} {o o' : Operation}
    (h : IsFirstOutOfRange os o) (h' : IsFirstOutOfRange os o') : o = o' := by
  have hfind : ∀ {o}, IsFirstOutOfRange os o → os.find? (fun p => !decide p.InRange) = some o := by
    rintro o ⟨before, after, hos, hin, hout⟩
    exact List.find?_eq_some_iff_append.mpr
      ⟨by simpa using hout, before, after, hos, by simpa using hin⟩
  exact Option.some.inj ((hfind h).symm.trans (hfind h'))

end Operation

/-! ## Exact runs -/

/-- The operations that were performed, and the value and the store unless a division by zero
ended the run. -/
structure ExactRun where
  operations : List Operation
  outcome : Option (Int × Store)

namespace ExactRun

/-- A run without operations. -/
def done (n : Int) (s : Store) : ExactRun := ⟨[], some (n, s)⟩

/-- A single operation. -/
def perform (o : Operation) (s : Store) : ExactRun := ⟨[o], o.exact.map fun n => (n, s)⟩

/-- A run that goes on with the value and the store of another one. -/
def andThen (r : ExactRun) (next : Int → Store → ExactRun) : ExactRun :=
  match r.outcome with
  | none => r
  | some (n, s) => ⟨r.operations ++ (next n s).operations, (next n s).outcome⟩

/-- The run performs these operators in this order, all of them unless it is ended. -/
def Performs (r : ExactRun) (ops : List Operator) : Prop :=
  ∃ rest, ops = r.operations.map Operation.op ++ rest ∧ (r.outcome.isSome → rest = [])

/-- The computation has the outcome of the run, every operation being in range. -/
def Succeeds (r : ExactRun) (x : EStateM.Result RunFault Store Int) : Prop :=
  ∃ n s, r.outcome = some (n, s) ∧ (∀ o ∈ r.operations, o.InRange) ∧ x = .ok n s

/-- The computation ends with the fault of the first operation that is not in range. -/
def Fails (r : ExactRun) (x : EStateM.Result RunFault Store Int) : Prop :=
  ∃ o s, Operation.IsFirstOutOfRange r.operations o ∧ x = .error o.fault s

/-- The computation does what the run says it does. -/
def Agrees (r : ExactRun) (x : EStateM.Result RunFault Store Int) : Prop :=
  r.Succeeds x ∨ r.Fails x

variable {r : ExactRun} {next : Int → Store → ExactRun}

theorem andThen_of_none (h : r.outcome = none) : r.andThen next = r := by
  simp only [andThen, h]

theorem andThen_of_some {n : Int} {s : Store} (h : r.outcome = some (n, s)) :
    r.andThen next = ⟨r.operations ++ (next n s).operations, (next n s).outcome⟩ := by
  simp only [andThen, h]

theorem performs_done (n : Int) (s : Store) : (done n s).Performs [] := ⟨[], rfl, fun _ => rfl⟩

theorem performs_perform (o : Operation) (s : Store) : (perform o s).Performs [o.op] :=
  ⟨[], rfl, fun _ => rfl⟩

theorem Performs.andThen {ops ops' : List Operator} (h : r.Performs ops)
    (hnext : ∀ n s, (next n s).Performs ops') : (r.andThen next).Performs (ops ++ ops') := by
  obtain ⟨rest, rfl, hrest⟩ := h
  cases ho : r.outcome with
  | none =>
    rw [andThen_of_none ho]
    exact ⟨rest ++ ops', by rw [List.append_assoc], by simp [ho]⟩
  | some ns =>
    obtain ⟨n, s⟩ := ns
    obtain ⟨rest', rfl, hrest'⟩ := hnext n s
    have hnil : rest = [] := hrest (by rw [ho]; rfl)
    rw [andThen_of_some ho, hnil]
    exact ⟨rest', by simp, hrest'⟩

theorem agrees_done (n : Int) (s : Store) : (done n s).Agrees (.ok n s) :=
  .inl ⟨n, s, rfl, by simp [done], rfl⟩

theorem agrees_perform (o : Operation) (s : Store) :
    (perform o s).Agrees (o.op.evaluate o.left o.right s) := by
  by_cases ho : o.InRange
  · left
    obtain ⟨n, hn, hr⟩ := id ho
    refine ⟨n, s, by rw [perform, hn]; rfl, by simpa [perform] using ho, ?_⟩
    rw [Operator.evaluate, Operation.apply_eq_ok_iff.mpr ⟨hn, hr⟩]
    rfl
  · right
    refine ⟨o, s, ⟨[], [], rfl, by simp, ho⟩, ?_⟩
    rw [Operator.evaluate, Operation.apply_of_not_inRange ho]
    rfl

/-- Computations that agree with runs agree when one goes on after the other. A fault of the first
one ends both, and its operation is the first that is out of range in the whole run too. -/
theorem Agrees.andThen {x : Evaluation Int} {f : Int → Evaluation Int} {s : Store}
    (h : r.Agrees (x s)) (hnext : ∀ n s, (next n s).Agrees (f n s)) :
    (r.andThen next).Agrees ((x >>= f) s) := by
  rcases h with ⟨n, s', ho, hin, hx⟩ | ⟨o, s', ⟨before, after, hops, hin, hout⟩, hx⟩
  · have hbind : (x >>= f) s = f n s' := by simp only [bind, EStateM.bind, hx]
    rw [hbind, andThen_of_some ho]
    rcases hnext n s' with
      ⟨m, s'', ho', hin', hx'⟩ | ⟨o, s'', ⟨before, after, hops, hin', hout⟩, hx'⟩
    · exact .inl ⟨m, s'', ho', List.forall_mem_append.mpr ⟨hin, hin'⟩, hx'⟩
    · refine .inr ⟨o, s'', ⟨r.operations ++ before, after, ?_, ?_, hout⟩, hx'⟩
      · rw [hops, List.append_assoc]
      · exact List.forall_mem_append.mpr ⟨hin, hin'⟩
  · have hbind : (x >>= f) s = .error o.fault s' := by simp only [bind, EStateM.bind, hx]
    rw [hbind]
    right
    cases ho : r.outcome with
    | none =>
      rw [andThen_of_none ho]
      exact ⟨o, s', ⟨before, after, hops, hin, hout⟩, rfl⟩
    | some ns =>
      rw [andThen_of_some ho, hops]
      exact ⟨o, s', ⟨before, after ++ (next ns.1 ns.2).operations, by simp, hin, hout⟩, rfl⟩

variable {x : EStateM.Result RunFault Store Int}

theorem Agrees.exists_ok_iff (h : r.Agrees x) :
    (∃ n s, x = .ok n s) ↔ ∀ o ∈ r.operations, o.InRange := by
  rcases h with ⟨n, s, -, hin, hx⟩ | ⟨o, s, hfirst, hx⟩
  · exact ⟨fun _ => hin, fun _ => ⟨n, s, hx⟩⟩
  · rw [hx]
    constructor
    · rintro ⟨_, _, ⟨⟩⟩
    · intro hin
      exact absurd hin hfirst.not_forall

theorem Agrees.outcome_eq {n : Int} {s : Store} (h : r.Agrees x) (hx : x = .ok n s) :
    r.outcome = some (n, s) := by
  rcases h with ⟨m, s', ho, -, hx'⟩ | ⟨o, s', -, hx'⟩
  · rw [hx'] at hx
    cases hx
    exact ho
  · rw [hx'] at hx
    cases hx

theorem Agrees.error_iff {f : RunFault} (h : r.Agrees x) :
    (∃ s, x = .error f s) ↔ ∃ o, Operation.IsFirstOutOfRange r.operations o ∧ f = o.fault := by
  rcases h with ⟨n, s, -, hin, hx⟩ | ⟨o, s, hfirst, hx⟩
  · rw [hx]
    constructor
    · rintro ⟨_, ⟨⟩⟩
    · rintro ⟨o, hfirst, -⟩
      exact absurd hin hfirst.not_forall
  · rw [hx]
    constructor
    · rintro ⟨_, ⟨⟩⟩
      exact ⟨o, hfirst, rfl⟩
    · rintro ⟨o', hfirst', rfl⟩
      rw [hfirst'.unique hfirst]
      exact ⟨s, rfl⟩

end ExactRun

/-! ## Trees -/

namespace Tree

open ExactRun (done perform)

/-- Evaluation over the integers without bounds: the store goes from left to right, and a name
that is absent reads zero. -/
def exact : Tree → Store → ExactRun
  | number n, s => done n s
  | var name, s => done ((s.get? name).getD 0) s
  | binary op left right, s =>
    (left.exact s).andThen fun a s₁ => (right.exact s₁).andThen fun b s₂ => perform ⟨op, a, b⟩ s₂
  | assign name value, s => (value.exact s).andThen fun n s₁ => done n (s₁.insert name n)

/-- The operators of a tree, each after those of its operands. -/
def operators : Tree → List Operator
  | number _ => []
  | var _ => []
  | binary op left right => left.operators ++ (right.operators ++ [op])
  | assign _ value => value.operators

/-- The exact evaluation performs the operations of the tree in post-order. -/
theorem performs_exact (t : Tree) (s : Store) : (t.exact s).Performs t.operators := by
  induction t generalizing s with
  | number n => exact ExactRun.performs_done n s
  | var name => exact ExactRun.performs_done _ s
  | binary op left right ihl ihr =>
    exact (ihl s).andThen fun a s₁ => (ihr s₁).andThen fun b s₂ =>
      ExactRun.performs_perform ⟨op, a, b⟩ s₂
  | assign name value ih =>
    have h := (ih s).andThen fun n s₁ => ExactRun.performs_done n (s₁.insert name n)
    rwa [List.append_nil] at h

/-- The evaluation does what the exact evaluation says it does. -/
theorem eval_agrees (t : Tree) (s : Store) : (t.exact s).Agrees (t.eval s) := by
  induction t generalizing s with
  | number n => exact ExactRun.agrees_done n s
  | var name => exact ExactRun.agrees_done _ s
  | binary op left right ihl ihr =>
    exact (ihl s).andThen fun a s₁ => (ihr s₁).andThen fun b s₂ =>
      ExactRun.agrees_perform ⟨op, a, b⟩ s₂
  | assign name value ih =>
    exact (ih s).andThen fun n s₁ => ExactRun.agrees_done n (s₁.insert name n)

/-- A tree has a value exactly if no operation of its exact evaluation divides by zero or has a
result outside the range, and then it has the exact value and leaves the exact store. Otherwise it
has the fault of the first operation that does, in the order in which the operations stand in the
tree. -/
theorem eval_refines_exact (t : Tree) (s : Store) :
    ((∃ n s', t.eval s = .ok n s') ↔ ∀ o ∈ (t.exact s).operations, o.InRange) ∧
    (∀ n s', t.eval s = .ok n s' → (t.exact s).outcome = some (n, s')) ∧
    (∀ f, (∃ s', t.eval s = .error f s') ↔
      ∃ o, Operation.IsFirstOutOfRange (t.exact s).operations o ∧ f = o.fault) ∧
    (t.exact s).Performs t.operators := by
  have h := eval_agrees t s
  exact ⟨h.exists_ok_iff, fun n s' => h.outcome_eq, fun f => h.error_iff, performs_exact t s⟩

/-- The least value divided by minus one, after an assignment that was complete. -/
theorem eval_refines_exact_least_quotient :
    ∃ s, (binary .divide (assign "x" (number (-2147483648))) (number (-1))).eval Store.empty =
      .error (.overflow (-2147483648) '/' (-1)) s := by
  obtain ⟨-, -, hfault, -⟩ := eval_refines_exact
    (binary .divide (assign "x" (number (-2147483648))) (number (-1))) Store.empty
  have hout : ¬ (⟨.divide, -2147483648, -1⟩ : Operation).InRange := by decide
  exact (hfault _).mpr ⟨_, ⟨[], [], rfl, by simp, hout⟩, rfl⟩

end Tree

end Reckon
