import Mathlib.Data.List.Induction
import Reckon.Proofs.Atomicity

/-!
  What evaluation does to the store, and in which order. The nodes of a tree get their values in
  post-order: first those of the operands, from left to right, then the node itself. An evaluation
  that fails stops at some operation of this order, and what stands before it has been done.

  `Account` says so of one evaluation, with the nodes that got a value and these values: each value
  follows from the ones before it (`Valued.Follows`), and the store afterwards is the first one
  with the assignments among the nodes carried out in order, whether the evaluation comes to an
  end or fails. `exists_account` proves it by induction on the tree; an operand is evaluated over
  the store that the account of the operand before it leaves.
-/

namespace Reckon

/-! ## Writing to a store -/

namespace Store

variable {s : Store} {ws : List (String × Int)}

/-- Gives names values, one after the other. -/
def insertAll (s : Store) (ws : List (String × Int)) : Store :=
  ws.foldl (fun s w => s.insert w.1 w.2) s

theorem insertAll_append (s : Store) (ws ws' : List (String × Int)) :
    s.insertAll (ws ++ ws') = (s.insertAll ws).insertAll ws' := List.foldl_append

/-- A name has the value that was written to it last, or the one that it had. -/
theorem get?_insertAll (s : Store) (ws : List (String × Int)) (name : String) :
    (s.insertAll ws).get? name = (ws.reverse.lookup name).or (s.get? name) := by
  induction ws using List.reverseRecOn with
  | nil => rfl
  | append_singleton ws w ih =>
    rw [insertAll_append, List.reverse_append, List.reverse_singleton, List.singleton_append,
      lookup_entry_cons]
    show ((s.insertAll ws).insert w.1 w.2).get? name = _
    rw [get?_insert, ih]
    split <;> rfl

/-- A name that is written has the same value afterwards over every store, and one that is not is
as it was in each. -/
theorem get?_insertAll_cases (ws : List (String × Int)) (name : String) :
    (∃ n, (name, n) ∈ ws ∧ ∀ s : Store, (s.insertAll ws).get? name = some n) ∨
      name ∉ ws.map Prod.fst ∧ ∀ s : Store, (s.insertAll ws).get? name = s.get? name := by
  simp only [get?_insertAll]
  cases hlast : ws.reverse.lookup name with
  | some n =>
    obtain ⟨front, back, hws, -⟩ := List.lookup_eq_some_iff.mp hlast
    have hmem : (name, n) ∈ ws.reverse := by
      rw [hws]
      exact List.mem_append_right _ List.mem_cons_self
    exact .inl ⟨n, List.mem_reverse.mp hmem, fun s => rfl⟩
  | none =>
    refine .inr ⟨fun hname => ?_, fun s => rfl⟩
    obtain ⟨w, hw, rfl⟩ := List.mem_map.mp hname
    have hne := List.lookup_eq_none_iff.mp hlast w (List.mem_reverse.mpr hw)
    simp at hne

/-- Writing adds the names that are written and takes none away. -/
theorem mem_keys_insertAll {name : String} :
    name ∈ (s.insertAll ws).keys ↔ name ∈ s.keys ∨ name ∈ ws.map Prod.fst := by
  induction ws generalizing s with
  | nil => simp [insertAll]
  | cons w ws ih =>
    show name ∈ ((s.insert w.1 w.2).insertAll ws).keys ↔ _
    rw [ih, mem_keys_insert, List.map_cons, List.mem_cons, or_assoc, or_left_comm]

end Store

namespace Tree

/-! ## Outcomes -/

/-- What an evaluation answers: a value or a fault. -/
def answer (t : Tree) (s : Store) : Except RunFault Int :=
  match t.eval s with
  | .ok n _ => .ok n
  | .error f _ => .error f

/-- The store that an evaluation leaves, whatever it answers. -/
def storeAfter (t : Tree) (s : Store) : Store :=
  match t.eval s with
  | .ok _ s' => s'
  | .error _ s' => s'

theorem answer_eq_ok_iff {t : Tree} {s : Store} {n : Int} :
    t.answer s = .ok n ↔ ∃ s', t.eval s = .ok n s' := by
  unfold answer
  cases t.eval s <;> simp

theorem answer_eq_error_iff {t : Tree} {s : Store} {f : RunFault} :
    t.answer s = .error f ↔ ∃ s', t.eval s = .error f s' := by
  unfold answer
  cases t.eval s <;> simp

section

variable (op : Operator) {left right value : Tree} (name : String) {s : Store} {a b n : Int}
  {f : RunFault}

/-- A left operand that fails is the last that is evaluated. -/
theorem binary_of_left (right : Tree) (hf : left.answer s = .error f) :
    (binary op left right).answer s = .error f ∧
      (binary op left right).storeAfter s = left.storeAfter s := by
  obtain ⟨s₁, hleft⟩ := answer_eq_error_iff.mp hf
  simp only [answer, storeAfter, eval_binary, hleft, and_self]

theorem binary_of_right (ha : left.answer s = .ok a)
    (hf : right.answer (left.storeAfter s) = .error f) :
    (binary op left right).answer s = .error f ∧
      (binary op left right).storeAfter s = right.storeAfter (left.storeAfter s) := by
  obtain ⟨s₁, hleft⟩ := answer_eq_ok_iff.mp ha
  obtain ⟨s₂, hright⟩ := answer_eq_error_iff.mp hf
  simp only [storeAfter, hleft] at hright
  simp only [answer, storeAfter, eval_binary, hleft, hright, and_self]

/-- With a value for each operand it is for the operation to answer. -/
theorem binary_of_operands (ha : left.answer s = .ok a)
    (hb : right.answer (left.storeAfter s) = .ok b) :
    (binary op left right).answer s = op.apply a b ∧
      (binary op left right).storeAfter s = right.storeAfter (left.storeAfter s) := by
  obtain ⟨s₁, hleft⟩ := answer_eq_ok_iff.mp ha
  obtain ⟨s₂, hright⟩ := answer_eq_ok_iff.mp hb
  simp only [storeAfter, hleft] at hright
  simp only [answer, storeAfter, eval_binary, hleft, hright]
  cases op.apply a b <;> exact ⟨rfl, rfl⟩

theorem assign_of_error (hf : value.answer s = .error f) :
    (assign name value).answer s = .error f ∧
      (assign name value).storeAfter s = value.storeAfter s := by
  obtain ⟨s₁, hvalue⟩ := answer_eq_error_iff.mp hf
  simp only [answer, storeAfter, eval_assign, hvalue, and_self]

/-- An assignment answers with the value that it assigns. -/
theorem assign_of_ok (hn : value.answer s = .ok n) :
    (assign name value).answer s = .ok n ∧
      (assign name value).storeAfter s = (value.storeAfter s).insert name n := by
  obtain ⟨s₁, hvalue⟩ := answer_eq_ok_iff.mp hn
  simp only [answer, storeAfter, eval_assign, hvalue, and_self]

end

/-! ## Post-order -/

/-- The nodes of a tree in post-order, each with everything below it. -/
def nodes : Tree → List Tree
  | number n => [number n]
  | var name => [var name]
  | binary op left right => left.nodes ++ (right.nodes ++ [binary op left right])
  | assign name value => value.nodes ++ [assign name value]

/-- The node is an assignment. -/
def isAssign : Tree → Bool
  | assign _ _ => true
  | _ => false

/-- The assignments in a tree, in post-order. -/
def assignments (t : Tree) : List Tree := t.nodes.filter isAssign

theorem assignments_eq_nil_iff {t : Tree} : t.assignments = [] ↔ t.AssignFree := by
  induction t with
  | number n => exact iff_of_true rfl trivial
  | var name => exact iff_of_true rfl trivial
  | binary op left right ihl ihr =>
    unfold assignments at ihl ihr ⊢
    rw [AssignFree, ← ihl, ← ihr]
    simp [nodes, isAssign]
  | assign name value ih => simp [assignments, nodes, isAssign, AssignFree]

end Tree

/-! ## Nodes with values -/

/-- A node of a tree, and the value that it got. -/
structure Valued where
  node : Tree
  value : Int
  deriving DecidableEq, Repr

namespace Valued

/-- What the node writes: an assignment gives its value to its name. -/
def write? (v : Valued) : Option (String × Int) :=
  match v.node with
  | .assign name _ => some (name, v.value)
  | _ => none

end Valued

/-- What some nodes write, in order. -/
def writes (vs : List Valued) : List (String × Int) := vs.filterMap Valued.write?

theorem writes_append (vs ws : List Valued) : writes (vs ++ ws) = writes vs ++ writes ws :=
  List.filterMap_append

/-- The last nodes of a list are those of the right operand, behind the left operand itself, and
the operands have these values. -/
def Operands (vs : List Valued) (left : Tree) (a : Int) (right : Tree) (b : Int) : Prop :=
  ∃ front inside, vs = front ++ ⟨left, a⟩ :: (inside ++ [⟨right, b⟩]) ∧
    inside.map Valued.node ++ [right] = right.nodes

/-- The value of a node follows from the nodes that got theirs before it, over the store that all
began with: a variable reads that store with the assignments before it carried out, an operation
has the result of its operands, and an assignment the value of its expression, which was the last
to get one. -/
def Valued.Follows (s : Store) (before : List Valued) (v : Valued) : Prop :=
  match v.node with
  | .number n => v.value = n
  | .var name => v.value = (s.insertAll (writes before)).read name
  | .binary op left right => ∃ a b, Operands before left a right b ∧ op.apply a b = .ok v.value
  | .assign _ value => ∃ front, before = front ++ [⟨value, v.value⟩]

/-- Each value follows from those before it. -/
def Grounded (s : Store) (vs : List Valued) : Prop :=
  ∀ before v after, vs = before ++ v :: after → v.Follows s before

theorem Operands.append {vs : List Valued} {left right : Tree} {a b : Int} (front : List Valued)
    (h : Operands vs left a right b) : Operands (front ++ vs) left a right b := by
  obtain ⟨front', inside, rfl, hnodes⟩ := h
  exact ⟨front ++ front', inside, (List.append_assoc _ _ _).symm, hnodes⟩

/-- What came earlier may be put in front, if the store has been changed accordingly. -/
theorem Valued.Follows.append {s : Store} {front before : List Valued} {v : Valued}
    (h : v.Follows (s.insertAll (writes front)) before) : v.Follows s (front ++ before) := by
  obtain ⟨node, n⟩ := v
  cases node with
  | number m => exact h
  | var name =>
    show n = (s.insertAll (writes (front ++ before))).read name
    rw [writes_append, Store.insertAll_append]
    exact h
  | binary op left right =>
    obtain ⟨a, b, hoperands, happly⟩ := h
    exact ⟨a, b, hoperands.append front, happly⟩
  | assign name value =>
    obtain ⟨front', rfl⟩ := h
    exact ⟨front ++ front', (List.append_assoc _ _ _).symm⟩

namespace Grounded

variable {s : Store} {vs ws : List Valued}

theorem nil (s : Store) : Grounded s [] := by
  intro before v after h
  simp at h

theorem snoc {v : Valued} (h : Grounded s vs) (hv : v.Follows s vs) : Grounded s (vs ++ [v]) := by
  intro before u after heq
  rcases List.append_eq_append_iff.mp heq with ⟨as, rfl, hu⟩ | ⟨bs, rfl, hu⟩
  · -- at the end
    cases as with
    | nil =>
      obtain ⟨rfl, -⟩ := List.cons.inj hu
      rwa [List.append_nil]
    | cons w as => simp at hu
  · -- before it
    cases bs with
    | nil =>
      obtain ⟨rfl, -⟩ := List.cons.inj hu
      rwa [List.append_nil] at hv
    | cons w bs =>
      obtain ⟨rfl, -⟩ := List.cons.inj hu
      exact h before u bs rfl

/-- Nodes that are grounded over the store which others leave are grounded behind those. The
induction is on the later nodes, from their end. -/
theorem append (h : Grounded s vs) (h' : Grounded (s.insertAll (writes vs)) ws) :
    Grounded s (vs ++ ws) := by
  induction ws using List.reverseRecOn with
  | nil => rwa [List.append_nil]
  | append_singleton ws w ih =>
    have hw : w.Follows (s.insertAll (writes vs)) ws := h' ws w [] rfl
    have hws : Grounded (s.insertAll (writes vs)) ws := by
      intro before v after heq
      exact h' before v (after ++ [w]) (by rw [heq, List.append_assoc, List.cons_append])
    rw [← List.append_assoc]
    exact (ih hws).snoc hw.append

end Grounded

/-! ## The account of an evaluation -/

/-- The nodes with values lead to this answer. They are all nodes of the tree, the last of them
the tree itself with the value that is answered, or they are those before an operation that has no
result. -/
def Ends (t : Tree) (vs : List Valued) : Except RunFault Int → Prop
  | .ok n => vs.map Valued.node = t.nodes ∧ ∃ front, vs = front ++ [⟨t, n⟩]
  | .error f => ∃ op left right a b rest,
      t.nodes = vs.map Valued.node ++ .binary op left right :: rest ∧
        Operands vs left a right b ∧ op.apply a b = .error f

/-- What an evaluation comes to: these nodes got these values, in post-order. -/
structure Account (t : Tree) (s : Store) (vs : List Valued) : Prop where
  grounded : Grounded s vs
  ends : Ends t vs (t.answer s)
  store : t.storeAfter s = s.insertAll (writes vs)

section

variable {t left right value : Tree} {s : Store} {vs ws : List Valued} {op : Operator}
  {name : String} {a b n : Int} {f : RunFault}

theorem Ends.prefix_nodes {x : Except RunFault Int} (h : Ends t vs x) :
    vs.map Valued.node <+: t.nodes := by
  cases x with
  | ok n => exact h.1 ▸ List.prefix_refl _
  | error f =>
    obtain ⟨op, left, right, a, b, rest, hnodes, -⟩ := h
    exact ⟨_, hnodes.symm⟩

/-- A failure stays the same if more nodes come before and behind. -/
theorem Ends.error_append (h : Ends t ws (.error f)) (vs : List Valued) {u : Tree}
    {rest : List Tree} (hu : u.nodes = vs.map Valued.node ++ (t.nodes ++ rest)) :
    Ends u (vs ++ ws) (.error f) := by
  obtain ⟨op, left, right, a, b, more, hnodes, hoperands, happly⟩ := h
  refine ⟨op, left, right, a, b, more ++ rest, ?_, hoperands.append vs, happly⟩
  rw [hu, hnodes, List.map_append]
  simp only [List.append_assoc, List.cons_append]

theorem operands_of_ends (h : Ends left vs (.ok a)) (h' : Ends right ws (.ok b)) :
    Operands (vs ++ ws) left a right b := by
  obtain ⟨-, front, rfl⟩ := h
  obtain ⟨hnodes, inside, rfl⟩ := h'
  refine ⟨front, inside, by rw [List.append_assoc, List.singleton_append], ?_⟩
  rw [← hnodes, List.map_append]
  rfl

namespace Account

/-- The nodes of the left operand and then those of the right one. -/
theorem grounded_append (h : Account left s vs) (h' : Account right (left.storeAfter s) ws) :
    Grounded s (vs ++ ws) :=
  h.grounded.append (h.store ▸ h'.grounded)

theorem store_append (h : Account left s vs) (h' : Account right (left.storeAfter s) ws) :
    right.storeAfter (left.storeAfter s) = s.insertAll (writes (vs ++ ws)) := by
  rw [writes_append, Store.insertAll_append, ← h.store]
  exact h'.store

/-- A tree that has a value has it behind those of its operands. -/
theorem of_value (hvs : Grounded s vs) (hnodes : t.nodes = vs.map Valued.node ++ [t])
    (hn : t.answer s = .ok n) (hfollows : Valued.Follows s vs ⟨t, n⟩)
    (hstore : t.storeAfter s = s.insertAll (writes (vs ++ [⟨t, n⟩]))) :
    Account t s (vs ++ [⟨t, n⟩]) := by
  refine ⟨hvs.snoc hfollows, ?_, hstore⟩
  rw [hn]
  exact ⟨by rw [hnodes, List.map_append, List.map_singleton], vs, rfl⟩

/-- A tree fails where the part of it fails that is evaluated first. -/
theorem of_error {u : Tree} {rest : List Tree} (h : Account t s vs) (hf : t.answer s = .error f)
    (hu : u.answer s = .error f ∧ u.storeAfter s = t.storeAfter s)
    (hnodes : u.nodes = t.nodes ++ rest) : Account u s vs := by
  obtain ⟨hanswer, hstore⟩ := hu
  have hends := h.ends
  rw [hf] at hends
  refine ⟨h.grounded, ?_, hstore ▸ h.store⟩
  rw [hanswer]
  exact hends.error_append [] hnodes

theorem binary_of_right (h : Account left s vs) (ha : left.answer s = .ok a)
    (h' : Account right (left.storeAfter s) ws)
    (hf : right.answer (left.storeAfter s) = .error f) :
    Account (.binary op left right) s (vs ++ ws) := by
  obtain ⟨hanswer, hstore⟩ := Tree.binary_of_right op ha hf
  have hleft := h.ends
  have hright := h'.ends
  rw [ha] at hleft
  rw [hf] at hright
  refine ⟨h.grounded_append h', ?_, hstore ▸ h.store_append h'⟩
  rw [hanswer]
  exact hright.error_append vs (by rw [hleft.1, Tree.nodes])

/-- The operation itself writes nothing. -/
theorem store_of_operands (h : Account left s vs) (ha : left.answer s = .ok a)
    (h' : Account right (left.storeAfter s) ws)
    (hb : right.answer (left.storeAfter s) = .ok b) :
    (Tree.binary op left right).storeAfter s = s.insertAll (writes (vs ++ ws)) := by
  rw [(Tree.binary_of_operands op ha hb).2]
  exact h.store_append h'

theorem nodes_of_operands (op : Operator) (h : Account left s vs) (ha : left.answer s = .ok a)
    (h' : Account right (left.storeAfter s) ws)
    (hb : right.answer (left.storeAfter s) = .ok b) :
    Operands (vs ++ ws) left a right b ∧
      (Tree.binary op left right).nodes =
        (vs ++ ws).map Valued.node ++ [.binary op left right] := by
  have hleft := h.ends
  have hright := h'.ends
  rw [ha] at hleft
  rw [hb] at hright
  refine ⟨operands_of_ends hleft hright, ?_⟩
  rw [Tree.nodes, List.map_append, hleft.1, hright.1, List.append_assoc]

/-- An operation without a result fails behind its operands. -/
theorem binary_of_fault (h : Account left s vs) (ha : left.answer s = .ok a)
    (h' : Account right (left.storeAfter s) ws)
    (hb : right.answer (left.storeAfter s) = .ok b) (hf : op.apply a b = .error f) :
    Account (.binary op left right) s (vs ++ ws) := by
  obtain ⟨hoperands, hnodes⟩ := nodes_of_operands op h ha h' hb
  refine ⟨h.grounded_append h', ?_, store_of_operands h ha h' hb⟩
  rw [(Tree.binary_of_operands op ha hb).1, hf]
  exact ⟨op, left, right, a, b, [], hnodes, hoperands, hf⟩

/-- An operation with a result has it behind its operands. -/
theorem binary_of_result (h : Account left s vs) (ha : left.answer s = .ok a)
    (h' : Account right (left.storeAfter s) ws)
    (hb : right.answer (left.storeAfter s) = .ok b) (hn : op.apply a b = .ok n) :
    Account (.binary op left right) s (vs ++ ws ++ [⟨.binary op left right, n⟩]) := by
  obtain ⟨hoperands, hnodes⟩ := nodes_of_operands op h ha h' hb
  have hanswer := (Tree.binary_of_operands op ha hb).1.trans hn
  have hwrites : writes [⟨.binary op left right, n⟩] = [] := rfl
  refine of_value (h.grounded_append h') hnodes hanswer ⟨a, b, hoperands, hn⟩ ?_
  rw [writes_append (vs ++ ws), hwrites, List.append_nil]
  exact store_of_operands h ha h' hb

theorem assign_of_ok (h : Account value s vs) (hn : value.answer s = .ok n) :
    Account (.assign name value) s (vs ++ [⟨.assign name value, n⟩]) := by
  obtain ⟨hanswer, hstore⟩ := Tree.assign_of_ok name hn
  have hends := h.ends
  rw [hn] at hends
  obtain ⟨hnodes, hlast⟩ := hends
  refine of_value h.grounded (by rw [Tree.nodes, hnodes]) hanswer hlast ?_
  rw [hstore, writes_append, Store.insertAll_append, ← h.store]
  rfl

end Account

/-- Every evaluation has an account, made of those of its operands. -/
theorem exists_account (t : Tree) (s : Store) : ∃ vs, Account t s vs := by
  induction t generalizing s with
  | number n => exact ⟨_, .of_value (.nil s) rfl rfl rfl rfl⟩
  | var name => exact ⟨_, .of_value (.nil s) rfl rfl rfl rfl⟩
  | binary op left right ihl ihr =>
    obtain ⟨vs, h⟩ := ihl s
    cases ha : left.answer s with
    | error f => exact ⟨vs, h.of_error ha (Tree.binary_of_left op right ha) rfl⟩
    | ok a =>
      obtain ⟨ws, h'⟩ := ihr (left.storeAfter s)
      cases hb : right.answer (left.storeAfter s) with
      | error f => exact ⟨vs ++ ws, h.binary_of_right ha h' hb⟩
      | ok b =>
        cases hn : op.apply a b with
        | error f => exact ⟨_, h.binary_of_fault ha h' hb hn⟩
        | ok n => exact ⟨_, h.binary_of_result ha h' hb hn⟩
  | assign name value ih =>
    obtain ⟨vs, h⟩ := ih s
    cases hn : value.answer s with
    | error f => exact ⟨vs, h.of_error hn (Tree.assign_of_error name hn) rfl⟩
    | ok n => exact ⟨_, h.assign_of_ok hn⟩

/-- The assignments among the nodes with values are the first ones of the tree, and all of them if
the evaluation has a value. -/
theorem Ends.assignments_eq {x : Except RunFault Int} (h : Ends t vs x) :
    ∃ j ≤ t.assignments.length,
      (vs.map Valued.node).filter Tree.isAssign = t.assignments.take j ∧
        ((∃ n, x = .ok n) → j = t.assignments.length) := by
  have hprefix : (vs.map Valued.node).filter Tree.isAssign <+: t.assignments :=
    h.prefix_nodes.filter _
  refine ⟨_, hprefix.length_le, List.prefix_iff_eq_take.mp hprefix, ?_⟩
  rintro ⟨n, rfl⟩
  rw [h.1]
  rfl

theorem writes_eq_nil (h : (vs.map Valued.node).filter Tree.isAssign = []) : writes vs = [] := by
  refine List.filterMap_eq_nil_iff.mpr fun v hv => ?_
  have hnode := List.filter_eq_nil_iff.mp h v.node (List.mem_map_of_mem hv)
  obtain ⟨node, n⟩ := v
  cases node with
  | assign name value => exact absurd rfl hnode
  | _ => rfl

end

/-- Evaluation gets through the nodes of a tree in post-order, and whether it has a value in the
end or fails on the way, the assignments that it completes are the first `j` of the tree; all of
them, if it has a value. Each node's value follows from those before it, so that a variable reads
what the assignments before it have left. The store afterwards is the initial one with the
completed assignments carried out in this order: a name has the value that it was given last, or
the one that it had, and no name gets or loses a value otherwise. A tree without assignments leaves
the store alone. -/
theorem assignments_completed_in_order (t : Tree) (s : Store) :
    (∃ vs : List Valued,
      Grounded s vs ∧ Ends t vs (t.answer s) ∧
      (∃ j ≤ t.assignments.length,
        (vs.map Valued.node).filter Tree.isAssign = t.assignments.take j ∧
          ((∃ n, t.answer s = .ok n) → j = t.assignments.length)) ∧
      t.storeAfter s = s.insertAll (writes vs) ∧
      (∀ name, (t.storeAfter s).get? name =
        ((writes vs).reverse.lookup name).or (s.get? name)) ∧
      ∀ name, name ∈ (t.storeAfter s).keys ↔
        name ∈ s.keys ∨ name ∈ (writes vs).map Prod.fst) ∧
    (t.AssignFree → t.storeAfter s = s) := by
  obtain ⟨vs, hgrounded, hends, hstore⟩ := exists_account t s
  have hassignments := hends.assignments_eq
  refine ⟨⟨vs, hgrounded, hends, hassignments, hstore, ?_, ?_⟩, fun hfree => ?_⟩
  · intro name
    rw [hstore, Store.get?_insertAll]
  · intro name
    rw [hstore, Store.mem_keys_insertAll]
  · obtain ⟨j, -, htake, -⟩ := hassignments
    rw [Tree.assignments_eq_nil_iff.mpr hfree, List.take_nil] at htake
    rw [hstore, writes_eq_nil htake]
    rfl

/-- In `z = ((x = 3) + (x = x + 4)) / 0` the outer assignment is not completed; the other two are,
the second of them over the store that the first one left. -/
theorem assignments_completed_in_order_quotient :
    ∃ vs : List Valued,
      Ends (.assign "z" (.binary .divide (.binary .add (.assign "x" (.number 3))
        (.assign "x" (.binary .add (.var "x") (.number 4)))) (.number 0))) vs
        (.error .divisionByZero) ∧
      (writes vs).reverse.lookup "x" = some 7 ∧ "z" ∉ (writes vs).map Prod.fst := by
  obtain ⟨⟨vs, -, hends, -, -, hget, hkeys⟩, -⟩ := assignments_completed_in_order
    (.assign "z" (.binary .divide (.binary .add (.assign "x" (.number 3))
      (.assign "x" (.binary .add (.var "x") (.number 4)))) (.number 0))) Store.empty
  refine ⟨vs, hends, ?_, fun hz => ?_⟩
  · have hx := hget "x"
    rw [Store.get?_empty, Option.or_none] at hx
    rw [← hx]
    decide
  · have hstore := (hkeys "z").mpr (.inr hz)
    revert hstore
    decide

end Reckon
