import Reckon.Proofs.Acceptance
import Reckon.Session

/-!
  A statement is run as a whole or not at all. Evaluation alone does not have that property: an
  assignment inside an expression stays when a later operation fails. But the parser makes no such
  tree, so a run that fails leaves the store as it was, and a run that succeeds gives one name a
  value, the name that the text starts with.
-/

namespace Reckon

/-- The name is the text of the first token of the statement. -/
def IsTarget (source name : String) : Prop :=
  ∃ t rest, (Cursor.ofString source).stream.tokens = t :: rest ∧ t.kind = .identifier ∧
    t.text = name

namespace Store

theorem mem_keys_iff {s : Store} {name : String} : name ∈ s.keys ↔ s.get? name ≠ none := by
  unfold keys get?
  rw [Ne, List.lookup_eq_none_iff]
  simp

theorem mem_keys_insert {s : Store} {name key : String} {value : Int} :
    key ∈ (s.insert name value).keys ↔ key = name ∨ key ∈ s.keys := by
  rw [mem_keys_iff, mem_keys_iff, get?_insert]
  split
  · next h => simp [h]
  · next h => simp [h]

end Store

namespace Tree

/-- A tree without assignments leaves the store alone, whatever comes out of it. -/
theorem AssignFree.eval_eq {t : Tree} (h : t.AssignFree) (s : Store) :
    (∃ n, t.eval s = .ok n s) ∨ ∃ f, t.eval s = .error f s := by
  induction t with
  | number n => exact .inl ⟨n, rfl⟩
  | var name => exact .inl ⟨_, rfl⟩
  | binary op left right ihl ihr =>
    rw [eval_binary]
    rcases ihl h.1 with ⟨a, ha⟩ | ⟨f, hf⟩
    · rcases ihr h.2 with ⟨b, hb⟩ | ⟨f, hf⟩
      · simp only [ha, hb]
        cases op.apply a b with
        | ok n => exact .inl ⟨n, rfl⟩
        | error f => exact .inr ⟨f, rfl⟩
      · simp only [ha, hf]
        exact .inr ⟨f, rfl⟩
    · rw [hf]
      exact .inr ⟨f, rfl⟩
  | assign name value => exact absurd h id

end Tree

/-- What is parsed assigns an expression without assignments to the name that comes first. -/
theorem isTarget_of_parse {source : String} {t : Tree} (h : parse source = .ok t) :
    ∃ name e, t = .assign name e ∧ IsTarget source name ∧ e.AssignFree := by
  obtain ⟨ts, name, e, rfl, ha⟩ := exists_accepts h
  obtain ⟨rest, htokens, -⟩ := ha.starts
  cases ha.derives with
  | assign hx hq he hs => exact ⟨_, e, rfl, ⟨_, _, htokens, hx, rfl⟩, he.assignFree⟩

/-- The name that a text starts with is the one that its tree assigns. -/
theorem IsTarget.eq_of_parse {source name target : String} {e : Tree} (h : IsTarget source name)
    (hp : parse source = .ok (.assign target e)) : name = target := by
  obtain ⟨_, _, htree, ⟨u, _, hu, -, rfl⟩, -⟩ := isTarget_of_parse hp
  obtain ⟨rfl, -⟩ := Tree.assign.inj htree
  obtain ⟨t, _, ht, -, rfl⟩ := h
  rw [hu] at ht
  rw [(List.cons.inj ht).1]

namespace Session

/-- A run leaves the store alone, or gives the target its result. -/
theorem run_cases (source : String) (s : Store) :
    (∃ f, run source s = .error f s) ∨
      ∃ n name e, parse source = .ok (.assign name e) ∧ IsTarget source name ∧
        run source s = .ok n (s.insert name n) := by
  cases hp : parse source with
  | error f => exact .inl ⟨f, run_of_parse_eq_error hp s⟩
  | ok t =>
    obtain ⟨name, e, rfl, htarget, hfree⟩ := isTarget_of_parse hp
    rw [run_of_parse_eq_ok hp, interpret_eq, Tree.eval_assign]
    rcases hfree.eval_eq s with ⟨n, hn⟩ | ⟨f, hf⟩
    · rw [hn]
      exact .inr ⟨n, name, e, rfl, htarget, rfl⟩
    · rw [hf]
      exact .inl ⟨_, rfl⟩

theorem store_eq_of_run_eq_error {source : String} {s s' : Store} {f : Fault}
    (h : run source s = .error f s') : s' = s := by
  rcases run_cases source s with ⟨g, hg⟩ | ⟨n, name, e, -, -, hn⟩
  · rw [hg] at h
    cases h
    rfl
  · rw [hn] at h
    cases h

theorem exists_target_of_run_eq_ok {source : String} {s s' : Store} {n : Int}
    (h : run source s = .ok n s') : ∃ name, IsTarget source name ∧ s' = s.insert name n := by
  rcases run_cases source s with ⟨g, hg⟩ | ⟨m, name, e, -, htarget, hm⟩
  · rw [hg] at h
    cases h
  · rw [hm] at h
    cases h
    exact ⟨name, htarget, rfl⟩

theorem run_eq_of_execute_eq_ok {source : String} {o : Outcome} (h : execute source = .ok o) :
    run source Store.empty = .ok o.result o.store := by
  unfold execute EStateM.run at h
  cases hr : run source Store.empty with
  | error f s => rw [hr] at h; cases h
  | ok n s => rw [hr] at h; cases h; rfl

/-- A run that fails leaves the store as it was. One that succeeds gives its result to the target
and to no other name: a name that is only read gets no entry. Over an empty store the target is
then the only name with a value. -/
theorem run_atomic (source : String) :
    (∀ s f s', run source s = .error f s' → s' = s) ∧
    (∀ s n s', run source s = .ok n s' →
      ∃ name, IsTarget source name ∧ s' = s.insert name n ∧
        (∀ key, s'.get? key = if key = name then some n else s.get? key) ∧
        ∀ key, key ∈ s'.keys ↔ key = name ∨ key ∈ s.keys) ∧
    ∀ o, execute source = .ok o →
      ∃ name, IsTarget source name ∧ o.store.entries = [(name, o.result)] := by
  refine ⟨fun s f s' h => store_eq_of_run_eq_error h, fun s n s' h => ?_, fun o h => ?_⟩
  · obtain ⟨name, htarget, rfl⟩ := exists_target_of_run_eq_ok h
    exact ⟨name, htarget, rfl, fun key => s.get?_insert name key n, fun _ => Store.mem_keys_insert⟩
  · obtain ⟨name, htarget, hs⟩ := exists_target_of_run_eq_ok (run_eq_of_execute_eq_ok h)
    refine ⟨name, htarget, ?_⟩
    rw [hs]
    rfl

/-- Over a store with values, a sum in front of more text, and a quotient that fails after its
first operand has a value; and a sum over the empty store. The name `y` is read by all of them and
gets no value. -/
theorem run_atomic_sum :
    ∃ s : Store, s.entries = [("x", 7), ("z", 5)] ∧
      (∃ s', run "x = y + z; z" s = .ok 5 s' ∧ s' = s.insert "x" 5 ∧ s'.get? "z" = some 5 ∧
        s'.get? "y" = none ∧ "y" ∉ s'.keys) ∧
      run "x = (z + 1) / y;" s = .error (.arithmetic .divisionByZero) s ∧
      ∃ o, execute "x = y + 2; z" = .ok o ∧ o.store.entries = [("x", 2)] := by
  have hsum : parse "x = y + z; z" =
      .ok (.assign "x" (.binary .add (.var "y") (.var "z"))) := by decide +kernel
  have hquotient : parse "x = (z + 1) / y;" =
      .ok (.assign "x" (.binary .divide (.binary .add (.var "z") (.number 1)) (.var "y"))) := by
    decide +kernel
  have halone : parse "x = y + 2; z" =
      .ok (.assign "x" (.binary .add (.var "y") (.number 2))) := by decide +kernel
  refine ⟨(Store.empty.insert "x" 7).insert "z" 5, rfl, ?_, ?_, ?_⟩
  · obtain ⟨s', hs'⟩ : ∃ s', run "x = y + z; z" ((Store.empty.insert "x" 7).insert "z" 5) =
        .ok 5 s' := by
      rw [run_of_parse_eq_ok hsum]
      exact ⟨_, rfl⟩
    obtain ⟨name, hname, hstore, hget, hkeys⟩ := (run_atomic "x = y + z; z").2.1 _ _ _ hs'
    obtain rfl := hname.eq_of_parse hsum
    refine ⟨s', hs', hstore, hget "z", hget "y", fun hy => ?_⟩
    exact absurd ((hkeys "y").mp hy) (by decide)
  · obtain ⟨s', hs'⟩ : ∃ s', run "x = (z + 1) / y;" ((Store.empty.insert "x" 7).insert "z" 5) =
        .error (.arithmetic .divisionByZero) s' := by
      rw [run_of_parse_eq_ok hquotient]
      exact ⟨_, rfl⟩
    obtain rfl := (run_atomic "x = (z + 1) / y;").1 _ _ _ hs'
    exact hs'
  · obtain ⟨o, ho, hresult⟩ : ∃ o, execute "x = y + 2; z" = .ok o ∧ o.result = 2 := by
      unfold execute EStateM.run
      rw [run_of_parse_eq_ok halone]
      exact ⟨_, rfl, rfl⟩
    obtain ⟨name, hname, hentries⟩ := (run_atomic "x = y + 2; z").2.2 o ho
    obtain rfl := hname.eq_of_parse halone
    exact ⟨o, ho, hresult ▸ hentries⟩

end Session

end Reckon
