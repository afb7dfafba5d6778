import Reckon.Proofs.Atomicity

/-!
  A session over many runs. `transcript` keeps a record of each run: its text, what came of it and
  the store that it left. After any runs a name has the value of the last successful run that
  assigns it, or the value that it had at the start; and runs that failed can be struck out of the
  transcript without a trace in the other records (`Thinned`).

  Both are inductions over the runs, on one fact about each of them (`record_cases`): it fails and
  leaves the store alone, or it succeeds and gives its result to the name that it assigns.
-/

namespace Reckon

namespace Session

/-! ## Records -/

/-- The name that the statement at the start of a text assigns. -/
def target? (source : String) : Option String :=
  match parse source with
  | .ok (.assign name _) => some name
  | _ => none

/-- A run of a session: its text, its result or fault, and the store after it. -/
structure Record where
  source : String
  answer : Except Fault Int
  store : Store

namespace Record

/-- The run ended with a fault. -/
def Failed (r : Record) : Prop := ∃ f, r.answer = .error f

/-- What the run gives to this name: its result, if it has one and assigns the name. -/
def writes (name : String) (r : Record) : Option Int :=
  match r.answer with
  | .ok n => if target? r.source = some name then some n else none
  | .error _ => none

end Record

/-- Runs one text over a store. -/
def record (s : Store) (source : String) : Record :=
  match run source s with
  | .ok n s' => ⟨source, .ok n, s'⟩
  | .error f s' => ⟨source, .error f, s'⟩

/-- The records of runs, one after the other, the first of them over this store. -/
def transcript (s : Store) : List String → List Record
  | [] => []
  | source :: sources => record s source :: transcript (record s source).store sources

/-- The store after runs. -/
def after (s : Store) : List String → Store
  | [] => s
  | source :: sources => after (record s source).store sources

/-- A run fails and leaves the store alone, or gives its result to the name that it assigns. -/
theorem record_cases (s : Store) (source : String) :
    (∃ f, record s source = ⟨source, .error f, s⟩) ∨
      ∃ n name, target? source = some name ∧
        record s source = ⟨source, .ok n, s.insert name n⟩ := by
  unfold record
  rcases run_cases source s with ⟨f, hf⟩ | ⟨n, name, e, hp, -, hn⟩
  · rw [hf]
    exact .inl ⟨f, rfl⟩
  · rw [hn]
    exact .inr ⟨n, name, by rw [target?, hp], rfl⟩

theorem source_record (s : Store) (source : String) : (record s source).source = source := by
  rcases record_cases s source with ⟨f, hf⟩ | ⟨n, name, -, hn⟩
  · rw [hf]
  · rw [hn]

theorem store_of_failed {s : Store} {source : String} (h : (record s source).Failed) :
    (record s source).store = s := by
  rcases record_cases s source with ⟨f, hf⟩ | ⟨n, name, -, hn⟩
  · rw [hf]
  · rw [hn] at h
    obtain ⟨f, hf⟩ := h
    cases hf

/-! ## Last writes -/

/-- After one run a name has the value that the run gives it, or else the one it had. -/
theorem get?_record (s : Store) (source name : String) :
    (record s source).store.get? name = ((record s source).writes name).or (s.get? name) := by
  rcases record_cases s source with ⟨f, hf⟩ | ⟨n, target, htarget, hn⟩
  · rw [hf]
    rfl
  · rw [hn, Store.get?_insert]
    simp only [Record.writes, htarget, Option.some.injEq, eq_comm]
    split <;> rfl

/-- After any runs a name has the value that the last of them gave it which gave it any. -/
theorem get?_after (s : Store) (sources : List String) (name : String) :
    (after s sources).get? name =
      ((transcript s sources).filterMap (Record.writes name)).getLast?.or (s.get? name) := by
  induction sources generalizing s with
  | nil => rfl
  | cons source sources ih =>
    rw [after, ih, get?_record, transcript, List.filterMap_cons]
    cases (record s source).writes name with
    | none => rfl
    | some n =>
      rw [List.getLast?_cons]
      cases ((transcript _ sources).filterMap (Record.writes name)).getLast? <;> rfl

theorem mem_keys_after (s : Store) (sources : List String) (name : String) :
    name ∈ (after s sources).keys ↔
      name ∈ s.keys ∨ ∃ r ∈ transcript s sources, r.writes name ≠ none := by
  rw [Store.mem_keys_iff, Store.mem_keys_iff, get?_after, Ne, Option.or_eq_none_iff,
    List.getLast?_eq_none_iff, List.filterMap_eq_nil_iff, not_and_or, or_comm]
  simp only [not_forall, ne_eq, exists_prop]

/-! ## Striking out failures -/

/-- Some of the runs that failed are struck out. -/
inductive Thinned : List Record → List Record → Prop where
  | nil : Thinned [] []
  | keep (r : Record) {rs kept : List Record} (h : Thinned rs kept) :
      Thinned (r :: rs) (r :: kept)
  | strike {r : Record} {rs kept : List Record} (hr : r.Failed) (h : Thinned rs kept) :
      Thinned (r :: rs) kept

/-- Any choice of runs that leaves out failures only can be struck out. -/
theorem thinned_filter {keep : Record → Bool} {rs : List Record}
    (h : ∀ r ∈ rs, keep r = false → r.Failed) : Thinned rs (rs.filter keep) := by
  induction rs with
  | nil => exact .nil
  | cons r rs ih =>
    rw [List.forall_mem_cons] at h
    rw [List.filter_cons]
    split
    · exact .keep r (ih h.2)
    · next hr => exact .strike (h.1 (by simpa using hr)) (ih h.2)

/-- Run without the others, the texts of the records that stay give these records again. -/
theorem Thinned.transcript_eq {s : Store} {sources : List String} {kept : List Record}
    (h : Thinned (transcript s sources) kept) :
    transcript s (kept.map Record.source) = kept ∧
      after s (kept.map Record.source) = after s sources := by
  induction sources generalizing s kept with
  | nil =>
    cases h
    exact ⟨rfl, rfl⟩
  | cons source sources ih =>
    cases h with
    | keep r h =>
      obtain ⟨hrecords, hstore⟩ := ih h
      rw [List.map_cons, source_record, transcript, after, hrecords, hstore]
      exact ⟨rfl, rfl⟩
    | strike hr h =>
      have hsame := store_of_failed hr
      rw [hsame] at h
      rw [after, hsame]
      exact ih h

/-- From any store and over any runs, whether they fail or not, the last write wins: a name has the
result of the last successful run that assigns it, or else its first value, and no other name has a
value. Runs that failed can be struck out: each of the others gives the same result and leaves the
same store. -/
theorem last_write_wins (s : Store) (sources : List String) :
    (∀ name, (after s sources).get? name =
      ((transcript s sources).filterMap (Record.writes name)).getLast?.or (s.get? name)) ∧
    (∀ name, name ∈ (after s sources).keys ↔
      name ∈ s.keys ∨ ∃ r ∈ transcript s sources, r.writes name ≠ none) ∧
    ∀ kept, Thinned (transcript s sources) kept →
      transcript s (kept.map Record.source) = kept ∧
        after s (kept.map Record.source) = after s sources :=
  ⟨get?_after s sources, mem_keys_after s sources, fun _ h => h.transcript_eq⟩

/-- A session is that of its successful runs; here three failures of different kinds are struck out
between two of them. -/
theorem last_write_wins_failures :
    (after (.ofList [("y", 5)]) ["x = y;", "x = 1 / z;", "y = $", "y = (", "x = x + 1; w"]).get?
        "x" = some 6 ∧
      "z" ∉ (after (.ofList [("y", 5)])
        ["x = y;", "x = 1 / z;", "y = $", "y = (", "x = x + 1; w"]).keys ∧
      after (.ofList [("y", 5)]) ["x = y;", "x = x + 1; w"] =
        after (.ofList [("y", 5)]) ["x = y;", "x = 1 / z;", "y = $", "y = (", "x = x + 1; w"] := by
  obtain ⟨hget, hkeys, hthin⟩ := last_write_wins (.ofList [("y", 5)])
    ["x = y;", "x = 1 / z;", "y = $", "y = (", "x = x + 1; w"]
  have hfailed : ∀ r : Record, r.answer.isOk = false → r.Failed := by
    rintro ⟨source, n | f, store⟩ h
    · exact ⟨_, rfl⟩
    · cases h
  have hsources : ((transcript (.ofList [("y", 5)])
      ["x = y;", "x = 1 / z;", "y = $", "y = (", "x = x + 1; w"]).filter
        fun r => r.answer.isOk).map Record.source = ["x = y;", "x = x + 1; w"] := by
    decide +kernel
  obtain ⟨-, hstore⟩ := hthin _ (thinned_filter fun r _ => hfailed r)
  rw [hsources] at hstore
  refine ⟨?_, ?_, hstore⟩
  · rw [hget]
    decide +kernel
  · rw [hkeys]
    decide +kernel

end Session

end Reckon
