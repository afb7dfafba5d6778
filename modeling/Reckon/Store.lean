/-!
  The store of named integers. Its entries are kept in the order of their names, each name once,
  so two stores with the same content are the same store (`ext_get?`) and a report of the entries
  in their order is already sorted. `get?_insert` says what an assignment does, and `keys` of a
  store are the names that have a value.
-/

namespace Reckon

/-- Named integers, in strictly increasing order of the names. -/
structure Store where
  entries : List (String × Int)
  sorted : entries.Pairwise (·.1 < ·.1)

namespace Store

/-! ## Entries in order -/

/-- Puts an entry at its place, instead of an entry with the same name. -/
def insertEntry (name : String) (value : Int) : List (String × Int) → List (String × Int)
  | [] => [(name, value)]
  | e :: rest =>
    if name < e.1 then (name, value) :: e :: rest
    else if name = e.1 then (name, value) :: rest
    else e :: insertEntry name value rest

theorem lt_of_not_lt_of_ne {a b : String} (h : ¬ a < b) (hn : a ≠ b) : b < a :=
  Classical.byContradiction fun hb =>
    hn (String.le_antisymm (String.not_lt.mp hb) (String.not_lt.mp h))

theorem mem_insertEntry {name : String} {value : Int} {e : String × Int}
    {entries : List (String × Int)} (h : e ∈ insertEntry name value entries) :
    e = (name, value) ∨ e ∈ entries := by
  induction entries with
  | nil => simpa [insertEntry] using h
  | cons d rest ih =>
    unfold insertEntry at h
    split at h
    · simpa using h
    · split at h
      · rcases List.mem_cons.mp h with h | h
        · exact .inl h
        · exact .inr (List.mem_cons_of_mem _ h)
      · rcases List.mem_cons.mp h with h | h
        · exact .inr (h ▸ List.mem_cons_self)
        · rcases ih h with h | h
          · exact .inl h
          · exact .inr (List.mem_cons_of_mem _ h)

theorem pairwise_insertEntry (name : String) (value : Int) {entries : List (String × Int)}
    (h : entries.Pairwise (·.1 < ·.1)) : (insertEntry name value entries).Pairwise (·.1 < ·.1) := by
  induction entries with
  | nil => simp [insertEntry]
  | cons d rest ih =>
    obtain ⟨hd, hr⟩ := List.pairwise_cons.mp h
    unfold insertEntry
    split
    · next hlt =>
      refine List.pairwise_cons.mpr ⟨fun e he => ?_, h⟩
      rcases List.mem_cons.mp he with rfl | he
      · exact hlt
      · exact String.lt_trans hlt (hd e he)
    · next hlt =>
      split
      · next heq => exact List.pairwise_cons.mpr ⟨fun e he => heq ▸ hd e he, hr⟩
      · next hne =>
        refine List.pairwise_cons.mpr ⟨fun e he => ?_, ih hr⟩
        rcases mem_insertEntry he with rfl | he
        · exact lt_of_not_lt_of_ne hlt hne
        · exact hd e he

theorem lookup_entry_cons (key : String) (e : String × Int) (rest : List (String × Int)) :
    (e :: rest).lookup key = if key = e.1 then some e.2 else rest.lookup key := by
  rw [List.lookup_cons]
  by_cases h : key = e.1
  · simp [h]
  · simp [h, beq_false_of_ne h]

theorem lookup_insertEntry (name key : String) (value : Int) (entries : List (String × Int)) :
    (insertEntry name value entries).lookup key =
      if key = name then some value else entries.lookup key := by
  induction entries with
  | nil => rw [insertEntry, lookup_entry_cons]
  | cons d rest ih =>
    unfold insertEntry
    split
    · rw [lookup_entry_cons]
    · split
      · next heq =>
        rw [lookup_entry_cons, lookup_entry_cons, ← heq]
        split <;> rfl
      · next hne =>
        rw [lookup_entry_cons, lookup_entry_cons, ih]
        by_cases hd : key = d.1
        · have hk : key ≠ name := fun h => hne (h ▸ hd)
          rw [if_pos hd, if_neg hk, if_pos hd]
        · rw [if_neg hd, if_neg hd]

theorem lookup_eq_none_of_lt {key : String} {entries : List (String × Int)}
    (h : ∀ e ∈ entries, key < e.1) : entries.lookup key = none := by
  refine List.lookup_eq_none_iff.mpr fun e he => ?_
  have hne : key ≠ e.1 := fun hk => String.lt_irrefl e.1 (hk ▸ h e he)
  simpa using hne

/-- A list in which something is found under a name does not begin after that name. -/
theorem not_lt_head_of_lookup {key : String} {v : Int} {e : String × Int}
    {rest : List (String × Int)} (hs : (e :: rest).Pairwise (·.1 < ·.1))
    (h : (e :: rest).lookup key = some v) : ¬ key < e.1 := by
  intro hlt
  have hn : (e :: rest).lookup key = none := by
    apply lookup_eq_none_of_lt
    intro d hd
    rcases List.mem_cons.mp hd with rfl | hd
    · exact hlt
    · exact String.lt_trans hlt ((List.pairwise_cons.mp hs).1 d hd)
  rw [hn] at h
  cases h

theorem lookup_head (e : String × Int) (rest : List (String × Int)) :
    (e :: rest).lookup e.1 = some e.2 := by
  rw [lookup_entry_cons, if_pos rfl]

/-- Entries in order are settled by what is found under each name. -/
theorem eq_of_lookup_eq {as bs : List (String × Int)} (ha : as.Pairwise (·.1 < ·.1))
    (hb : bs.Pairwise (·.1 < ·.1)) (h : ∀ key, as.lookup key = bs.lookup key) : as = bs := by
  induction as generalizing bs with
  | nil =>
    cases bs with
    | nil => rfl
    | cons b bs => have := h b.1; rw [lookup_head] at this; cases this
  | cons a as ih =>
    cases bs with
    | nil => have := h a.1; rw [lookup_head] at this; cases this
    | cons b bs =>
      have hab : ¬ a.1 < b.1 := not_lt_head_of_lookup hb ((h a.1).symm.trans (lookup_head a as))
      have hba : ¬ b.1 < a.1 := not_lt_head_of_lookup ha ((h b.1).trans (lookup_head b bs))
      have hkey : a.1 = b.1 := String.le_antisymm (String.not_lt.mp hba) (String.not_lt.mp hab)
      have hval : a.2 = b.2 := by
        have := h a.1
        rw [lookup_head, hkey, lookup_head] at this
        exact Option.some.inj this
      obtain ⟨ha1, ha2⟩ := List.pairwise_cons.mp ha
      obtain ⟨hb1, hb2⟩ := List.pairwise_cons.mp hb
      have hrest : ∀ key, as.lookup key = bs.lookup key := by
        intro key
        by_cases hk : key = a.1
        · rw [hk, lookup_eq_none_of_lt ha1, lookup_eq_none_of_lt (hkey ▸ hb1)]
        · have := h key
          rwa [lookup_entry_cons, lookup_entry_cons, if_neg hk, if_neg (hkey ▸ hk)] at this
      rw [ih ha2 hb2 hrest, Prod.ext hkey hval]

/-! ## Stores -/

/-- The store without entries. -/
def empty : Store := ⟨[], .nil⟩

instance : Inhabited Store := ⟨empty⟩

/-- The value of a name that has one. -/
def get? (s : Store) (name : String) : Option Int := s.entries.lookup name

/-- What a variable reads: the value of its name, or zero. -/
def read (s : Store) (name : String) : Int := (s.get? name).getD 0

/-- Gives a name a value. -/
def insert (s : Store) (name : String) (value : Int) : Store :=
  ⟨insertEntry name value s.entries, pairwise_insertEntry name value s.sorted⟩

/-- A store with these entries; of two with one name the later counts. -/
def ofList (entries : List (String × Int)) : Store :=
  entries.foldl (fun s e => s.insert e.1 e.2) empty

/-- The names that have a value, in order. -/
def keys (s : Store) : List String := s.entries.map Prod.fst

theorem get?_empty (name : String) : empty.get? name = none := rfl

theorem get?_insert (s : Store) (name key : String) (value : Int) :
    (s.insert name value).get? key = if key = name then some value else s.get? key :=
  lookup_insertEntry name key value s.entries

theorem get?_insert_of_ne (s : Store) {name key : String} (value : Int) (h : key ≠ name) :
    (s.insert name value).get? key = s.get? key := by simp [get?_insert, h]

/-- Stores that give every name the same value are equal. -/
theorem ext_get? {s t : Store} (h : ∀ name, s.get? name = t.get? name) : s = t := by
  have he := eq_of_lookup_eq s.sorted t.sorted h
  cases s; cases t; cases he; rfl

end Store

end Reckon
