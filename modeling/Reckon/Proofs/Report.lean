import Reckon.Proofs.Readability

/-!
  The report of an outcome is a normal form of it. A store is a mapping, and its bindings can be
  gone through in any order (`Store.IsListing`); they are in the order of their names once they are
  sorted, and since no name is there twice, only one list comes of it (`Store.IsListing.sort_eq`).
  The order is that of the code points, so a name comes before all that it begins, and the empty
  name first.

  Nothing is lost in a report of names without line feeds. The line feeds separate the lines, but
  a name can have an equals sign with blanks around it. A line is therefore taken apart from its
  end: the value has no blank, so the last blank is the one in front of it
  (`Outcome.binding_inj`).
-/

namespace Reckon

/-! ## The order of names -/

/-- The code points of a text. -/
def codePoints (s : String) : List Nat := s.toList.map Char.toNat

theorem lt_iff_map_toNat_lt {cs ds : List Char} :
    cs < ds ↔ cs.map Char.toNat < ds.map Char.toNat := by
  induction cs generalizing ds with
  | nil => cases ds <;> simp
  | cons c cs ih =>
    cases ds with
    | nil => simp
    | cons d ds =>
      have hlt : c < d ↔ c.toNat < d.toNat := Iff.rfl
      have heq : c = d ↔ c.toNat = d.toNat := Char.toNat_inj.symm
      rw [List.map_cons, List.map_cons, List.cons_lt_cons_iff, List.cons_lt_cons_iff, ih, hlt, heq]

theorem lt_iff_codePoints_lt {s t : String} : s < t ↔ codePoints s < codePoints t :=
  String.lt_iff.trans lt_iff_map_toNat_lt

namespace Store

variable {s : Store} {es : List (String × Int)}

/-- In entries in order, what stands under a name is what is found there. -/
theorem mem_iff_lookup_eq {name : String} {value : Int} (h : es.Pairwise (·.1 < ·.1)) :
    (name, value) ∈ es ↔ es.lookup name = some value := by
  induction es with
  | nil => simp
  | cons e rest ih =>
    obtain ⟨he, hrest⟩ := List.pairwise_cons.mp h
    rw [lookup_entry_cons, List.mem_cons]
    split
    · next hname =>
      have hnot : (name, value) ∉ rest := fun hmem =>
        String.lt_irrefl name (by simpa [hname] using he _ hmem)
      rw [or_iff_left hnot, Prod.ext_iff, Option.some_inj]
      exact ⟨fun h => h.2.symm, fun h => ⟨hname, h.symm⟩⟩
    · next hname =>
      have hnot : (name, value) ≠ e := fun h => hname (congrArg Prod.fst h)
      rw [or_iff_right hnot, ih hrest]

theorem mem_entries_iff (s : Store) (name : String) (value : Int) :
    (name, value) ∈ s.entries ↔ s.get? name = some value :=
  mem_iff_lookup_eq s.sorted

theorem nodup_entries (s : Store) : s.entries.Nodup := by
  refine s.sorted.imp ?_
  rintro a b hlt rfl
  exact String.lt_irrefl a.1 hlt

/-- The bindings of the mapping in some order, each of them once. -/
structure IsListing (s : Store) (es : List (String × Int)) : Prop where
  nodup : es.Nodup
  mem_iff : ∀ name value, (name, value) ∈ es ↔ s.get? name = some value

theorem isListing_iff_perm : s.IsListing es ↔ es.Perm s.entries := by
  constructor
  · intro h
    refine (List.perm_ext_iff_of_nodup h.nodup s.nodup_entries).mpr ?_
    rintro ⟨name, value⟩
    rw [h.mem_iff, mem_entries_iff]
  · intro h
    refine ⟨h.nodup_iff.mpr s.nodup_entries, fun name value => ?_⟩
    rw [h.mem_iff, mem_entries_iff]

/-- Bindings in the order of their names; those of one name stay as they stand. -/
def sortByName (es : List (String × Int)) : List (String × Int) :=
  es.mergeSort fun a b => a.1 ≤ b.1

theorem pairwise_sortByName (es : List (String × Int)) :
    (sortByName es).Pairwise fun a b => a.1 ≤ b.1 := by
  have hle : (sortByName es).Pairwise fun a b => decide (a.1 ≤ b.1) = true := by
    refine List.pairwise_mergeSort (fun a b c hab hbc => ?_) (fun a b => ?_) es
    · rw [decide_eq_true_eq] at hab hbc ⊢
      exact String.le_trans hab hbc
    · rw [Bool.or_eq_true, decide_eq_true_eq, decide_eq_true_eq]
      exact String.le_total a.1 b.1
  exact hle.imp of_decide_eq_true

/-- The entries of a store come of its bindings by sorting, in whatever order they are. -/
theorem IsListing.sort_eq (h : s.IsListing es) : sortByName es = s.entries := by
  have hperm : (sortByName es).Perm s.entries :=
    (List.mergeSort_perm es _).trans (isListing_iff_perm.mp h)
  -- two entries of one name are one entry, so the order of the names leaves no choice
  refine List.Perm.eq_of_pairwise (fun a b ha hb hab hba => ?_) (pairwise_sortByName es)
    (s.sorted.imp Std.le_of_lt) hperm
  have hname : a.1 = b.1 := String.le_antisymm hab hba
  have ha' := (s.mem_entries_iff a.1 a.2).mp (hperm.mem_iff.mp ha)
  have hb' := (s.mem_entries_iff b.1 b.2).mp hb
  rw [hname, hb'] at ha'
  exact Prod.ext hname (Option.some.inj ha').symm

/-- No name of the store has a line feed in it. -/
def OneLineNames (s : Store) : Prop := ∀ name ∈ s.keys, '\n' ∉ name.toList

instance (s : Store) : Decidable s.OneLineNames := by unfold OneLineNames; infer_instance

end Store

/-! ## Lines -/

/-- A number is written without blanks. -/
theorem Integer.not_blank_of_mem_toString (n : Int) :
    ∀ x ∈ (toString n).toList, isBlank x = false := by
  have hdigits : ∀ k : Nat, ∀ x ∈ k.repr.toList, isBlank x = false := fun k x hx =>
    not_blank_of_digit ((isNumeral_repr k).digit x hx)
  obtain ⟨k, -, hk⟩ | ⟨k, -, hk⟩ := exists_toList_toString n
  · rw [hk]
    exact hdigits k
  · rw [hk]
    exact List.forall_mem_cons.mpr ⟨by decide, hdigits k⟩

namespace Outcome

/-- A line without its line feed. -/
def binding (e : String × Int) : List Char :=
  e.1.toList ++ ' ' :: '=' :: ' ' :: (toString e.2).toList

/-- A binding is told from what is written of it: its value is all behind the last blank. -/
theorem binding_inj {d e : String × Int} (h : binding d = binding e) : d = e := by
  have hvalue : ∀ n : Int, ∀ x ∈ (toString n).toList.reverse, (!isBlank x) = true := by
    intro n x hx
    rw [Integer.not_blank_of_mem_toString n x (List.mem_reverse.mp hx), Bool.not_false]
  have hblank := @Cursor.ends_cons (!isBlank ·) ' ' rfl
  have hback : (toString d.2).toList.reverse ++ ' ' :: '=' :: ' ' :: d.1.toList.reverse =
      (toString e.2).toList.reverse ++ ' ' :: '=' :: ' ' :: e.1.toList.reverse := by
    simpa [binding] using congrArg List.reverse h
  obtain ⟨hv, hn⟩ :=
    Cursor.append_inj_of_ends (hvalue d.2) (hvalue e.2) (hblank _) (hblank _) hback
  simp only [List.cons.injEq, true_and, List.reverse_inj, String.toList_inj] at hn
  have hends := Cursor.ends_nil isDigit
  have hints : d.2 = e.2 :=
    (Integer.toString_append_inj hends hends (congrArg (· ++ []) (List.reverse_inj.mp hv))).1
  exact Prod.ext hn hints

theorem not_mem_binding {e : String × Int} (h : '\n' ∉ e.1.toList) : '\n' ∉ binding e := by
  have hvalue : '\n' ∉ (toString e.2).toList := fun hmem =>
    absurd (Integer.not_blank_of_mem_toString e.2 _ hmem) (by decide)
  simp only [binding, List.mem_append, List.mem_cons, not_or]
  exact ⟨h, by decide, by decide, by decide, hvalue⟩

theorem toList_line (e : String × Int) : (line e).toList = binding e ++ ['\n'] := by
  simp [line, binding]

/-- A line of a name without a line feed ends with the first line feed. -/
theorem line_append_inj {d e : String × Int} {cs ds : List Char} (hd : '\n' ∉ d.1.toList)
    (he : '\n' ∉ e.1.toList) (h : (line d).toList ++ cs = (line e).toList ++ ds) :
    d = e ∧ cs = ds := by
  have hline : ∀ {b : String × Int}, '\n' ∉ b.1.toList →
      ∀ x ∈ binding b, (x != '\n') = true := by
    intro b hb x hx
    rw [bne_iff_ne]
    rintro rfl
    exact not_mem_binding hb hx
  have hfeed := @Cursor.ends_cons (· != '\n') '\n' rfl
  rw [toList_line, toList_line, List.append_assoc, List.append_assoc] at h
  obtain ⟨hbinding, hrest⟩ :=
    Cursor.append_inj_of_ends (hline hd) (hline he) (hfeed _) (hfeed _) h
  exact ⟨binding_inj hbinding, (List.cons.inj hrest).2⟩

/-- Lines are told apart from each other, and each into its name and its value. -/
theorem lines_inj {ds es : List (String × Int)} (hd : ∀ d ∈ ds, '\n' ∉ d.1.toList)
    (he : ∀ e ∈ es, '\n' ∉ e.1.toList)
    (h : (String.join (ds.map line)).toList = (String.join (es.map line)).toList) : ds = es := by
  have hmap : ds.map id = es.map id := by
    refine map_eq_of_join_eq (fun e => ?_) (fun d hmem e hmem' cs cs' => ?_) h
    · simp [toList_line]
    · exact line_append_inj (hd d hmem) (he e hmem')
  rwa [List.map_id, List.map_id] at hmap

/-! ## Reports -/

/-- The report from bindings in any order. -/
def reportOf (result : Int) (bindings : List (String × Int)) : String :=
  "Result: " ++ toString result ++ "\n" ++
    String.join ((Store.sortByName bindings).map line)

theorem reportOf_eq {o : Outcome} {bindings : List (String × Int)}
    (h : o.store.IsListing bindings) : reportOf o.result bindings = o.report := by
  rw [reportOf, h.sort_eq, report]

theorem toList_report (o : Outcome) :
    o.report.toList = "Result: ".toList ++
      ((toString o.result).toList ++ '\n' :: (String.join (o.store.entries.map line)).toList) := by
  simp [report]

/-- Outcomes whose names have no line feeds are told from their reports. -/
theorem report_inj {o o' : Outcome} (ho : o.store.OneLineNames) (ho' : o'.store.OneLineNames)
    (h : o.report = o'.report) : o.result = o'.result ∧ o.store.entries = o'.store.entries := by
  have hlist := congrArg String.toList h
  rw [toList_report, toList_report] at hlist
  have hfeed := @Cursor.ends_cons isDigit '\n' rfl
  obtain ⟨hresult, hlines⟩ :=
    Integer.toString_append_inj (hfeed _) (hfeed _) (List.append_cancel_left hlist)
  have hnames := List.forall_mem_map.mp ho
  have hnames' := List.forall_mem_map.mp ho'
  exact ⟨hresult, lines_inj hnames hnames' (List.cons.inj hlines).2⟩

/-- A report has one line for each binding, with the names in the order of their code points, and
is the same in whatever order the bindings come. As long as no name has a line feed in it, outcomes
with one report have the same result and the same mapping. -/
theorem report_normal_form (o : Outcome) :
    (∃ es, o.store.IsListing es ∧
      es.Pairwise (fun a b => codePoints a.1 < codePoints b.1) ∧
      o.report = "Result: " ++ toString o.result ++ "\n" ++
        String.join (es.map fun e => e.1 ++ " = " ++ toString e.2 ++ "\n")) ∧
    (∀ bindings, o.store.IsListing bindings → reportOf o.result bindings = o.report) ∧
    ∀ o' : Outcome, o.store.OneLineNames → o'.store.OneLineNames →
      (o.report = o'.report ↔
        o.result = o'.result ∧ ∀ name, o.store.get? name = o'.store.get? name) := by
  refine ⟨⟨o.store.entries, ?_, ?_, rfl⟩, fun bindings => reportOf_eq, fun o' ho ho' => ?_⟩
  · exact Store.isListing_iff_perm.mpr (List.Perm.refl _)
  · exact o.store.sorted.imp lt_iff_codePoints_lt.mp
  · constructor
    · intro h
      obtain ⟨hresult, hentries⟩ := report_inj ho ho' h
      exact ⟨hresult, fun name => congrArg (List.lookup name) hentries⟩
    · rintro ⟨hresult, hget⟩
      rw [report, report, hresult, Store.ext_get? hget]

/-- A name with an equals sign in it, the empty name, and one that is not in ASCII. -/
theorem report_normal_form_equals_sign :
    let s := Store.ofList [("a = 1", 2), ("", -1), ("ä", 3)]
    let s' := Store.ofList [("a", 12), ("", -1), ("ä", 3)]
    s.IsListing [("ä", 3), ("a = 1", 2), ("", -1)] ∧
    reportOf 7 [("ä", 3), ("a = 1", 2), ("", -1)] = "Result: 7\n = -1\na = 1 = 2\nä = 3\n" ∧
    s.OneLineNames ∧ s'.OneLineNames ∧ report ⟨7, s⟩ ≠ report ⟨7, s'⟩ := by
  intro s s'
  have hlisting : s.IsListing [("ä", 3), ("a = 1", 2), ("", -1)] :=
    Store.isListing_iff_perm.mpr (by decide +kernel)
  have hs : s.OneLineNames := by decide +kernel
  have hs' : s'.OneLineNames := by decide +kernel
  have hreport : report ⟨7, s⟩ = "Result: 7\n = -1\na = 1 = 2\nä = 3\n" := by decide +kernel
  obtain ⟨-, hsame, hlossless⟩ := report_normal_form ⟨7, s⟩
  refine ⟨hlisting, (hsame _ hlisting).trans hreport, hs, hs', fun h => ?_⟩
  have hget := ((hlossless ⟨7, s'⟩ hs hs').mp h).2 "a"
  exact absurd hget (by decide +kernel)

-- A line feed in a name can make one binding look like two.
example :
    report ⟨0, Store.ofList [("a = 1\nb", 2)]⟩ = report ⟨0, Store.ofList [("a", 1), ("b", 2)]⟩ := by
  decide +kernel

end Outcome

end Reckon
