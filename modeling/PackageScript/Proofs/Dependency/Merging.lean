import PackageScript.Proofs.Dependency.Classification
/-! What a classified list is made of: the entries that start a record, and what the needs at
runtime add to each of them. -/
namespace PackageScript.Dependency

/-- The first entry of each name, in the order of the entries. -/
def firstOfEach : List Dependency → List Dependency
  | [] => []
  | d :: rest => d :: (firstOfEach rest).filter (·.name ≠ d.name)

/-- The version of the first need of the name that has one. -/
def versionFor (needs : List Dependency) (name : String) : Option String :=
  needs.findSome? fun d => if d.name = name then d.version else none

/-- Whether an entry is the first one of its name after those before it, and its name is needed. -/
def IsNeeded (needs before : List Dependency) (e : Dependency) : Prop :=
  e.name ∉ before.map name ∧ e.name ∈ needs.map name

instance (needs before : List Dependency) (e : Dependency) : Decidable (IsNeeded needs before e) :=
  inferInstanceAs (Decidable (_ ∧ _))

/-- The record of an entry after those before it: it is needed at runtime if it is the first one of
a name that is needed, and only then a version that it lacks is filled in. -/
def record (needs before : List Dependency) (e : Dependency) : Dependency where
  name := e.name
  version := e.version.or (if IsNeeded needs before e then versionFor needs e.name else none)
  visibility := { e.visibility with isRuntime := IsNeeded needs before e }

/-- The records of the entries that follow some others. -/
def records (needs before entries : List Dependency) : List Dependency :=
  entries.mapIdx fun i e => record needs (before ++ entries.take i) e

/-- The entries that start a record: all that are declared, and the first need of each other
name. -/
def entries (declared needs : List Dependency) : List Dependency :=
  declared ++ firstOfEach (needs.filter fun d => d.name ∉ declared.map name)

@[simp] theorem records_nil (needs before : List Dependency) : records needs before [] = [] := rfl

private theorem records_cons (needs before : List Dependency) (e : Dependency)
    (rest : List Dependency) :
    records needs before (e :: rest) =
      record needs before e :: records needs (before ++ [e]) rest := by
  simp [records, List.mapIdx_cons]

private theorem records_append (needs before es fs : List Dependency) :
    records needs before (es ++ fs) =
      records needs before es ++ records needs (before ++ es) fs := by
  induction es generalizing before with
  | nil => simp
  | cons e rest ih => simp [records_cons, ih]

private theorem map_name_records (needs before es : List Dependency) :
    (records needs before es).map name = es.map name := by
  induction es generalizing before with
  | nil => rfl
  | cons e rest ih => rw [records_cons, List.map_cons, ih, List.map_cons, record]

private theorem firstOfEach_concat (ds : List Dependency) (d : Dependency) :
    firstOfEach (ds ++ [d]) =
      if d.name ∈ ds.map name then firstOfEach ds else firstOfEach ds ++ [d] := by
  induction ds with
  | nil => rfl
  | cons e rest ih =>
    rw [List.cons_append, firstOfEach, ih, List.map_cons]
    by_cases hrest : d.name ∈ rest.map name
    · rw [if_pos hrest, if_pos (List.mem_cons_of_mem _ hrest), firstOfEach]
    · rw [if_neg hrest, List.filter_append]
      by_cases he : d.name = e.name
      · simp [he, firstOfEach]
      · rw [if_neg (by simp [he, hrest])]
        simp [he, firstOfEach]

private theorem mem_names_firstOfEach {n : String} {ds : List Dependency} :
    n ∈ (firstOfEach ds).map name ↔ n ∈ ds.map name := by
  induction ds using List.reverseRecOn with
  | nil => rfl
  | append_singleton ds d ih =>
    rw [firstOfEach_concat, List.map_append, List.mem_append, ← ih]
    split
    · rename_i hmem
      refine ⟨Or.inl, fun h => h.elim id fun hd => ih.mpr ?_⟩
      rwa [List.mem_singleton.mp hd]
    · rw [List.map_append, List.mem_append]

private theorem mem_names_entries {n : String} {declared needs : List Dependency} :
    n ∈ (entries declared needs).map name ↔ n ∈ declared.map name ∨ n ∈ needs.map name := by
  rw [entries, List.map_append, List.mem_append, mem_names_firstOfEach]
  by_cases hd : n ∈ declared.map name
  · simp [hd]
  · refine or_congr_right ⟨fun h => ?_, fun h => ?_⟩
    · obtain ⟨d, hmem, rfl⟩ := List.mem_map.mp h
      exact List.mem_map_of_mem (List.mem_of_mem_filter hmem)
    · obtain ⟨d, hmem, rfl⟩ := List.mem_map.mp h
      exact List.mem_map_of_mem (List.mem_filter.mpr ⟨hmem, by simpa using hd⟩)

/-- One more need starts a record of its own only if its name has none. -/
theorem entries_concat (declared needs : List Dependency) (d : Dependency) :
    entries declared (needs ++ [d]) =
      if d.name ∈ (entries declared needs).map name then entries declared needs
      else entries declared needs ++ [d] := by
  by_cases hd : d.name ∈ declared.map name
  · rw [if_pos (mem_names_entries.mpr (Or.inl hd)), entries, List.filter_append,
      List.filter_cons_of_neg (by simpa using hd), List.filter_nil, List.append_nil, ← entries]
  · rw [entries, List.filter_append, List.filter_cons_of_pos (by simpa using hd), List.filter_nil,
      firstOfEach_concat]
    by_cases hmem : d.name ∈ (needs.filter fun d => d.name ∉ declared.map name).map name
    · rw [if_pos hmem, if_pos, entries]
      rw [entries, List.map_append, List.mem_append, mem_names_firstOfEach]
      exact Or.inr hmem
    · rw [if_neg hmem, if_neg, entries, List.append_assoc]
      rw [entries, List.map_append, List.mem_append, mem_names_firstOfEach]
      exact not_or.mpr ⟨hd, hmem⟩

private theorem versionFor_concat (needs : List Dependency) (d : Dependency) (n : String) :
    versionFor (needs ++ [d]) n =
      (versionFor needs n).or (if d.name = n then d.version else none) := by
  simp [versionFor, List.findSome?_append]

private theorem versionFor_of_notMem {needs : List Dependency} {n : String}
    (h : n ∉ needs.map name) : versionFor needs n = none := by
  refine List.findSome?_eq_none_iff.mpr fun d hd => if_neg ?_
  rintro rfl
  exact h (List.mem_map_of_mem hd)

private theorem record_concat {needs before : List Dependency} {d e : Dependency}
    (h : e.name = d.name → d.name ∈ before.map name) :
    record (needs ++ [d]) before e = record needs before e := by
  have hneeded : IsNeeded (needs ++ [d]) before e ↔ IsNeeded needs before e := by
    refine and_congr_right fun hbefore => ?_
    rw [List.map_append, List.mem_append, or_iff_left]
    intro hd
    have he : e.name = d.name := List.mem_singleton.mp hd
    exact hbefore (he ▸ h he)
  have hversion : IsNeeded needs before e →
      versionFor (needs ++ [d]) e.name = versionFor needs e.name := by
    intro hn
    have hne : d.name ≠ e.name := fun he => hn.1 (he ▸ h he.symm)
    rw [versionFor_concat, if_neg hne, Option.or_none]
  rw [record, record]
  by_cases hn : IsNeeded needs before e
  · simp only [hneeded, hn, hversion hn]
  · simp only [hneeded, hn, if_false]

private theorem record_concat_of_first {needs before : List Dependency} {d e : Dependency}
    (he : e.name = d.name) (h : d.name ∉ before.map name) :
    record (needs ++ [d]) before e = needed (record needs before e) d := by
  have hneeded : IsNeeded (needs ++ [d]) before e := ⟨he ▸ h, by simp [he]⟩
  have hversion : (if IsNeeded needs before e then versionFor needs e.name else none) =
      versionFor needs e.name := by
    split
    · rfl
    · rename_i hnot
      exact (versionFor_of_notMem fun hmem => hnot ⟨he ▸ h, hmem⟩).symm
  rw [needed, record, record, if_pos hneeded, hversion, versionFor_concat, if_pos he.symm]
  simp [hneeded, Option.or_assoc, Visibility.union, Visibility.atRuntime]

private theorem records_concat {needs before es : List Dependency} {d : Dependency}
    (h : d.name ∈ es.map name → d.name ∈ before.map name) :
    records (needs ++ [d]) before es = records needs before es := by
  induction es generalizing before with
  | nil => rfl
  | cons e rest ih =>
    rw [List.map_cons, List.mem_cons] at h
    rw [records_cons, records_cons, record_concat fun he => h (Or.inl he.symm), ih]
    intro hrest
    rw [List.map_append, List.mem_append]
    exact Or.inl (h (Or.inr hrest))

private theorem needAtRuntime_records {needs before es : List Dependency} {d : Dependency}
    (hbefore : d.name ∉ before.map name) (h : d.name ∈ es.map name) :
    needAtRuntime d (records needs before es) = records (needs ++ [d]) before es := by
  induction es generalizing before with
  | nil => cases h
  | cons e rest ih =>
    have hname : (record needs before e).name = e.name := rfl
    rw [records_cons, records_cons, needAtRuntime, hname]
    by_cases he : e.name = d.name
    · rw [if_pos he, record_concat_of_first he hbefore, records_concat fun _ => by simp [he]]
      rfl
    · have hrest : d.name ∈ rest.map name := (List.mem_cons.mp h).resolve_left (Ne.symm he)
      have hnext : d.name ∉ (before ++ [e]).map name := by
        simpa [Ne.symm he] using hbefore
      rw [if_neg he, record_concat fun heq => absurd heq he, ih hnext hrest]

private theorem record_new {needs before : List Dependency} {d : Dependency}
    (hv : d.visibility = .atRuntime) (hbefore : d.name ∉ before.map name)
    (hneeds : d.name ∉ needs.map name) : record (needs ++ [d]) before d = d := by
  have hneeded : IsNeeded (needs ++ [d]) before d := ⟨hbefore, by simp⟩
  obtain ⟨name, version, visibility⟩ := d
  cases hv
  rw [record, if_pos hneeded, versionFor_concat, versionFor_of_notMem hneeds]
  simp [hneeded]

/-- One more need at runtime is one more need of the records. -/
theorem needAtRuntime_records_entries (declared needs : List Dependency) {d : Dependency}
    (hv : d.visibility = .atRuntime) :
    needAtRuntime d (records needs [] (entries declared needs)) =
      records (needs ++ [d]) [] (entries declared (needs ++ [d])) := by
  rw [entries_concat]
  split
  · rename_i hmem
    exact needAtRuntime_records List.not_mem_nil hmem
  · -- No record has the name: the need itself becomes the last one.
    rename_i hnew
    have hneeds : d.name ∉ needs.map name := fun h => hnew (mem_names_entries.mpr (Or.inr h))
    have hnone : ∀ f ∈ records needs [] (entries declared needs), f.name ≠ d.name := by
      rintro f hf hfd
      refine hnew ?_
      rw [← map_name_records needs [], ← hfd]
      exact List.mem_map_of_mem hf
    have happend : needAtRuntime d (records needs [] (entries declared needs) ++ []) =
        records needs [] (entries declared needs) ++ [d] := needAtRuntime_append hnone
    rw [List.append_nil] at happend
    rw [happend, records_append, records_concat fun h => absurd h hnew, records_cons, records_nil,
      record_new hv (by simpa using hnew) hneeds]

private theorem records_declared {declared : List Dependency}
    (h : ∀ d ∈ declared, d.visibility.isRuntime = false) (before : List Dependency) :
    records [] before declared = declared := by
  induction declared generalizing before with
  | nil => rfl
  | cons d rest ih =>
    obtain ⟨hd, hrest⟩ := List.forall_mem_cons.mp h
    have hneeded : ¬ IsNeeded [] before d := fun h => List.not_mem_nil h.2
    rw [records_cons, ih hrest, record, if_neg hneeded, Option.or_none]
    simp only [hneeded, decide_false, ← hd]

/-- The public entries come first, then the private ones, then the first need of each name that has
no other entry. The first record of a name is needed at runtime if there is a need of the name, and
takes the version of the first such need that has one if it has none itself. Nothing else about the
entries changes. -/
theorem classify_eq_records (publicly privately atRuntime : List String) :
    let declared := publicly.map (parse · .atPublic) ++ privately.map (parse · .atPrivate)
    let needs := atRuntime.map (parse · .atRuntime)
    let entries := declared ++ firstOfEach (needs.filter fun d => d.name ∉ declared.map name)
    classify publicly privately atRuntime =
      entries.mapIdx fun i e => record needs (entries.take i) e := by
  intro declared needs
  change classify publicly privately atRuntime = records needs [] (entries declared needs)
  have hdeclared : ∀ d ∈ declared, d.visibility.isRuntime = false := by
    intro d hd
    rcases List.mem_append.mp hd with hd | hd
    all_goals
      obtain ⟨entry, -, rfl⟩ := List.mem_map.mp hd
      rw [visibility_parse]
      rfl
  induction atRuntime using List.reverseRecOn with
  | nil =>
    have hentries : entries declared needs = declared := List.append_nil declared
    rw [hentries]
    exact (records_declared hdeclared []).symm
  | append_singleton rest entry ih =>
    have hneeds : needs = rest.map (parse · .atRuntime) ++ [parse entry .atRuntime] :=
      List.map_append
    rw [hneeds, ← needAtRuntime_records_entries _ _ (visibility_parse entry _), ← ih, classify,
      List.foldl_concat]
    rfl

end PackageScript.Dependency
