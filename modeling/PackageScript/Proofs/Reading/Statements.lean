import PackageScript.Proofs.Reading.Shapes
/-! When a configure section is read, and which tags it declares. -/
namespace PackageScript.Reading
open Yaml Checked Grammar

variable {t : Tree}

private theorem succeeds_envEntries {entries : Tree.Entries}
    (ht : ∀ e ∈ entries, e.1.Untagged ∧ e.2.Untagged) :
    (envEntries entries).Succeeds ↔ Keyed (fun _ value => ∃ text, value = .text text) entries := by
  induction entries with
  | nil => simp [envEntries, Keyed]
  | cons e rest ih =>
    obtain ⟨⟨hkey, hvalue⟩, hrest⟩ := List.forall_mem_cons.mp ht
    have hfirst : (envEntries (e :: rest)).Succeeds ↔ ∃ name, e.1 = .text name ∧
        (∃ text, e.2 = .text text) ∧ (envEntries rest).Succeeds := by
      refine succeeds_keyText hkey fun name _ => ?_
      rw [succeeds_bind, ← exists_and_right]
      simp only [outcome_ofOption, hvalue.string?_eq_some]
      refine exists_congr fun text => and_congr_right fun _ => ?_
      exact succeeds_bind_of_forall (by simp)
    rw [hfirst, ih hrest, keyed_cons, ← exists_and_right]
    simp only [← exists_and_right, and_assoc]

private theorem succeeds_env (ht : t.Untagged) : (env t).Succeeds ↔
    OptionalMap (Keyed fun _ value => ∃ text, value = .text text) t := by
  cases t with
  | map entries => exact succeeds_envEntries (Tree.untagged_map.mp ht)
  | _ => simp [env, OptionalMap]

private theorem ofKeyword?_eq_some {kind : String} :
    (∃ how, Change.ofKeyword? kind = some how) ↔ ∃ how : Change, how.keyword = kind := by
  constructor
  · rintro ⟨how, h⟩
    exact ⟨how, by simpa using List.find?_some h⟩
  · rintro ⟨how, rfl⟩
    exact ⟨how, by cases how <;> decide⟩

private theorem succeeds_changeItem (index : Nat) (ht : t.Untagged) :
    (changeItem index t).Succeeds ↔ Single (fun kind change =>
      (∃ how : Change, how.keyword = kind) ∧ Single (fun _ => FieldValue) change) t := by
  refine succeeds_single ht (fun _ _ => rfl) fun kind change hchange => ?_
  rw [← ofKeyword?_eq_some, ← single_and]
  refine succeeds_single hchange (fun _ _ => rfl) fun name value _ => ?_
  rw [succeeds_bind_iff fun s => ?_, succeeds_setting, and_comm]
  rw [succeeds_bind_of_forall (by simp), succeeds_ofOption]

private theorem succeeds_changeItems {index : Nat} {items : List Tree}
    (ht : ∀ t ∈ items, t.Untagged) : (changeItems index items).Succeeds ↔
      ∀ t ∈ items, Single (fun kind change =>
        (∃ how : Change, how.keyword = kind) ∧ Single (fun _ => FieldValue) change) t := by
  induction items generalizing index with
  | nil => simp [changeItems]
  | cons item rest ih =>
    rw [List.forall_mem_cons] at ht ⊢
    rw [← succeeds_changeItem index ht.1, changeItems]
    refine succeeds_bind_iff fun first => ?_
    rw [succeeds_bind_of_forall (by simp), ih ht.2]

private theorem succeeds_changes (ht : t.Untagged) : (changes t).Succeeds ↔
    OptionalList (Single fun kind change =>
      (∃ how : Change, how.keyword = kind) ∧ Single (fun _ => FieldValue) change) t := by
  cases t with
  | list items => exact succeeds_changeItems (Tree.untagged_list.mp ht)
  | _ => simp [changes, OptionalList]

def tagNames (statements : List Statement) : List String :=
  statements.filterMap Statement.declaredTag?

/-- A list item that declares a tag with this content. -/
def Declares (index : Nat) (item : Tree) (name : String) (content : List String) : Prop :=
  let path := itemPath "configure.declare-tags" index
  ∃ key value, (singleEntry path item).outcome = .ok (key, value) ∧
    (keyText path key).outcome = .ok name ∧ (oneOrMore (path ++ "." ++ name) value).outcome = .ok content

/-- The first of some tag declarations is new, and the others are read after it. -/
theorem tagDeclarations_step {before after : List Statement} {index : Nat} {item : Tree}
    {rest : List Tree} :
    (tagDeclarations before index (item :: rest)).outcome = .ok after ↔
      ∃ name content, Declares index item name content ∧ name ∉ tagNames before ∧
        (tagDeclarations (before ++ [Statement.declareTag name content]) (index + 1) rest).outcome =
          .ok after := by
  have hseen : ∀ name, before.any (·.declaredTag? = some name) = true ↔
      name ∈ tagNames before := fun name => by
    simp [tagNames, List.mem_filterMap]
  rw [tagDeclarations]
  constructor
  · intro h
    obtain ⟨⟨key, value⟩, hitem, h⟩ := outcome_bind.mp h
    obtain ⟨name, hname, h⟩ := outcome_bind.mp h
    obtain ⟨content, hcontent, h⟩ := outcome_bind.mp h
    split at h
    · simp at h
    · rename_i hnew
      exact ⟨name, content, ⟨key, value, hitem, hname, hcontent⟩, by rwa [hseen] at hnew, h⟩
  · rintro ⟨name, content, ⟨key, value, hitem, hname, hcontent⟩, hnew, h⟩
    refine outcome_bind.mpr ⟨_, hitem, outcome_bind.mpr ⟨_, hname, ?_⟩⟩
    refine outcome_bind.mpr ⟨_, hcontent, ?_⟩
    rwa [if_neg (by rwa [hseen])]

private theorem tagDeclarations_cons {before after : List Statement} {index : Nat} {item : Tree}
    {rest : List Tree} (ht : item.Untagged) :
    (tagDeclarations before index (item :: rest)).outcome = .ok after ↔
      ∃ name value content, item = .map [(.text name, value)] ∧
        (oneOrMore (itemPath "configure.declare-tags" index ++ "." ++ name) value).outcome =
          .ok content ∧ name ∉ tagNames before ∧
        (tagDeclarations (before ++ [Statement.declareTag name content]) (index + 1) rest).outcome =
          .ok after := by
  rw [tagDeclarations_step]
  constructor
  · rintro ⟨name, content, ⟨key, value, hitem, hname, hcontent⟩, hnew, h⟩
    have hitem := singleEntry_eq_ok.mp hitem
    obtain ⟨hkey, -⟩ : key.Untagged ∧ value.Untagged := by simpa [hitem] using ht
    rw [(keyText_eq_ok hkey).mp hname] at hitem
    exact ⟨name, value, content, hitem, hcontent, hnew, h⟩
  · rintro ⟨name, value, content, rfl, hcontent, hnew, h⟩
    exact ⟨name, content, ⟨.text name, value, rfl, rfl, hcontent⟩, hnew, h⟩

private theorem tagNames_append_declareTag (before : List Statement) (name : String)
    (content : List String) :
    tagNames (before ++ [Statement.declareTag name content]) = tagNames before ++ [name] := by
  simp [tagNames, Statement.declaredTag?]

private theorem tagNames_append_quiet {before more : List Statement}
    (h : ∀ s ∈ more, s.declaredTag? = none) : tagNames (before ++ more) = tagNames before := by
  rw [tagNames, List.filterMap_append, List.filterMap_eq_nil_iff.mpr h, List.append_nil]
  rfl

private theorem tagNames_tagDeclarations {items : List Tree} (ht : ∀ t ∈ items, t.Untagged)
    {before after : List Statement} {index : Nat}
    (h : (tagDeclarations before index items).outcome = .ok after) :
    tagNames after = tagNames before ++ items.flatMap itemTags := by
  induction items generalizing before index with
  | nil =>
    cases outcome_ok.mp h
    simp
  | cons item rest ih =>
    obtain ⟨hitem, hrest⟩ := List.forall_mem_cons.mp ht
    obtain ⟨name, value, content, rfl, -, -, h⟩ := (tagDeclarations_cons hitem).mp h
    rw [ih hrest h, tagNames_append_declareTag, List.append_assoc]
    rfl

private theorem succeeds_tagDeclarations {items : List Tree} (ht : ∀ t ∈ items, t.Untagged)
    {before : List Statement} (index : Nat) (hb : (tagNames before).Nodup) :
    (tagDeclarations before index items).Succeeds ↔
      (∀ t ∈ items, Single (fun _ => OneOrMore) t) ∧
        (tagNames before ++ items.flatMap itemTags).Nodup := by
  induction items generalizing before index with
  | nil => simp [tagDeclarations, hb]
  | cons item rest ih =>
    obtain ⟨hitem, hrest⟩ := List.forall_mem_cons.mp ht
    rw [List.forall_mem_cons]
    constructor
    · rintro ⟨after, h⟩
      obtain ⟨name, value, content, rfl, hcontent, hnew, h⟩ := (tagDeclarations_cons hitem).mp h
      have hbefore : (tagNames (before ++ [Statement.declareTag name content])).Nodup := by
        rw [tagNames_append_declareTag]
        exact nodup_append_singleton.mpr ⟨hnew, hb⟩
      obtain ⟨hall, hdistinct⟩ := (ih hrest (index + 1) hbefore).mp ⟨after, h⟩
      rw [tagNames_append_declareTag, List.append_assoc] at hdistinct
      exact ⟨⟨⟨name, value, rfl, succeeds_oneOrMore.mp ⟨content, hcontent⟩⟩, hall⟩, hdistinct⟩
    · rintro ⟨⟨⟨name, value, rfl, hvalue⟩, hall⟩, hdistinct⟩
      obtain ⟨content, hcontent⟩ : (oneOrMore (itemPath "configure.declare-tags" index ++ "." ++
          name) value).Succeeds := succeeds_oneOrMore.mpr hvalue
      have hmore :
          tagNames (before ++ [Statement.declareTag name content]) ++ rest.flatMap itemTags =
            tagNames before ++ (Yaml.Tree.map [(.text name, value)] :: rest).flatMap itemTags := by
        rw [tagNames_append_declareTag, List.append_assoc]
        rfl
      rw [← hmore] at hdistinct
      have hbefore := (List.nodup_append.mp hdistinct).1
      obtain ⟨after, h⟩ := (ih hrest (index + 1) hbefore).mpr ⟨hall, hdistinct⟩
      have hnew : name ∉ tagNames before := by
        rw [tagNames_append_declareTag] at hbefore
        exact (nodup_append_singleton.mp hbefore).1
      exact ⟨after, (tagDeclarations_cons hitem).mpr
        ⟨name, value, content, rfl, hcontent, hnew, h⟩⟩

private theorem succeeds_declareTags (ht : t.Untagged) {before : List Statement}
    (hb : (tagNames before).Nodup) : (declareTags before t).Succeeds ↔
      OptionalList (Single fun _ => OneOrMore) t ∧ (tagNames before ++ listedTags t).Nodup := by
  cases t with
  | null => simp [declareTags, OptionalList, listedTags, hb]
  | list items => exact succeeds_tagDeclarations (Tree.untagged_list.mp ht) 0 hb
  | _ => simp [declareTags, OptionalList]

private theorem tagNames_declareTags (ht : t.Untagged) {before after : List Statement}
    (h : (declareTags before t).outcome = .ok after) :
    tagNames after = tagNames before ++ listedTags t := by
  cases t with
  | null =>
    cases outcome_ok.mp h
    simp [listedTags]
  | list items => exact tagNames_tagDeclarations (Tree.untagged_list.mp ht) h
  | _ => simp [declareTags] at h

private theorem declaredTags_eq_nil {e : Tree × Tree} {key : String} (he : e.1 = .text key)
    (hkey : key ≠ "declare-tags") : declaredTags e = [] := by
  rw [declaredTags, he, if_neg (by simpa using hkey)]

private theorem succeeds_configureEntry (c : Configuration) {e : Tree × Tree}
    (hkey : e.1.Untagged) (hvalue : e.2.Untagged) (hc : (tagNames c.statements).Nodup) :
    (configureEntry c e).Succeeds ↔ (∃ key, e.1 = .text key ∧ ConfigureEntry key e.2) ∧
      (tagNames c.statements ++ declaredTags e).Nodup := by
  simp only [← exists_and_right, and_assoc]
  refine succeeds_keyText hkey fun key he => ?_
  have hnone : key ≠ "declare-tags" → (tagNames c.statements ++ declaredTags e).Nodup :=
    fun hne => by rwa [declaredTags_eq_nil he hne, List.append_nil]
  refine succeeds_phaseEntry (by simp) (fun hphase => ?_) fun hphase => ?_
  · have hne : key ≠ "declare-tags" ∧ key ≠ "env" ∧ key ≠ "apply-tags" ∧ key ≠ "statements" := by
      rcases hphase with rfl | rfl <;> decide
    obtain ⟨htags, henv, happlied, hstatements⟩ := hne
    exact ⟨fun h => h.1.phase hphase, fun h => ⟨⟨fun _ => h, (absurd · henv), (absurd · htags),
      (absurd · happlied), (absurd · hstatements)⟩, hnone htags⟩⟩
  · have hfree : PhaseEntry key e.2 := fun h => absurd h hphase
    simp only
    split
    · rw [succeeds_bind_of_forall (by simp), succeeds_env hvalue]
      exact ⟨fun h => ⟨⟨hfree, fun _ => h, by simp, by simp, by simp⟩, hnone (by simp)⟩,
        fun h => h.1.env rfl⟩
    · rw [succeeds_bind_of_forall (by simp), succeeds_declareTags hvalue hc]
      have hlisted : declaredTags e = listedTags e.2 := by
        rw [declaredTags, he, Tree.string?_text, if_pos rfl]
      rw [hlisted]
      exact and_congr_left fun _ => ⟨fun h => ⟨hfree, by simp, fun _ => h, by simp, by simp⟩,
        fun h => h.tags rfl⟩
    · rw [succeeds_bind_of_forall (by simp), succeeds_oneOrMore]
      exact ⟨fun h => ⟨⟨hfree, by simp, by simp, fun _ => h, by simp⟩, hnone (by simp)⟩,
        fun h => h.1.applied rfl⟩
    · rw [succeeds_bind_of_forall (by simp), succeeds_changes hvalue]
      exact ⟨fun h => ⟨⟨hfree, by simp, by simp, by simp, fun _ => h⟩, hnone (by simp)⟩,
        fun h => h.1.statements rfl⟩
    · rename_i henv htags happlied hstatements
      refine iff_of_true ((succeeds_bind_of_forall (by simp)).mpr (succeeds_warn _)) ⟨?_, hnone htags⟩
      exact ⟨hfree, (absurd · henv), (absurd · htags), (absurd · happlied), (absurd · hstatements)⟩

private theorem tagNames_configureEntry {c c' : Configuration} {e : Tree × Tree}
    (hkey : e.1.Untagged) (hvalue : e.2.Untagged) (h : (configureEntry c e).outcome = .ok c') :
    tagNames c'.statements = tagNames c.statements ++ declaredTags e := by
  obtain ⟨key, he, h⟩ := outcome_bind.mp h
  have he := (keyText_eq_ok hkey).mp he
  obtain ⟨phase?, hphase, h⟩ := outcome_bind.mp h
  cases phase? with
  | some phase =>
    cases h
    have hne : key ≠ "declare-tags" := by
      rcases phaseEntry_eq_some hphase with rfl | rfl <;> decide
    rw [declaredTags_eq_nil he hne, List.append_nil]
  | none =>
    simp only at h
    split at h
    · obtain ⟨more, hmore, h⟩ := outcome_bind.mp h
      cases h
      rw [declaredTags_eq_nil he (by simp), List.append_nil, tagNames_append_quiet fun s hs => ?_]
      obtain ⟨how, name, strings, rfl⟩ := change_of_mem_env hmore s hs
      rfl
    · obtain ⟨after, hafter, h⟩ := outcome_bind.mp h
      cases h
      rw [declaredTags, he, Tree.string?_text, if_pos rfl]
      exact tagNames_declareTags hvalue hafter
    · obtain ⟨names, -, h⟩ := outcome_bind.mp h
      cases h
      rw [declaredTags_eq_nil he (by simp), List.append_nil, tagNames_append_quiet fun s hs => ?_]
      obtain ⟨name, -, rfl⟩ := List.mem_map.mp hs
      rfl
    · obtain ⟨more, hmore, h⟩ := outcome_bind.mp h
      cases h
      rw [declaredTags_eq_nil he (by simp), List.append_nil, tagNames_append_quiet fun s hs => ?_]
      obtain ⟨how, setting, rfl, -⟩ := change_of_mem_changes hmore s hs
      rfl
    · rename_i htags _ _
      obtain ⟨_, -, h⟩ := outcome_bind.mp h
      cases h
      rw [declaredTags_eq_nil he htags, List.append_nil]

/-- A configure section is read exactly if it keeps to the grammar. -/
theorem succeeds_configure {entries : Tree.Entries}
    (ht : ∀ e ∈ entries, e.1.Untagged ∧ e.2.Untagged) :
    (configure entries).Succeeds ↔ ConfigureSection entries := by
  have hfold := succeeds_foldlM_nodup (fun c : Configuration => tagNames c.statements) declaredTags
    (fun c e he hc => succeeds_configureEntry c (ht e he).1 (ht e he).2 hc)
    (fun c e he c' h => tagNames_configureEntry (ht e he).1 (ht e he).2 h)
    (s := {}) List.nodup_nil
  exact hfold.trans ⟨fun ⟨hkeyed, htags⟩ => ⟨hkeyed, htags⟩, fun h => ⟨h.keyed, h.tags⟩⟩

end PackageScript.Reading
