import Mathlib.Data.List.Nodup
import PackageScript.Proofs.Checked.Outcome
import PackageScript.Proofs.Dependency.Classification
import PackageScript.Proofs.Selector.Spelling
import PackageScript.Reading.Descriptor
/-! What every descriptor that is read from a tree keeps to. -/
namespace PackageScript

/-- A setting whose selectors can be spelled and differ from each other. -/
structure Setting.Canonical (s : Setting) : Prop where
  selectors : ∀ b ∈ s.bindings, b.selector.Canonical
  distinct : (s.bindings.map Binding.selector).Nodup

def Build.reservedKeys : List String := ["tools", "hwaf-call", "env"]

def Target.reservedKeys : List String := ["features", "name", "target"]

/-- A target with a name and features that can be written, and with its settings where their
names belong. -/
structure Target.Canonical (t : Target) : Prop where
  name : t.name ∉ Build.reservedKeys
  features : ∀ w ∈ t.features, Text.IsWord w
  fields : ∀ s ∈ t.fields, (KnownField.ofKey? s.name).isSome = true ∧ s.Canonical
  extensions : ∀ s ∈ t.extensions,
    (KnownField.ofKey? s.name).isSome = false ∧ s.name ∉ Target.reservedKeys ∧ s.Canonical

/-- Statements that declare each tag once and change variables by canonical settings. -/
structure Statement.Coherent (statements : List Statement) : Prop where
  tags : (statements.filterMap Statement.declaredTag?).Nodup
  settings : ∀ how s, Statement.change how s ∈ statements → s.Canonical

/-- Targets that are canonical and build different things. -/
structure Build.Canonical (b : Build) : Prop where
  targets : ∀ t ∈ b.targets, t.Canonical
  outputs : (b.targets.map Target.output).Nodup

/-- What every descriptor that comes from a tree keeps to. -/
structure Descriptor.Canonical (d : Descriptor) : Prop where
  name : Text.trim d.package.name = d.package.name
  named : d.package.name.isEmpty = false
  deps : Dependency.Classified d.package.deps
  statements : Statement.Coherent d.configuration.statements
  build : d.build.Canonical

namespace Setting

private theorem canonical_plain (name : String) (strings : List String) :
    (plain name strings).Canonical :=
  ⟨by simp [plain, Selector.Canonical], by simp [plain]⟩

/-- Binding adds the selector at the end unless it is there already. -/
theorem selectors_bindIn (e : Selector) (strings : List String) (bindings : List Binding) :
    (bindIn e strings bindings).map Binding.selector =
      if e ∈ bindings.map Binding.selector then bindings.map Binding.selector
      else bindings.map Binding.selector ++ [e] := by
  induction bindings with
  | nil => rfl
  | cons b rest ih =>
    by_cases h : b.selector = e
    · simp [bindIn, h]
    · have he : ¬ e = b.selector := fun he => h he.symm
      rw [bindIn, if_neg h, List.map_cons, List.map_cons, ih]
      by_cases hm : e ∈ rest.map Binding.selector
      · simp [hm]
      · simp [hm, he]

/-- Binding more strings keeps a setting canonical. -/
theorem canonical_bind {s : Setting} {e : Selector} (strings : List String) (he : e.Canonical)
    (h : s.Canonical) : (s.bind e strings).Canonical := by
  have hselectors := selectors_bindIn e strings s.bindings
  constructor
  · intro b hb
    have hmem : b.selector ∈ (bindIn e strings s.bindings).map Binding.selector :=
      List.mem_map_of_mem hb
    rw [hselectors] at hmem
    split at hmem
    · obtain ⟨c, hc, hcb⟩ := List.mem_map.mp hmem
      exact hcb ▸ h.selectors c hc
    · rcases List.mem_append.mp hmem with hmem | hmem
      · obtain ⟨c, hc, hcb⟩ := List.mem_map.mp hmem
        exact hcb ▸ h.selectors c hc
      · rwa [List.mem_singleton.mp hmem]
  · rw [bind, hselectors]
    split
    · exact h.distinct
    · rename_i hnew
      exact List.nodup_append.mpr ⟨h.distinct, List.nodup_singleton e, fun a ha b hb hab =>
        hnew (by rwa [← List.mem_singleton.mp hb, ← hab])⟩

end Setting

namespace Reading
open Yaml Checked

/-- A setting that is read is canonical, and named as it should be. -/
theorem canonical_setting {name path : String} {t : Tree} {s : Setting}
    (h : (setting name path t).outcome = .ok s) : s.name = name ∧ s.Canonical := by
  have hplain : ∀ {u : Tree},
      (do return Setting.plain name (← leaves path nestedStrings u) : Checked Setting).outcome =
        .ok s → s.name = name ∧ s.Canonical := by
    intro u hu
    obtain ⟨texts, -, hs⟩ := outcome_bind.mp hu
    cases hs
    exact ⟨rfl, Setting.canonical_plain name texts⟩
  cases t with
  | map entries =>
    refine foldlM_invariant (fun s => s.name = name ∧ s.Canonical) ?_
      ⟨rfl, by simp, by simp⟩ h
    intro s e _ s' ⟨hname, hs⟩ hstep
    obtain ⟨source, -, hstep⟩ := outcome_bind.mp hstep
    obtain ⟨texts, -, hstep⟩ := outcome_bind.mp hstep
    cases hstep
    exact ⟨hname, Setting.canonical_bind texts (Selector.canonical_parse source) hs⟩
  | _ => exact hplain h

/-- One field keeps a target canonical and does not change its name. -/
theorem canonical_targetField {t t' : Target} {entry : Tree × Tree} (ht : t.Canonical)
    (h : (targetField t entry).outcome = .ok t') : t'.name = t.name ∧ t'.Canonical := by
  obtain ⟨field, -, h⟩ := outcome_bind.mp h
  simp only at h
  split at h
  · obtain ⟨texts, -, h⟩ := outcome_bind.mp h
    cases h
    refine ⟨rfl, ht.name, ?_, ht.fields, ht.extensions⟩
    refine List.forall_mem_append.mpr ⟨ht.features, fun w hw => ?_⟩
    obtain ⟨text, -, hw⟩ := List.mem_flatMap.mp hw
    exact Text.isWord_of_mem_words hw
  · obtain ⟨name, -, h⟩ := outcome_bind.mp h
    split at h
    · cases h
      exact ⟨rfl, ht⟩
    · simp at h
  · obtain ⟨output, -, h⟩ := outcome_bind.mp h
    cases h
    exact ⟨rfl, ht.name, ht.features, ht.fields, ht.extensions⟩
  · rename_i hfeatures hname htarget
    obtain ⟨value, hvalue, h⟩ := outcome_bind.mp h
    obtain ⟨hvname, hcanonical⟩ := canonical_setting hvalue
    split at h
    · rename_i hknown
      cases h
      refine ⟨rfl, ht.name, ht.features, ?_, ht.extensions⟩
      refine List.forall_mem_append.mpr ⟨ht.fields, List.forall_mem_singleton.mpr ⟨?_, hcanonical⟩⟩
      rwa [hvname]
    · rename_i hknown
      cases h
      refine ⟨rfl, ht.name, ht.features, ht.fields, ?_⟩
      refine List.forall_mem_append.mpr ⟨ht.extensions, List.forall_mem_singleton.mpr ⟨?_, ?_, hcanonical⟩⟩
      · simpa [hvname] using hknown
      · rw [hvname]
        simpa [Target.reservedKeys] using ⟨hfeatures, hname, htarget⟩

/-- A target that is read is canonical, and named by its key. -/
theorem canonical_target {key : String} {fields : Tree.Entries} {t : Target}
    (hkey : key ∉ Build.reservedKeys) (h : (target key fields).outcome = .ok t) :
    t.name = key ∧ t.Canonical := by
  refine foldlM_invariant (fun t => t.name = key ∧ t.Canonical) ?_ ⟨rfl, hkey, ?_, ?_, ?_⟩ h
  · intro t e _ t' ht hstep
    obtain ⟨hname, hcanonical⟩ := canonical_targetField ht.2 hstep
    exact ⟨hname.trans ht.1, hcanonical⟩
  all_goals simp

theorem nodup_append_singleton {l : List String} {a : String} :
    (l ++ [a]).Nodup ↔ a ∉ l ∧ l.Nodup := by
  rw [← List.concat_eq_append, List.nodup_concat]

/-- A target is added behind the others if none of them builds what it does. -/
theorem addTarget_eq_ok {b b' : Build} {t : Target} :
    (addTarget b t).outcome = .ok b' ↔
      t.output ∉ b.targets.map Target.output ∧ b' = { b with targets := b.targets ++ [t] } := by
  rw [addTarget]
  split
  · rename_i other hother
    refine iff_of_false (by simp) fun h => h.1 ?_
    have hsame := List.find?_some hother
    exact List.mem_map.mpr ⟨other, List.mem_of_find?_eq_some hother, by simpa using hsame⟩
  · rename_i hnone
    have hnew : t.output ∉ b.targets.map Target.output := by
      intro hmem
      obtain ⟨u, hu, hsame⟩ := List.mem_map.mp hmem
      simpa [hsame] using List.find?_eq_none.mp hnone u hu
    rw [outcome_ok, eq_comm, and_iff_right hnew]

private theorem canonical_addTarget {b b' : Build} {t : Target} (hb : b.Canonical)
    (ht : t.Canonical)
    (h : (addTarget b t).outcome = .ok b') : b' = { b with targets := b.targets ++ [t] } ∧
      b'.Canonical := by
  obtain ⟨hnew, rfl⟩ := addTarget_eq_ok.mp h
  refine ⟨rfl, List.forall_mem_append.mpr ⟨hb.targets, List.forall_mem_singleton.mpr ht⟩, ?_⟩
  rw [List.map_append, List.map_singleton]
  exact nodup_append_singleton.mpr ⟨hnew, hb.outputs⟩

/-- A phase keeps its entries under the two keys that all phases have. -/
theorem phaseEntry_eq_none {phase : Phase} {key sectionName : String} {value : Tree}
    (h : (phaseEntry phase key sectionName value).outcome = .ok none) :
    key ≠ "tools" ∧ key ≠ "hwaf-call" := by
  unfold phaseEntry at h
  split at h
  · obtain ⟨_, -, h⟩ := outcome_bind.mp h
    simp at h
  · obtain ⟨_, -, h⟩ := outcome_bind.mp h
    simp at h
  · rename_i htools hcall
    exact ⟨htools, hcall⟩

theorem phaseEntry_eq_some {phase phase' : Phase} {key sectionName : String} {value : Tree}
    (h : (phaseEntry phase key sectionName value).outcome = .ok (some phase')) :
    key = "tools" ∨ key = "hwaf-call" := by
  unfold phaseEntry at h
  split at h
  · exact Or.inl rfl
  · exact Or.inr rfl
  · simp at h

/-- One more entry keeps a build canonical. -/
theorem canonical_buildEntry {b b' : Build} {entry : Tree × Tree} (hb : b.Canonical)
    (h : (buildEntry b entry).outcome = .ok b') : b'.Canonical := by
  obtain ⟨key, -, h⟩ := outcome_bind.mp h
  obtain ⟨phase?, hphase, h⟩ := outcome_bind.mp h
  cases phase? with
  | some phase =>
    cases h
    exact ⟨hb.targets, hb.outputs⟩
  | none =>
    obtain ⟨htools, hcall⟩ := phaseEntry_eq_none hphase
    simp only at h
    split at h
    · obtain ⟨_, -, h⟩ := outcome_bind.mp h
      cases h
      exact hb
    · rename_i henv
      obtain ⟨fields, -, h⟩ := outcome_bind.mp h
      obtain ⟨t, ht, h⟩ := outcome_bind.mp h
      have hkey : key ∉ Build.reservedKeys := by
        simpa [Build.reservedKeys] using ⟨htools, hcall, henv⟩
      exact (canonical_addTarget hb (canonical_target hkey ht).2 h).2

private theorem canonical_build {entries : Tree.Entries} {b : Build}
    (h : (build entries).outcome = .ok b) : b.Canonical :=
  foldlM_invariant Build.Canonical (fun _ _ _ _ hb hstep => canonical_buildEntry hb hstep)
    ⟨by simp, by simp⟩ h

private theorem coherent_append {before more : List Statement}
    (h : Statement.Coherent before) (htags : more.filterMap Statement.declaredTag? = [])
    (hsettings : ∀ how s, Statement.change how s ∈ more → s.Canonical) :
    Statement.Coherent (before ++ more) := by
  constructor
  · rw [List.filterMap_append, htags, List.append_nil]
    exact h.tags
  · intro how s hs
    rcases List.mem_append.mp hs with hs | hs
    · exact h.settings how s hs
    · exact hsettings how s hs

/-- The environment gives nothing but changes by plain settings. -/
theorem change_of_envStatement {name text : String} {s : Statement}
    (h : envStatement name text = some s) : ∃ how strings, s = .change how (.plain name strings) := by
  simp only [envStatement] at h
  split at h
  · cases h
  · split at h
    · cases h
      exact ⟨_, _, rfl⟩
    · split at h <;>
      · cases h
        exact ⟨_, _, rfl⟩

private theorem change_of_mem_envEntries {entries : Tree.Entries} {more : List Statement}
    (h : (envEntries entries).outcome = .ok more) :
    ∀ s ∈ more, ∃ how name strings, s = .change how (.plain name strings) := by
  induction entries generalizing more with
  | nil =>
    cases outcome_ok.mp h
    simp
  | cons entry rest ih =>
    rw [envEntries] at h
    obtain ⟨name, -, h⟩ := outcome_bind.mp h
    obtain ⟨text, -, h⟩ := outcome_bind.mp h
    obtain ⟨tail, htail, h⟩ := outcome_bind.mp h
    cases h
    refine List.forall_mem_append.mpr ⟨fun s hs => ?_, ih htail⟩
    obtain ⟨how, strings, rfl⟩ := change_of_envStatement (Option.mem_toList.mp hs)
    exact ⟨how, name, strings, rfl⟩

/-- The environment gives changes with nothing but a fallback. -/
theorem change_of_mem_env {more : List Statement} {t : Tree} (h : (env t).outcome = .ok more) :
    ∀ s ∈ more, ∃ how name strings, s = .change how (.plain name strings) := by
  cases t with
  | null =>
    cases outcome_ok.mp h
    simp
  | map entries => exact change_of_mem_envEntries h
  | _ => simp [env] at h

private theorem coherent_env {before more : List Statement} {t : Tree}
    (hb : Statement.Coherent before) (h : (env t).outcome = .ok more) :
    Statement.Coherent (before ++ more) := by
  have hmore := change_of_mem_env h
  refine coherent_append hb ?_ ?_
  · rw [List.filterMap_eq_nil_iff]
    intro s hs
    obtain ⟨how, name, strings, rfl⟩ := hmore s hs
    rfl
  · intro how s hs
    obtain ⟨_, name, strings, heq⟩ := hmore _ hs
    cases heq
    exact Setting.canonical_plain name strings

private theorem coherent_tagDeclarations {items : List Tree} {index : Nat}
    {before after : List Statement} (hb : Statement.Coherent before)
    (h : (tagDeclarations before index items).outcome = .ok after) :
    Statement.Coherent after := by
  induction items generalizing before index with
  | nil =>
    cases outcome_ok.mp h
    exact hb
  | cons item rest ih =>
    rw [tagDeclarations] at h
    obtain ⟨⟨key, value⟩, -, h⟩ := outcome_bind.mp h
    obtain ⟨name, -, h⟩ := outcome_bind.mp h
    obtain ⟨content, -, h⟩ := outcome_bind.mp h
    split at h
    · simp at h
    · rename_i hnew
      refine ih ⟨?_, ?_⟩ h
      · rw [List.filterMap_append]
        refine List.nodup_append.mpr ⟨hb.tags, by simp [Statement.declaredTag?], ?_⟩
        rintro tag htag other hother rfl
        obtain ⟨s, hs, hst⟩ := List.mem_filterMap.mp htag
        simp only [List.filterMap_cons, List.filterMap_nil, Statement.declaredTag?,
          List.mem_singleton] at hother
        subst hother
        exact hnew (List.any_eq_true.mpr ⟨s, hs, by simp [hst]⟩)
      · intro how s hs
        rcases List.mem_append.mp hs with hs | hs
        · exact hb.settings how s hs
        · simp at hs

private theorem coherent_declareTags {before after : List Statement} {t : Tree}
    (hb : Statement.Coherent before) (h : (declareTags before t).outcome = .ok after) :
    Statement.Coherent after := by
  cases t with
  | null =>
    cases outcome_ok.mp h
    exact hb
  | list items => exact coherent_tagDeclarations hb h
  | _ => simp [declareTags] at h

private theorem canonical_changeItem {index : Nat} {item : Tree} {s : Statement}
    (h : (changeItem index item).outcome = .ok s) :
    ∃ how setting, s = .change how setting ∧ setting.Canonical := by
  rw [changeItem] at h
  obtain ⟨⟨key, body⟩, -, h⟩ := outcome_bind.mp h
  obtain ⟨keyword, -, h⟩ := outcome_bind.mp h
  obtain ⟨⟨key', value⟩, -, h⟩ := outcome_bind.mp h
  obtain ⟨name, -, h⟩ := outcome_bind.mp h
  obtain ⟨s', hs, h⟩ := outcome_bind.mp h
  obtain ⟨how, -, h⟩ := outcome_bind.mp h
  cases h
  exact ⟨how, s', rfl, (canonical_setting hs).2⟩

private theorem canonical_changeItems {index : Nat} {items : List Tree} {more : List Statement}
    (h : (changeItems index items).outcome = .ok more) :
    ∀ s ∈ more, ∃ how setting, s = .change how setting ∧ setting.Canonical := by
  induction items generalizing index more with
  | nil =>
    cases outcome_ok.mp h
    simp
  | cons item rest ih =>
    rw [changeItems] at h
    obtain ⟨first, hfirst, h⟩ := outcome_bind.mp h
    obtain ⟨tail, htail, h⟩ := outcome_bind.mp h
    cases h
    exact List.forall_mem_cons.mpr ⟨canonical_changeItem hfirst, ih htail⟩

/-- The list of changes gives nothing but changes by canonical settings. -/
theorem change_of_mem_changes {more : List Statement} {t : Tree}
    (h : (changes t).outcome = .ok more) :
    ∀ s ∈ more, ∃ how setting, s = .change how setting ∧ setting.Canonical := by
  cases t with
  | null =>
    cases outcome_ok.mp h
    simp
  | list items => exact canonical_changeItems h
  | _ => simp [changes] at h

private theorem coherent_changes {before more : List Statement} {t : Tree}
    (hb : Statement.Coherent before) (h : (changes t).outcome = .ok more) :
    Statement.Coherent (before ++ more) := by
  have hmore := change_of_mem_changes h
  refine coherent_append hb ?_ ?_
  · rw [List.filterMap_eq_nil_iff]
    intro s hs
    obtain ⟨how, setting, rfl, -⟩ := hmore s hs
    rfl
  · intro how s hs
    obtain ⟨_, setting, heq, hcanonical⟩ := hmore _ hs
    cases heq
    exact hcanonical

/-- What an entry of the configure section does to the statements. -/
theorem configureEntry_cases {c c' : Configuration} {entry : Tree × Tree}
    (h : (configureEntry c entry).outcome = .ok c') :
    c'.statements = c.statements ∨
      (∃ more, (env entry.2).outcome = .ok more ∧ c'.statements = c.statements ++ more) ∨
      (declareTags c.statements entry.2).outcome = .ok c'.statements ∨
      (∃ names : List String, c'.statements = c.statements ++ names.map .applyTag) ∨
      (entry.1.string? = some "statements" ∧
        ∃ more, (changes entry.2).outcome = .ok more ∧ c'.statements = c.statements ++ more) := by
  obtain ⟨key, hkey, h⟩ := outcome_bind.mp h
  obtain ⟨phase?, -, h⟩ := outcome_bind.mp h
  cases phase? with
  | some phase =>
    cases h
    exact Or.inl rfl
  | none =>
    simp only at h
    split at h
    · obtain ⟨more, hmore, h⟩ := outcome_bind.mp h
      cases h
      exact Or.inr (Or.inl ⟨more, hmore, rfl⟩)
    · obtain ⟨after, hafter, h⟩ := outcome_bind.mp h
      cases h
      exact Or.inr (Or.inr (Or.inl hafter))
    · obtain ⟨names, -, h⟩ := outcome_bind.mp h
      cases h
      exact Or.inr (Or.inr (Or.inr (Or.inl ⟨names, rfl⟩)))
    · obtain ⟨more, hmore, h⟩ := outcome_bind.mp h
      cases h
      exact Or.inr (Or.inr (Or.inr (Or.inr ⟨outcome_ofOption.mp hkey, more, hmore, rfl⟩)))
    · obtain ⟨_, -, h⟩ := outcome_bind.mp h
      cases h
      exact Or.inl rfl

/-- One entry of the configure section keeps the statements coherent. -/
theorem coherent_configureEntry {c c' : Configuration} {entry : Tree × Tree}
    (hc : Statement.Coherent c.statements) (h : (configureEntry c entry).outcome = .ok c') :
    Statement.Coherent c'.statements := by
  rcases configureEntry_cases h with hsame | ⟨more, hmore, hadd⟩ | hafter | ⟨names, hadd⟩ |
    ⟨-, more, hmore, hadd⟩
  · rwa [hsame]
  · rw [hadd]
    exact coherent_env hc hmore
  · exact coherent_declareTags hc hafter
  · rw [hadd]
    refine coherent_append hc ?_ ?_
    · rw [List.filterMap_eq_nil_iff]
      intro s hs
      obtain ⟨name, -, rfl⟩ := List.mem_map.mp hs
      rfl
    · intro how s hs
      simp at hs
  · rw [hadd]
    exact coherent_changes hc hmore

private theorem coherent_configure {entries : Tree.Entries} {c : Configuration}
    (h : (configure entries).outcome = .ok c) : Statement.Coherent c.statements :=
  foldlM_invariant (fun c => Statement.Coherent c.statements)
    (fun _ _ _ _ hc hstep => coherent_configureEntry hc hstep) ⟨by simp, by simp⟩ h

private theorem classified_dependencies {t : Tree} {deps : List Dependency}
    (h : (dependencies t).outcome = .ok deps) : Dependency.Classified deps := by
  cases t with
  | null =>
    cases outcome_ok.mp h
    exact Dependency.classified_classify [] [] []
  | map entries =>
    obtain ⟨lists, -, h⟩ := outcome_bind.mp h
    cases h
    exact Dependency.classified_classify _ _ _
  | _ => simp [dependencies] at h

/-- One entry of the package section keeps its name, and its dependencies classified. -/
theorem classified_packageEntry {p p' : Package} {entry : Tree × Tree}
    (hp : Dependency.Classified p.deps) (h : (packageEntry p entry).outcome = .ok p') :
    p'.name = p.name ∧ Dependency.Classified p'.deps := by
  obtain ⟨key, -, h⟩ := outcome_bind.mp h
  simp only at h
  split at h
  · cases h
    exact ⟨rfl, hp⟩
  · obtain ⟨_, -, h⟩ := outcome_bind.mp h
    cases h
    exact ⟨rfl, hp⟩
  · obtain ⟨_, -, h⟩ := outcome_bind.mp h
    cases h
    exact ⟨rfl, hp⟩
  · obtain ⟨_, -, h⟩ := outcome_bind.mp h
    cases h
    exact ⟨rfl, hp⟩
  · obtain ⟨deps, hdeps, h⟩ := outcome_bind.mp h
    cases h
    exact ⟨rfl, classified_dependencies hdeps⟩
  · obtain ⟨_, -, h⟩ := outcome_bind.mp h
    cases h
    exact ⟨rfl, hp⟩

private theorem trimmed_packageName {entries : Tree.Entries} {name : String}
    (h : (packageName entries).outcome = .ok name) :
    Text.trim name = name ∧ name.isEmpty = false := by
  rw [packageName] at h
  split at h
  · simp at h
  · simp at h
  · split at h
    · simp at h
    · rename_i hne
      cases outcome_ok.mp h
      exact ⟨Text.trim_trim _, by simpa using hne⟩
  · simp at h

private theorem canonical_package {t : Tree} {p : Package} (h : (package t).outcome = .ok p) :
    (Text.trim p.name = p.name ∧ p.name.isEmpty = false) ∧ Dependency.Classified p.deps := by
  obtain ⟨entries, -, h⟩ := outcome_bind.mp h
  obtain ⟨name, hname, h⟩ := outcome_bind.mp h
  have htrim := trimmed_packageName hname
  have hp := foldlM_invariant (fun p : Package => p.name = name ∧ Dependency.Classified p.deps)
    (fun q e _ q' hq hstep => by
      obtain ⟨hsame, hdeps⟩ := classified_packageEntry hq.2 hstep
      exact ⟨hsame.trans hq.1, hdeps⟩)
    ⟨rfl, Dependency.classified_classify [] [] []⟩ h
  exact ⟨hp.1 ▸ htrim, hp.2⟩

/-- A section is read from its entries, or it is the default. -/
theorem readSection_cases {α : Type} {root : Tree.Entries} {name : String} {default a : α}
    {read : Tree.Entries → Checked α}
    (h : (readSection root name default read).outcome = .ok a) :
    a = default ∨ ∃ entries, Tree.lookup? name root = some (.map entries) ∧
      (read entries).outcome = .ok a := by
  rw [readSection] at h
  split at h
  · exact Or.inl (outcome_ok.mp h).symm
  · exact Or.inl (outcome_ok.mp h).symm
  · rename_i entries hlookup
    exact Or.inr ⟨entries, hlookup, h⟩
  · simp at h

/-- Every descriptor that is read from a tree is canonical. -/
theorem canonical_descriptor {t : Tree} {d : Descriptor}
    (h : (descriptor t).outcome = .ok d) : d.Canonical := by
  obtain ⟨root, -, h⟩ := outcome_bind.mp h
  obtain ⟨-, -, h⟩ := outcome_bind.mp h
  obtain ⟨packageTree, -, h⟩ := outcome_bind.mp h
  obtain ⟨p, hpackage, h⟩ := outcome_bind.mp h
  obtain ⟨o, -, h⟩ := outcome_bind.mp h
  obtain ⟨c, hconfigure, h⟩ := outcome_bind.mp h
  obtain ⟨b, hbuild, h⟩ := outcome_bind.mp h
  cases h
  obtain ⟨hname, hdeps⟩ := canonical_package hpackage
  refine ⟨hname.1, hname.2, hdeps, ?_, ?_⟩
  · rcases readSection_cases hconfigure with rfl | ⟨entries, -, hread⟩
    · exact ⟨by simp, by simp⟩
    · exact coherent_configure hread
  · rcases readSection_cases hbuild with rfl | ⟨entries, -, hread⟩
    · exact ⟨by simp, by simp⟩
    · exact canonical_build hread

end Reading

end PackageScript
