import PackageScript.Proofs.Reading.Origin
/-! The invariant of descriptors that are read from trees. -/
namespace PackageScript

/-- Dependencies in three blocks, with what is needed at runtime on the first record of a name. -/
structure Dependency.WellFormed (deps : List Dependency) : Prop where
  blocks : ∃ publicly privately atRuntime, deps = publicly ++ privately ++ atRuntime ∧
    (∀ d ∈ publicly, d.visibility.isPublic = true) ∧
    (∀ d ∈ privately, d.visibility.isPrivate = true) ∧
    ∀ d ∈ atRuntime, d.visibility = .atRuntime
  kinds : ∀ d ∈ deps, ¬(d.visibility.isPublic = true ∧ d.visibility.isPrivate = true)
  first : ∀ before d after, deps = before ++ d :: after → d.visibility.isRuntime = true →
    ∀ e ∈ before, e.name ≠ d.name
  names : ∀ d ∈ deps, ∀ c ∈ d.name.toList, Text.isBlank c = false
  versions : ∀ d ∈ deps, ∀ v ∈ d.version, v.toList ≠ [] ∧ Text.Trimmed v.toList

/-- A target with words for features, and with each setting under a name of its own kind. -/
structure Target.WellFormed (t : Target) : Prop where
  features : ∀ w ∈ t.features, Text.IsWord w
  fields : (t.fields.map Setting.name).Nodup
  known : ∀ s ∈ t.fields, ∃ f : KnownField, f.key = s.name
  extensions : (t.extensions.map Setting.name).Nodup
  unknown : ∀ s ∈ t.extensions, (∀ f : KnownField, f.key ≠ s.name) ∧
    s.name ∉ ["features", "name", "target"]

/-- What can be relied on when a descriptor is written. -/
structure Descriptor.WellFormed (d : Descriptor) : Prop where
  named : d.package.name.toList ≠ []
  trimmed : Text.Trimmed d.package.name.toList
  dependencies : Dependency.WellFormed d.package.deps
  tags : (d.configuration.statements.filterMap Statement.declaredTag?).Nodup
  settings : ∀ s ∈ d.settings, s.Canonical
  names : (d.build.targets.map Target.name).Nodup
  reserved : ∀ t ∈ d.build.targets, t.name ∉ ["tools", "hwaf-call", "env"]
  outputs : (d.build.targets.map Target.output).Nodup
  targets : ∀ t ∈ d.build.targets, t.WellFormed

namespace Visibility

private theorem isPublic_of_rank {v : Visibility} (h : v.rank = 0) : v.isPublic = true := by
  by_contra hpublic
  rw [Visibility.rank, if_neg hpublic] at h
  split at h <;> cases h

private theorem isPrivate_of_rank {v : Visibility} (h : v.rank = 1) : v.isPrivate = true := by
  by_contra hprivate
  rw [Visibility.rank, if_neg hprivate] at h
  split at h <;> cases h

private theorem eq_atRuntime_of_rank {v : Visibility} (h : 1 < v.rank)
    (hv : v.isDeclared = true ∨ v.isRuntime = true) : v = .atRuntime := by
  rcases v with ⟨_ | _, _ | _, _ | _⟩ <;>
    simp_all [Visibility.rank, Visibility.isDeclared, Visibility.atRuntime]

end Visibility

namespace Dependency

private theorem Classified.wellFormed {deps : List Dependency} (h : Classified deps) :
    WellFormed deps where
  blocks := by
    have hlater := h.blocks.filter (0 < ·.visibility.rank)
    refine ⟨deps.filter (·.visibility.rank ≤ 0),
      (deps.filter (0 < ·.visibility.rank)).filter (·.visibility.rank ≤ 1),
      (deps.filter (0 < ·.visibility.rank)).filter (1 < ·.visibility.rank), ?_, ?_, ?_, ?_⟩
    · rw [List.append_assoc, filter_rank_append hlater 1, filter_rank_append h.blocks 0]
    · intro d hd
      have hrank := (List.mem_filter.mp hd).2
      exact Visibility.isPublic_of_rank (by simpa using hrank)
    · intro d hd
      obtain ⟨hd, hmost⟩ := List.mem_filter.mp hd
      have hleast := (List.mem_filter.mp hd).2
      simp only [decide_eq_true_eq] at hmost hleast
      exact Visibility.isPrivate_of_rank (by omega)
    · intro d hd
      obtain ⟨hd, hrank⟩ := List.mem_filter.mp hd
      have hvisible := h.visible d (List.mem_of_mem_filter hd)
      exact Visibility.eq_atRuntime_of_rank (by simpa using hrank) hvisible
  kinds := by
    rintro d hd ⟨hpublic, hprivate⟩
    rw [h.kinds d hd hpublic] at hprivate
    cases hprivate
  first := by
    rintro before d after rfl hruntime e he
    exact (List.pairwise_append.mp h.first).2.2 e he d List.mem_cons_self hruntime
  names := fun d hd => (h.readable d hd).name
  versions := fun d hd v hv =>
    ⟨((h.readable d hd).version v hv).1, ((h.readable d hd).version v hv).2.1⟩

end Dependency

private theorem KnownField.ofKey?_isSome {key : String} :
    (KnownField.ofKey? key).isSome = true ↔ ∃ f : KnownField, f.key = key := by
  constructor
  · intro h
    obtain ⟨f, hf⟩ := Option.isSome_iff_exists.mp h
    exact ⟨f, by simpa using List.find?_some hf⟩
  · rintro ⟨f, rfl⟩
    cases f <;> decide

private theorem Target.Canonical.wellFormed {t : Target} (h : t.Canonical) (hd : t.Distinct) :
    t.WellFormed where
  features := h.features
  fields := hd.fields
  known := fun s hs => KnownField.ofKey?_isSome.mp (h.fields s hs).1
  extensions := hd.extensions
  unknown := by
    intro s hs
    obtain ⟨hunknown, hreserved, -⟩ := h.extensions s hs
    refine ⟨fun f hf => ?_, hreserved⟩
    rw [KnownField.ofKey?_isSome.mpr ⟨f, hf⟩] at hunknown
    cases hunknown

private theorem Descriptor.Canonical.settings {d : Descriptor} (h : d.Canonical) :
    ∀ s ∈ d.settings, s.Canonical := by
  refine List.forall_mem_append.mpr ⟨fun s hs => ?_, fun s hs => ?_⟩
  · obtain ⟨statement, hstatement, hsetting⟩ := List.mem_filterMap.mp hs
    cases statement with
    | change how x =>
      cases hsetting
      exact h.statements.settings how _ hstatement
    | _ => cases hsetting
  · obtain ⟨t, ht, hs⟩ := List.mem_flatMap.mp hs
    have htarget := h.build.targets t ht
    rcases List.mem_append.mp hs with hs | hs
    · exact (htarget.fields s hs).2
    · exact (htarget.extensions s hs).2.2

/-- Every descriptor that is read from a tree is well-formed, if no key of a map comes twice or
has a tag. -/
theorem Reading.wellFormed_descriptor {t : Yaml.Tree} {d : Descriptor}
    (hdistinct : t.EveryMap Yaml.Tree.DistinctKeys) (huntagged : t.EveryMap Yaml.Tree.UntaggedKeys)
    (h : (Reading.descriptor t).outcome = .ok d) : d.WellFormed := by
  have hcanonical := Reading.canonical_descriptor h
  obtain ⟨hnames, htargets⟩ := Reading.distinct_descriptor hdistinct huntagged h
  exact {
    named := by
      intro hempty
      have hnamed := hcanonical.named
      rw [String.toList_eq_nil_iff.mp hempty] at hnamed
      cases hnamed
    trimmed := by
      have hname := congrArg String.toList hcanonical.name
      rw [Text.trim, String.toList_ofList] at hname
      exact Text.strip_eq_self_iff.mp hname
    dependencies := hcanonical.deps.wellFormed
    tags := hcanonical.statements.tags
    settings := hcanonical.settings
    names := hnames
    reserved := fun t ht => (hcanonical.build.targets t ht).name
    outputs := hcanonical.build.outputs
    targets := fun t ht => (hcanonical.build.targets t ht).wellFormed (htargets t ht) }

def libraryTree : Yaml.Tree :=
  .map [(.text "package", .map [(.text "name", .text " lib "),
      (.text "deps", .map [(.text "runtime", .list [.text "A", .text "C 2"]),
        (.text "private", .list [.text "B"]), (.text "public", .list [.text "A 1"])])]),
    (.text "build", .map [(.text "core", .map [(.text "features", .text "cxx shlib"),
      (.text "source", .map [(.text "linux & dbg & linux", .text "a.c")]),
      (.text "strip", .bool true)])])]

def libraryDescriptor : Descriptor where
  package :=
    { name := "lib"
      deps := [⟨"A", some "1", { isPublic := true, isRuntime := true }⟩, ⟨"B", none, .atPrivate⟩,
        ⟨"C", some "2", .atRuntime⟩] }
  build :=
    { targets :=
        [{ name := "core"
           features := ["cxx", "shlib"]
           fields := [⟨"source", [⟨.all ["dbg", "linux"], ["a.c"]⟩]⟩]
           extensions := [.plain "strip" ["true"]] }] }

/-- The descriptor of that library can be relied on. -/
theorem Reading.wellFormed_descriptor_library : libraryDescriptor.WellFormed := by
  have hdistinct : libraryTree.EveryMap Yaml.Tree.DistinctKeys := by
    simp [libraryTree, Yaml.Tree.DistinctKeys, Yaml.Tree.same, Yaml.Tree.EveryMap.bool]
  have huntagged : libraryTree.EveryMap Yaml.Tree.UntaggedKeys := by
    simp [libraryTree, Yaml.Tree.UntaggedKeys, Yaml.Tree.EveryMap.bool]
  exact Reading.wellFormed_descriptor hdistinct huntagged (d := libraryDescriptor) rfl

end PackageScript
