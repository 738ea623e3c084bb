import PackageScript.Proofs.Reading.Contributions
import PackageScript.Proofs.Reading.Sections
import PackageScript.Proofs.Reading.Slots
/-! The order of keys: which descriptor is read from the same entries in another order. -/
namespace PackageScript.Reading
open Yaml Checked

/-- What may be rearranged in a package section: the map of its dependencies. -/
def PackagePart (name : String) (t u : Tree) : Prop :=
  name = "deps" ∧ Tree.Shuffled t u

/-- What may be rearranged in a document: its sections, and the dependencies of its package. -/
def DocumentPart (name : String) (t u : Tree) : Prop :=
  (name = "package" ∧ Tree.Reordered PackagePart t u) ∨
    name ∈ ["options", "configure", "build"] ∧ Tree.Shuffled t u

/-- A document whose own entries, and those of its package, of its dependencies and of its other
sections, may stand in another order. -/
def ReorderedDocument : Tree → Tree → Prop :=
  Tree.Reordered DocumentPart

/-- Whether the keys of every map differ and have no tag. -/
def PlainKeys (t : Tree) : Prop :=
  t.EveryMap Tree.DistinctKeys ∧ t.EveryMap Tree.UntaggedKeys

theorem PlainKeys.entries? {t : Tree} {es : Tree.Entries} (h : PlainKeys t)
    (hes : t.entries? = some es) : Tree.WellKeyed es ∧ ∀ e ∈ es, PlainKeys e.2 := by
  obtain ⟨hd, hvalues⟩ := Tree.everyMap_entries? h.1 hes
  obtain ⟨hu, hvalues'⟩ := Tree.everyMap_entries? h.2 hes
  exact ⟨Tree.wellKeyed_of_distinct hd hu, fun e he => ⟨hvalues e he, hvalues' e he⟩⟩

section Sections

variable {es fs : Tree.Entries} (h : es.Perm fs)
include h

private theorem succeeds_options_of_perm : (options es).Succeeds ↔ (options fs).Succeeds := by
  simp only [succeeds_options_iff, h.mem_iff]

private theorem succeeds_dependencies_of_perm :
    (dependencies (.map es)).Succeeds ↔ (dependencies (.map fs)).Succeeds := by
  simp only [succeeds_dependencies_iff, h.mem_iff]

private theorem succeeds_configure_of_perm : (configure es).Succeeds ↔ (configure fs).Succeeds := by
  simp only [succeeds_configure_iff, h.mem_iff, (h.flatMap_right _).nodup_iff]

private theorem succeeds_build_of_perm : (build es).Succeeds ↔ (build fs).Succeeds := by
  simp only [succeeds_build_iff, h.mem_iff, (h.flatMap_right _).nodup_iff]

end Sections

section Package

variable {t u : Tree}

private theorem succeeds_dependencies_of_shuffled (h : Tree.Shuffled t u) :
    (dependencies t).Succeeds ↔ (dependencies u).Succeeds := by
  cases h with
  | same => rfl
  | map hes => exact succeeds_dependencies_of_perm (Tree.perm_of_rearranged hes)
  | tagged => simp [dependencies]

private theorem dependencies_eq_of_shuffled (ht : PlainKeys t) (h : Tree.Shuffled t u)
    {deps deps' : List Dependency} (h₁ : (dependencies t).outcome = .ok deps)
    (h₂ : (dependencies u).outcome = .ok deps') : deps = deps' := by
  cases h with
  | same => exact eq_of_outcome t deps deps' h₁ h₂
  | map hes =>
    exact dependencies_eq_of_perm (ht.entries? (Tree.entries?_map _)).1
      (Tree.perm_of_rearranged hes) h₁ h₂
  | tagged => simp [dependencies] at h₁

private theorem succeeds_packageEntry_of_sameEntry {p : Package} {e f : Tree × Tree}
    (h : Tree.SameEntry PackagePart e f) :
    (packageEntry p e).Succeeds ↔ (packageEntry p f).Succeeds := by
  obtain ⟨key, t⟩ := e
  obtain ⟨key', u⟩ := f
  obtain ⟨hkey, rfl | ⟨name, rfl, rfl, hshuffled⟩⟩ := h
  · rw [show key = key' from hkey]
  · cases hkey
    have hentry : ∀ t, (packageEntry p (.text "deps", t)).Succeeds ↔ (dependencies t).Succeeds :=
      fun t => succeeds_bind_of_forall fun _ => succeeds_ok _
    rw [hentry, hentry, succeeds_dependencies_of_shuffled hshuffled]

private theorem packageName_rearranged {es fs : Tree.Entries} (hes : Tree.WellKeyed es)
    (h : Tree.Rearranged PackagePart es fs) : packageName es = packageName fs := by
  have hsame : Tree.lookup? "name" es = Tree.lookup? "name" fs := by
    rcases Tree.rel_cases (Tree.lookup?_rearranged "name" hes.names h) with ⟨ht, hu⟩ |
      ⟨t, u, ht, hu, rfl | ⟨hname, -⟩⟩
    · rw [ht, hu]
    · rw [ht, hu]
    · exact absurd hname (by decide)
  rw [packageName, packageName, hsame]

private theorem succeeds_package_of_reordered (ht : PlainKeys t)
    (h : Tree.Reordered PackagePart t u) : (package t).Succeeds ↔ (package u).Succeeds := by
  rw [succeeds_package_iff, succeeds_package_iff]
  rcases Tree.rel_cases (Tree.rel_entries? h) with ⟨hes, hfs⟩ | ⟨es, fs, hes, hfs, hrearranged⟩
  · simp [hes, hfs]
  · simp only [hes, hfs, Option.some.injEq, exists_eq_left',
      packageName_rearranged (ht.entries? hes).1 hrearranged,
      Tree.forall_mem_rearranged (fun _ _ => succeeds_packageEntry_of_sameEntry) hrearranged]

private theorem package_eq_of_reordered (ht : PlainKeys t) (h : Tree.Reordered PackagePart t u)
    {p p' : Package} (h₁ : (package t).outcome = .ok p) (h₂ : (package u).outcome = .ok p') :
    p = p' := by
  obtain ⟨es, name, hes, hname, h₁⟩ := package_eq_ok.mp h₁
  obtain ⟨fs, name', hfs, hname', h₂⟩ := package_eq_ok.mp h₂
  have hrearranged : Tree.Rearranged PackagePart es fs := by
    have hentries := Tree.rel_entries? h
    rw [hes, hfs] at hentries
    cases hentries with
    | some hrearranged => exact hrearranged
  obtain ⟨hkeys, hvalues⟩ := ht.entries? hes
  have hsame : name = name' := by
    rw [packageName_rearranged hkeys hrearranged] at hname
    exact Except.ok.inj (hname.symm.trans hname')
  subst hsame
  have hfixed : ∀ part : String, part ≠ "deps" → ∀ t u, ¬ PackagePart part t u :=
    fun part hne _ _ hpart => hne hpart.1
  have hauthors := slot_authors.get_eq_of_fixed hkeys hrearranged (hfixed _ (by decide))
    eq_of_outcome h₁ h₂
  have hmanagers := slot_managers.get_eq_of_fixed hkeys hrearranged (hfixed _ (by decide))
    eq_of_outcome h₁ h₂
  have hversion := slot_version.get_eq_of_fixed hkeys hrearranged (hfixed _ (by decide))
    eq_of_outcome h₁ h₂
  have hdeps : p.deps = p'.deps := by
    refine slot_deps.get_eq hkeys hrearranged (fun t u b c hlook halike hb hc => ?_) h₁ h₂
    rcases halike with rfl | ⟨-, hshuffled⟩
    · exact eq_of_outcome t b c hb hc
    · exact dependencies_eq_of_shuffled (hvalues _ (Tree.mem_of_lookup? hlook)) hshuffled hb hc
  have hname := (name_foldlM_packageEntry h₁).trans (name_foldlM_packageEntry h₂).symm
  calc p = ⟨p.name, p.authors, p.managers, p.version, p.deps⟩ := rfl
    _ = ⟨p'.name, p'.authors, p'.managers, p'.version, p'.deps⟩ := by
      rw [hname, hauthors, hmanagers, hversion, hdeps]
    _ = p' := rfl

end Package

section Documents

variable {t u : Tree} {root root' : Tree.Entries} {name : String}

private theorem succeeds_descriptor_iff : (descriptor t).Succeeds ↔
    ∃ root, t.entries? = some root ∧ (checkSectionNames root).Succeeds ∧
      (∃ part, Tree.lookup? "package" root = some part ∧ (package part).Succeeds) ∧
      (readSection root "options" {} options).Succeeds ∧
      (readSection root "configure" {} configure).Succeeds ∧
      (readSection root "build" {} build).Succeeds := by
  constructor
  · rintro ⟨d, h⟩
    obtain ⟨root, part, hroot, hnames, hpart, hp, ho, hc, hb⟩ := descriptor_eq_ok.mp h
    exact ⟨root, hroot, ⟨_, hnames⟩, ⟨part, hpart, _, hp⟩, ⟨_, ho⟩, ⟨_, hc⟩, _, hb⟩
  · rintro ⟨root, hroot, ⟨_, hnames⟩, ⟨part, hpart, p, hp⟩, ⟨o, ho⟩, ⟨c, hc⟩, b, hb⟩
    exact ⟨⟨p, o, c, b⟩, descriptor_eq_ok.mpr ⟨root, part, hroot, hnames, hpart, hp, ho, hc, hb⟩⟩

private theorem shuffled_of_alike (hname : name ≠ "package")
    (h : Tree.Alike DocumentPart name t u) : Tree.Shuffled t u := by
  rcases h with rfl | ⟨hpackage, -⟩ | ⟨-, hshuffled⟩
  · exact .same t
  · exact absurd hpackage hname
  · exact hshuffled

private theorem reordered_of_alike (h : Tree.Alike DocumentPart "package" t u) :
    Tree.Reordered PackagePart t u := by
  rcases h with rfl | ⟨-, hreordered⟩ | ⟨hname, -⟩
  · exact .same t
  · exact hreordered
  · exact absurd hname (by decide)

private theorem succeeds_readSection_of_alike {α : Type} {read : Tree.Entries → Checked α}
    (default : α) (hname : name ≠ "package")
    (h : Option.Rel (Tree.Alike DocumentPart name) (Tree.lookup? name root)
      (Tree.lookup? name root'))
    (hread : ∀ es fs, es.Perm fs → ((read es).Succeeds ↔ (read fs).Succeeds)) :
    (readSection root name default read).Succeeds ↔
      (readSection root' name default read).Succeeds := by
  rw [readSection, readSection]
  rcases Tree.rel_cases h with ⟨ht, hu⟩ | ⟨t, u, ht, hu, halike⟩
  · rw [ht, hu]
  · rw [ht, hu]
    cases shuffled_of_alike hname halike with
    | same => rfl
    | map hes => exact hread _ _ (Tree.perm_of_rearranged hes)
    | tagged => simp

/-- The entries of a section other than the package are the same in another order. -/
theorem perm_sectionEntries (name : String) (ht : PlainKeys t) (h : ReorderedDocument t u)
    (hname : name ≠ "package") : (sectionEntries name t).Perm (sectionEntries name u) := by
  rw [sectionEntries, sectionEntries]
  rcases Tree.rel_cases (Tree.rel_entries? h) with ⟨ht', hu'⟩ | ⟨root, root', ht', hu', hroot⟩
  · rw [ht', hu']
  · rw [ht', hu', Option.getD_some, Option.getD_some]
    rcases Tree.rel_cases (Tree.lookup?_rearranged name (ht.entries? ht').1.names hroot) with
      ⟨hlook, hlook'⟩ | ⟨part, part', hlook, hlook', halike⟩
    · rw [hlook, hlook']
    · rw [hlook, hlook']
      rcases Tree.rel_cases (Tree.rel_entries? (shuffled_of_alike hname halike)) with
        ⟨hes, hfs⟩ | ⟨es, fs, hes, hfs, hrearranged⟩
      · simp only [hes, hfs]
        rfl
      · simp only [hes, hfs, Option.getD_some]
        exact Tree.perm_of_rearranged hrearranged

private theorem succeeds_descriptor_of_reordered (ht : PlainKeys t) (h : ReorderedDocument t u) :
    (descriptor t).Succeeds ↔ (descriptor u).Succeeds := by
  rw [succeeds_descriptor_iff, succeeds_descriptor_iff]
  rcases Tree.rel_cases (Tree.rel_entries? h) with ⟨ht', hu'⟩ | ⟨root, root', ht', hu', hroot⟩
  · simp [ht', hu']
  · obtain ⟨hkeys, hvalues⟩ := ht.entries? ht'
    have hlook := fun name => Tree.lookup?_rearranged name hkeys.names hroot
    have hnames : (checkSectionNames root).Succeeds ↔ (checkSectionNames root').Succeeds := by
      rw [succeeds_checkSectionNames_iff, succeeds_checkSectionNames_iff]
      exact Tree.forall_mem_rearranged (fun e f hef => by rw [hef.1]) hroot
    have hpackage : (∃ part, Tree.lookup? "package" root = some part ∧ (package part).Succeeds) ↔
        ∃ part, Tree.lookup? "package" root' = some part ∧ (package part).Succeeds := by
      rcases Tree.rel_cases (hlook "package") with ⟨hp, hq⟩ | ⟨part, part', hp, hq, halike⟩
      · rw [hp, hq]
      · have hpart := hvalues _ (Tree.mem_of_lookup? hp)
        simp only [hp, hq, Option.some.injEq, exists_eq_left']
        exact succeeds_package_of_reordered hpart (reordered_of_alike halike)
    have hoptions := succeeds_readSection_of_alike {} (by decide) (hlook "options")
      fun _ _ => succeeds_options_of_perm
    have hconfigure := succeeds_readSection_of_alike {} (by decide) (hlook "configure")
      fun _ _ => succeeds_configure_of_perm
    have hbuild := succeeds_readSection_of_alike {} (by decide) (hlook "build")
      fun _ _ => succeeds_build_of_perm
    simp only [ht', hu', Option.some.injEq, exists_eq_left', hnames, hpackage, hoptions, hconfigure,
      hbuild]

private theorem package_eq_of_reorderedDocument (ht : PlainKeys t) (h : ReorderedDocument t u)
    {d d' : Descriptor} (h₁ : (descriptor t).outcome = .ok d)
    (h₂ : (descriptor u).outcome = .ok d') : d.package = d'.package := by
  obtain ⟨root, part, hroot, -, hpart, hp, -⟩ := descriptor_eq_ok.mp h₁
  obtain ⟨root', part', hroot', -, hpart', hp', -⟩ := descriptor_eq_ok.mp h₂
  have hentries := Tree.rel_entries? h
  rw [hroot, hroot'] at hentries
  cases hentries with
  | some hrearranged =>
    obtain ⟨hkeys, hvalues⟩ := ht.entries? hroot
    have hlook := Tree.lookup?_rearranged "package" hkeys.names hrearranged
    rw [hpart, hpart'] at hlook
    cases hlook with
    | some halike =>
      exact package_eq_of_reordered (hvalues _ (Tree.mem_of_lookup? hpart))
        (reordered_of_alike halike) hp hp'

end Documents

/-- The keys of a section of a plainly keyed document differ. -/
theorem wellKeyed_sectionEntries {t : Tree} (ht : PlainKeys t) (name : String) :
    Tree.WellKeyed (sectionEntries name t) := by
  rcases sectionEntries_cases name t with hnil | ⟨root, part, hroot, hmem, hes⟩
  · rw [hnil]
    exact ⟨List.nodup_nil, by simp [Tree.UntaggedKeys]⟩
  · exact (((ht.entries? hroot).2 _ hmem).entries? hes).1

theorem plainKeys_sectionEntries {t : Tree} (ht : PlainKeys t) (name : String) :
    ∀ e ∈ sectionEntries name t, PlainKeys e.2 := by
  rcases sectionEntries_cases name t with hnil | ⟨root, part, hroot, hmem, hes⟩
  · simp [hnil]
  · exact (((ht.entries? hroot).2 _ hmem).entries? hes).2

def statementKeys : List String := ["env", "declare-tags", "apply-tags", "statements"]

private theorem key_of_statementsOf {e : Tree × Tree} (h : statementsOf e ≠ []) :
    ∃ key ∈ statementKeys, e.1.string? = some key := by
  rw [statementsOf] at h
  split at h
  · rename_i c hc
    obtain ⟨key, phase?, hkey, -, hcases⟩ := configureEntry_eq_ok.mp hc
    rcases hcases with ⟨phase, -, rfl⟩ | ⟨-, statements, hstatements, rfl⟩
    · exact absurd rfl h
    · unfold statementsAfter at hstatements
      split at hstatements
      · exact ⟨"env", by decide, hkey⟩
      · exact ⟨"declare-tags", by decide, hkey⟩
      · exact ⟨"apply-tags", by decide, hkey⟩
      · exact ⟨"statements", by decide, hkey⟩
      · cases outcome_ok.mp hstatements
        exact absurd rfl h
  · exact absurd rfl h

/-- An entry of the build section adds a target that is named by its key, or none. -/
theorem targetsOf_cases (e : Tree × Tree) :
    targetsOf e = [] ∨ ∃ t, targetsOf e = [t] ∧ e.1.string? = some t.name := by
  rw [targetsOf]
  split
  · rename_i b hb
    obtain ⟨key, phase?, hkey, hphase, hcases⟩ := buildEntry_eq_ok.mp hb
    rcases hcases with ⟨phase, -, rfl⟩ | ⟨-, -, rfl⟩ | ⟨rfl, henv, fields, t, -, ht, -, rfl⟩
    · exact Or.inl rfl
    · exact Or.inl rfl
    · obtain ⟨htools, hcall⟩ := phaseEntry_eq_none hphase
      have hnew : key ∉ Build.reservedKeys := by
        simpa [Build.reservedKeys] using ⟨htools, hcall, henv⟩
      exact Or.inr ⟨t, rfl, by rw [hkey, (canonical_target hnew ht).1]⟩
  · exact Or.inl rfl

/-- A document whose keys stand in another order is read whenever it was, and read as the same, but
for the order of the statements and of the targets: those of each entry come where the entry
does. -/
theorem descriptor_of_reordered {t u : Tree} (hdistinct : t.EveryMap Tree.DistinctKeys)
    (huntagged : t.EveryMap Tree.UntaggedKeys) (h : ReorderedDocument t u) :
    ((descriptor t).Succeeds ↔ (descriptor u).Succeeds) ∧
    ∀ d d', (descriptor t).outcome = .ok d → (descriptor u).outcome = .ok d' →
      d'.package = d.package ∧ d'.options = d.options ∧
      d'.configuration.phase = d.configuration.phase ∧ d'.build.phase = d.build.phase ∧
      ((sectionEntries "configure" t).Perm (sectionEntries "configure" u) ∧
        d.configuration.statements = (sectionEntries "configure" t).flatMap statementsOf ∧
        d'.configuration.statements = (sectionEntries "configure" u).flatMap statementsOf ∧
        ∀ e, statementsOf e ≠ [] → ∃ key ∈ statementKeys, e.1.string? = some key) ∧
      ((sectionEntries "build" t).Perm (sectionEntries "build" u) ∧
        d.build.targets = (sectionEntries "build" t).flatMap targetsOf ∧
        d'.build.targets = (sectionEntries "build" u).flatMap targetsOf ∧
        ∀ e, targetsOf e = [] ∨ ∃ x, targetsOf e = [x] ∧ e.1.string? = some x.name) ∧
      (sectionEntries "configure" u = sectionEntries "configure" t →
        sectionEntries "build" u = sectionEntries "build" t → d' = d) := by
  have ht : PlainKeys t := ⟨hdistinct, huntagged⟩
  refine ⟨succeeds_descriptor_of_reordered ht h, fun d d' hd hd' => ?_⟩
  have hconfigure := perm_sectionEntries "configure" ht h (by decide)
  have hbuild := perm_sectionEntries "build" ht h (by decide)
  have hpackage := package_eq_of_reorderedDocument ht h hd hd'
  have hoptions := options_eq_of_perm (wellKeyed_sectionEntries ht "options")
    (perm_sectionEntries "options" ht h (by decide)) (options_sectionEntries hd)
    (options_sectionEntries hd')
  have hphase := configure_phase_eq_of_perm (wellKeyed_sectionEntries ht "configure") hconfigure
    (configure_sectionEntries hd) (configure_sectionEntries hd')
  have hphase' := build_phase_eq_of_perm (wellKeyed_sectionEntries ht "build") hbuild
    (build_sectionEntries hd) (build_sectionEntries hd')
  have hstatements := statements_configure (configure_sectionEntries hd)
  have hstatements' := statements_configure (configure_sectionEntries hd')
  have htargets := targets_build (build_sectionEntries hd)
  have htargets' := targets_build (build_sectionEntries hd')
  refine ⟨hpackage.symm, hoptions.symm, hphase.symm, hphase'.symm,
    ⟨hconfigure, hstatements, hstatements', fun _ => key_of_statementsOf⟩,
    ⟨hbuild, htargets, htargets', targetsOf_cases⟩, fun hsame hsame' => ?_⟩
  rw [hsame] at hstatements'
  rw [hsame'] at htargets'
  calc d' = ⟨d'.package, d'.options, ⟨d'.configuration.phase, d'.configuration.statements⟩,
        ⟨d'.build.phase, d'.build.targets⟩⟩ := rfl
    _ = ⟨d.package, d.options, ⟨d.configuration.phase, d.configuration.statements⟩,
        ⟨d.build.phase, d.build.targets⟩⟩ := by
      rw [hpackage, hoptions, hphase, hphase', hstatements, hstatements', htargets, htargets']
    _ = d := rfl

/-- A document with two entries in each map that may be rearranged. -/
def forwardTree : Tree :=
  .map [(.text "package", .map [(.text "name", .text "p"),
      (.text "deps", .map [(.text "public", .list [.text "A"]),
        (.text "runtime", .list [.text "A 1"])])]),
    (.text "options", .map [(.text "tools", .list [.text "x"]),
      (.text "hwaf-call", .list [.text "y"])]),
    (.text "configure", .map [(.text "env", .map [(.text "CC", .text "gcc")]),
      (.text "apply-tags", .text "fast")]),
    (.text "build", .map [(.text "a", .map []), (.text "b", .map [(.text "use", .text "a")])])]

/-- The same entries in the opposite order. -/
def backwardTree : Tree :=
  .map [(.text "build", .map [(.text "b", .map [(.text "use", .text "a")]), (.text "a", .map [])]),
    (.text "configure", .map [(.text "apply-tags", .text "fast"),
      (.text "env", .map [(.text "CC", .text "gcc")])]),
    (.text "options", .map [(.text "hwaf-call", .list [.text "y"]),
      (.text "tools", .list [.text "x"])]),
    (.text "package", .map [(.text "deps", .map [(.text "runtime", .list [.text "A 1"]),
        (.text "public", .list [.text "A"])]), (.text "name", .text "p")])]

/-- The package and the options are the same, and the statements and the targets follow their
keys. -/
theorem descriptor_of_reordered_backward :
    ∃ d d', (descriptor forwardTree).outcome = .ok d ∧ (descriptor backwardTree).outcome = .ok d' ∧
      d'.package = d.package ∧ d'.options = d.options ∧
      d.configuration.statements = [.change .declareMacro (.plain "CC" ["gcc"]), .applyTag "fast"] ∧
      d'.configuration.statements =
        [.applyTag "fast", .change .declareMacro (.plain "CC" ["gcc"])] ∧
      d.build.targets.map Target.name = ["a", "b"] ∧
      d'.build.targets.map Target.name = ["b", "a"] := by
  have hdistinct : forwardTree.EveryMap Tree.DistinctKeys := by
    simp [forwardTree, Tree.DistinctKeys, Tree.same]
  have huntagged : forwardTree.EveryMap Tree.UntaggedKeys := by
    simp [forwardTree, Tree.UntaggedKeys]
  have hreverse : ∀ es : Tree.Entries, Tree.Shuffled (.map es) (.map es.reverse) := fun es =>
    .map (Tree.rearranged_of_perm (List.reverse_perm es).symm)
  have hpackage : ∀ name es, Tree.SameEntry DocumentPart
      (.text "package", .map [(.text "name", name), (.text "deps", .map es)])
      (.text "package", .map [(.text "deps", .map es.reverse), (.text "name", name)]) := by
    intro name es
    refine ⟨rfl, Or.inr ⟨"package", rfl, Or.inl ⟨rfl, .map ⟨[(.text "name", name),
      (.text "deps", .map es.reverse)], ?_, List.Perm.swap _ _ []⟩⟩⟩⟩
    exact .cons ⟨rfl, Or.inl rfl⟩ (.cons ⟨rfl, Or.inr ⟨"deps", rfl, rfl, hreverse es⟩⟩ .nil)
  have hsection : ∀ name ∈ ["options", "configure", "build"], ∀ es,
      Tree.SameEntry DocumentPart (.text name, .map es) (.text name, .map es.reverse) :=
    fun name hname es => ⟨rfl, Or.inr ⟨name, rfl, Or.inr ⟨hname, hreverse es⟩⟩⟩
  have hreordered : ReorderedDocument forwardTree backwardTree :=
    .map ⟨_, .cons (hpackage _ _)
      (.cons (hsection "options" (by decide) _) (.cons (hsection "configure" (by decide) _)
        (.cons (hsection "build" (by decide) _) .nil))), (List.reverse_perm _).symm⟩
  obtain ⟨-, hsame⟩ := descriptor_of_reordered hdistinct huntagged hreordered
  obtain ⟨hpackage, hoptions, -⟩ := hsame _ _ rfl rfl
  exact ⟨_, _, rfl, rfl, hpackage, hoptions, rfl, rfl, rfl, rfl⟩

end PackageScript.Reading
