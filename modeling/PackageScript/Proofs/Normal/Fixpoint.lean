import PackageScript.Output
import PackageScript.Proofs.Normal.Settled
import PackageScript.Proofs.Reading.Origin
/-! The normal form of a normal form, and the spelling that keeps it from being the same. -/
namespace PackageScript
open Yaml

namespace Normal
open Reading

/-- The entries of a written section are read from it, also if it was left out. -/
theorem sectionEntries_of_lookup? {name : String} {d : Descriptor} {entries : Tree.Entries}
    (h : Tree.lookup? name (sections d) =
      if entries.isEmpty = false then some (.map entries) else none) :
    sectionEntries name (descriptor d) = entries := by
  rw [sectionEntries, descriptor_eq, Tree.entries?_map, Option.getD_some, h]
  cases entries <;> rfl

theorem lookup?_phase {name : String} (p : Phase) (rest : Tree.Entries)
    (htools : "tools" ≠ name) (hcall : "hwaf-call" ≠ name) :
    Tree.lookup? name (phase p ++ rest) = Tree.lookup? name rest := by
  simp [phase_eq, lookup?_part, htools, hcall]

/-- The list of changes that is written, if there are any. -/
theorem lookup?_statements (c : Configuration) :
    Tree.lookup? "statements" (configure c) =
      if ((groups c.statements).changes.map changeItem).isEmpty = false then
        some (.list ((groups c.statements).changes.map changeItem))
      else none := by
  rw [← List.append_nil (configure c), configure_eq]
  simp [lookup?_phase, lookup?_part, Tree.lookup?, -List.append_nil]

private theorem statementTrees_descriptor (d : Descriptor) :
    statementTrees (descriptor d) =
      (groups d.configuration.statements).changes.map fun c => setting c.2 := by
  have hitems : ∀ changes : List (Change × Setting),
      itemTrees (changes.map changeItem) = changes.map fun c => setting c.2 := by
    intro changes
    induction changes with
    | nil => rfl
    | cons c rest ih =>
      rw [itemTrees] at ih ⊢
      rw [List.map_cons, List.flatMap_cons, List.flatMap_append, ih]
      rfl
  rw [statementTrees, sectionEntries_of_lookup? (lookup?_configure d), changeTrees,
    lookup?_statements, ← hitems]
  generalize (groups d.configuration.statements).changes = changes
  cases changes <;> rfl

private theorem treesBeyond_keyed {α : Type} (reserved : List String) (key : α → String)
    (value : α → Tree) {front : Tree.Entries} {xs : List α}
    (hfront : ∀ e ∈ front, e.1.string?.any (· ∈ reserved) = true)
    (hkeys : ∀ a ∈ xs, key a ∉ reserved) :
    treesBeyond reserved (front ++ keyed key value xs) = xs.map value := by
  have hnone : front.filter (fun e => !e.1.string?.any (· ∈ reserved)) = [] :=
    List.filter_eq_nil_iff.mpr fun e he => by simp [hfront e he]
  have hall : (keyed key value xs).filter (fun e => !e.1.string?.any (· ∈ reserved)) =
      keyed key value xs := by
    refine List.filter_eq_self.mpr fun e he => ?_
    obtain ⟨a, ha, rfl⟩ := List.mem_map.mp he
    simp [Tree.string?, Tree.untagged, hkeys a ha]
  rw [treesBeyond, List.filter_append, hnone, hall, List.nil_append, keyed, List.map_map]
  rfl

private theorem reserved_part {reserved : List String} {name : String} (value : Tree)
    (isEmpty : Bool) (h : name ∈ reserved) :
    ∀ e ∈ part name value isEmpty, e.1.string?.any (· ∈ reserved) = true := by
  cases isEmpty <;> simp [part, Tree.string?, Tree.untagged, h]

private theorem treesBeyond_target {t : Target} (h : t.Canonical) :
    treesBeyond Target.reservedKeys (target t) =
      (lastSettings t.fields ++ lastSettings t.extensions).map setting := by
  rw [target_eq h]
  refine treesBeyond_keyed _ _ _ (List.forall_mem_append.mpr ⟨?_, ?_⟩) fun s hs => ?_
  · cases t.outputName <;> simp [outputPart, Tree.string?, Tree.untagged, Target.reservedKeys]
  · exact reserved_part _ _ (by decide)
  · refine settingName_notMem h ?_
    exact List.mem_append.mpr ((List.mem_append.mp hs).imp mem_of_mem_lastBy mem_of_mem_lastBy)

private theorem targetTrees_descriptor {d : Descriptor} (h : d.Canonical) :
    targetTrees (descriptor d) =
      (lastBy Target.name d.build.targets).flatMap fun t =>
        (lastSettings t.fields ++ lastSettings t.extensions).map setting := by
  have hphase : ∀ e ∈ phase d.build.phase, e.1.string?.any (· ∈ Build.reservedKeys) = true := by
    rw [phase_eq]
    exact List.forall_mem_append.mpr
      ⟨reserved_part _ _ (by decide), reserved_part _ _ (by decide)⟩
  rw [targetTrees, sectionEntries_of_lookup? (lookup?_build d), build_eq h.build,
    treesBeyond_keyed _ _ _ hphase fun t ht => (h.build.targets t (mem_of_mem_lastBy ht)).name,
    List.flatMap_map]
  refine List.flatMap_congr fun t ht => ?_
  exact treesBeyond_target (h.build.targets t (mem_of_mem_lastBy ht))

private theorem settingTrees_descriptor {d : Descriptor} (h : d.Canonical) :
    settingTrees (descriptor d) = d.writtenSettings.map setting := by
  rw [settingTrees, statementTrees_descriptor, targetTrees_descriptor h,
    Descriptor.writtenSettings, List.map_append, List.map_map, List.map_flatMap]
  rfl

end Normal

namespace Descriptor

private theorem canonical_of_mem_writtenSettings {d : Descriptor} (h : d.Canonical) {s : Setting}
    (hs : s ∈ d.writtenSettings) : s.Canonical := by
  rcases List.mem_append.mp hs with hs | hs
  · obtain ⟨c, hc, rfl⟩ := List.mem_map.mp hs
    exact h.statements.settings _ _ (Reading.change_of_mem_groups hc)
  · obtain ⟨t, ht, hs⟩ := List.mem_flatMap.mp hs
    have hcanonical := h.build.targets t (mem_of_mem_lastBy ht)
    rcases List.mem_append.mp hs with hs | hs
    · exact (hcanonical.fields s (mem_of_mem_lastBy hs)).2
    · exact (hcanonical.extensions s (mem_of_mem_lastBy hs)).2.2

/-- Nothing that is read back is ambiguous. -/
theorem unambiguous_writtenSettings {d : Descriptor} (h : d.Canonical) :
    ∀ s ∈ d.settled.writtenSettings, s.Unambiguous := by
  intro s hs
  rcases List.mem_append.mp hs with hs | hs
  · obtain ⟨c, hc, rfl⟩ := List.mem_map.mp hs
    obtain ⟨t, ht, hsettled⟩ := List.mem_map.mp (Reading.change_of_mem_groups hc)
    cases t with
    | change how s =>
      injection hsettled with _ hsettled
      have hmem := Statement.mem_of_mem_regrouped ht
      exact hsettled ▸ Setting.unambiguous_settled (h.statements.settings how s hmem)
    | _ => cases hsettled
  · obtain ⟨t, ht, hs⟩ := List.mem_flatMap.mp hs
    obtain ⟨u, hu, rfl⟩ := List.mem_map.mp (mem_of_mem_lastBy ht)
    have hcanonical := h.build.targets u (mem_of_mem_lastBy hu)
    rcases List.mem_append.mp hs with hs | hs
    · obtain ⟨r, hr, rfl⟩ := List.mem_map.mp (mem_of_mem_lastBy hs)
      exact Setting.unambiguous_settled (hcanonical.fields r (mem_of_mem_lastBy hr)).2
    · obtain ⟨r, hr, rfl⟩ := List.mem_map.mp (mem_of_mem_lastBy hs)
      exact Setting.unambiguous_settled (hcanonical.extensions r (mem_of_mem_lastBy hr)).2.2

end Descriptor

private theorem compileText_of_read {text origin : String} {t : Tree} {d : Descriptor}
    (format : OutputFormat) (hread : (Tree.read text origin).outcome = .ok t)
    (h : (Reading.descriptor t).outcome = .ok d) :
    (compileText text origin format).outcome = .ok (d.render format) :=
  Checked.outcome_bind.mpr ⟨d, Checked.outcome_bind.mpr ⟨t, hread, h⟩, rfl⟩

/-- The descriptor in a normal form is written alike exactly if no setting there is a map with the
fallback's name as its only key. What is read back from what is then written is always written
alike. The same holds of texts, as far as the trees of normal forms are read back from theirs. -/
theorem normal_again {t : Tree} {d : Descriptor} (h : (Reading.descriptor t).outcome = .ok d) :
    ∃ d₁ d₂, Reading.descriptor (Normal.descriptor d) = .ok d₁ ∧
      Reading.descriptor (Normal.descriptor d₁) = .ok d₂ ∧
      (Normal.descriptor d₁ = Normal.descriptor d ↔
        ∀ node ∈ Reading.settingTrees (Normal.descriptor d), ¬ Normal.IsLoneFallback node) ∧
      Normal.descriptor d₂ = Normal.descriptor d₁ ∧
      ∀ text origin, (Tree.read text origin).outcome = .ok t →
        (∀ e ∈ [d, d₁],
          (Tree.read (e.render .descriptor) origin).outcome = .ok (Normal.descriptor e)) →
        ∃ once twice, (compileText text origin .descriptor).outcome = .ok once ∧
          (compileText once origin .descriptor).outcome = .ok twice ∧
          (compileText twice origin .descriptor).outcome = .ok twice ∧
          (twice = once ↔
            ∀ node ∈ Reading.settingTrees (Normal.descriptor d), ¬ Normal.IsLoneFallback node) := by
  have hd := Reading.canonical_descriptor h
  have hd₁ := Descriptor.canonical_settled hd
  have hread := Reading.descriptor_descriptor hd
  have hread₁ := Reading.descriptor_descriptor hd₁
  have hclear : ∀ s ∈ d.settled.writtenSettings, ¬ Normal.IsLoneFallback (Normal.setting s) :=
    fun s hs => Setting.not_isLoneFallback (Descriptor.canonical_of_mem_writtenSettings hd₁ hs)
      (Descriptor.unambiguous_writtenSettings hd s hs)
  have hfixed := Normal.descriptor_settled hd₁ hclear
  have hiff : Normal.descriptor d.settled = Normal.descriptor d ↔
      ∀ node ∈ Reading.settingTrees (Normal.descriptor d), ¬ Normal.IsLoneFallback node := by
    constructor
    · intro hsame
      rw [← hsame, Normal.settingTrees_descriptor hd₁]
      exact List.forall_mem_map.mpr hclear
    · intro hlone
      refine Normal.descriptor_settled hd fun s hs => hlone _ ?_
      rw [Normal.settingTrees_descriptor hd]
      exact List.mem_map_of_mem hs
  refine ⟨d.settled, d.settled.settled, hread, hread₁, hiff, hfixed, fun text origin ht hyaml => ?_⟩
  have hyaml₁ := hyaml d.settled (by simp)
  have hyaml := hyaml d List.mem_cons_self
  refine ⟨d.render .descriptor, d.settled.render .descriptor, compileText_of_read _ ht h,
    compileText_of_read _ hyaml (by rw [hread]; rfl), ?_, ?_⟩
  · have htwice := compileText_of_read .descriptor hyaml₁ (d := d.settled.settled) (by
      rw [hread₁]
      rfl)
    have hrender : d.settled.settled.render .descriptor = d.settled.render .descriptor := by
      rw [Descriptor.render, Descriptor.render, hfixed]
    rwa [hrender] at htwice
  · rw [← hiff]
    constructor
    · intro hsame
      rw [hsame, hyaml] at hyaml₁
      injection hyaml₁ with hyaml₁
      exact hyaml₁.symm
    · intro hsame
      rw [Descriptor.render, Descriptor.render, hsame]

/-- A source that is bound for the tag that is called like the fallback. -/
def ambiguousTree : Tree :=
  .map [(.text "package", .map [(.text "name", .text "p")]),
    (.text "build", .map [(.text "t", .map [(.text "source",
      .map [(.text "default & default", .list [.text "a"])])])])]

def ambiguousDescriptor : Descriptor where
  package := { name := "p" }
  build := { targets := [{ name := "t", fields := [⟨"source", [⟨.loneDefault, ["a"]⟩]⟩] }] }

/-- The second pass writes something else for that document, and the third one the same again. -/
theorem normal_again_ambiguous :
    (Reading.descriptor ambiguousTree).outcome = .ok ambiguousDescriptor ∧
      ∃ d₁ d₂, Reading.descriptor (Normal.descriptor ambiguousDescriptor) = .ok d₁ ∧
        Reading.descriptor (Normal.descriptor d₁) = .ok d₂ ∧
        Normal.descriptor d₁ ≠ Normal.descriptor ambiguousDescriptor ∧
        Normal.descriptor d₂ = Normal.descriptor d₁ := by
  have hread : (Reading.descriptor ambiguousTree).outcome = .ok ambiguousDescriptor := rfl
  obtain ⟨d₁, d₂, h₁, h₂, hiff, hfixed, -⟩ := normal_again hread
  refine ⟨hread, d₁, d₂, h₁, h₂, fun hsame => ?_, hfixed⟩
  exact hiff.mp hsame (.map [(.text "default", .list [.text "a"])]) (List.mem_singleton_self _) rfl

/-- For that document the second pass writes another tree than the first one. -/
theorem normal_not_fixpoint :
    ¬ ∀ t d d₁, (Reading.descriptor t).outcome = .ok d →
      (Reading.descriptor (Normal.descriptor d)).outcome = .ok d₁ →
        Normal.descriptor d₁ = Normal.descriptor d := by
  intro hall
  have hread : (Reading.descriptor ambiguousTree).outcome = .ok ambiguousDescriptor := rfl
  have hsame := hall _ _ ambiguousDescriptor.settled hread rfl
  have htrees := congrArg Reading.settingTrees hsame
  injection htrees with htree
  cases htree

end PackageScript
