import PackageScript.Proofs.Normal.Settled
import PackageScript.Proofs.Reading.Origin
/-! What a descriptor keeps when it is written in normal form and read back. -/
namespace PackageScript
open Yaml PackageScript.Normal

private theorem settled_settings {settings : List Setting}
    (hnames : (settings.map Setting.name).Nodup) (h : ∀ s ∈ settings, s.Canonical ∧ s.Unambiguous) :
    (lastSettings settings).map Setting.settled = settings := by
  rw [lastSettings, lastBy_of_nodup hnames,
    List.map_congr_left fun s hs => Setting.settled_eq (h s hs).1 (h s hs).2, List.map_id']

private theorem Target.settled_eq {t : Target} (h : t.Canonical) (hd : t.Distinct)
    (hu : ∀ s ∈ t.fields ++ t.extensions, s.Unambiguous) : t.settled = t := by
  have hfields := settled_settings hd.fields fun s hs =>
    ⟨(h.fields s hs).2, hu s (List.mem_append_left _ hs)⟩
  have hextensions := settled_settings hd.extensions fun s hs =>
    ⟨(h.extensions s hs).2.2, hu s (List.mem_append_right _ hs)⟩
  rw [settled, hfields, hextensions]

/-- Without ambiguous settings, all that changes is the order of the statements. -/
theorem Descriptor.settled_eq {d : Descriptor} (h : d.Canonical) (hd : d.build.Distinct)
    (hu : ∀ s ∈ d.settings, s.Unambiguous) :
    d.settled =
      { d with
        configuration :=
          { d.configuration with
            statements := Statement.regrouped d.configuration.statements } } := by
  obtain ⟨hchanges, htargets⟩ := List.forall_mem_append.mp hu
  have hstatements : ∀ s ∈ Statement.regrouped d.configuration.statements, s.settled = s := by
    intro s hs
    have hmem := Statement.mem_of_mem_regrouped hs
    cases s with
    | change how x =>
      have hx := hchanges x (List.mem_filterMap.mpr ⟨_, hmem, rfl⟩)
      rw [Statement.settled, Setting.settled_eq (h.statements.settings how x hmem) hx]
    | _ => rfl
  have hbuild : (lastBy Target.name d.build.targets).map Target.settled = d.build.targets := by
    have htarget : ∀ t ∈ d.build.targets, t.settled = t := fun t ht =>
      Target.settled_eq (h.build.targets t ht) (hd.targets t ht) fun s hs =>
        htargets s (List.mem_flatMap.mpr ⟨t, ht, hs⟩)
    rw [lastBy_of_nodup hd.names, List.map_congr_left htarget, List.map_id']
  rw [settled, List.map_congr_left hstatements, List.map_id', hbuild]

/-- A descriptor comes back from its normal form with its statements in groups: those that start a
variable of the environment, the declared tags, the applied tags, and all other changes. -/
theorem normal_preserves {t : Tree} {d : Descriptor} (hdistinct : t.EveryMap Tree.DistinctKeys)
    (huntagged : t.EveryMap Tree.UntaggedKeys)
    (hdefault : ∀ node ∈ Reading.settingTrees t, ∀ source ∈ Reading.expressions node,
      Selector.parse source ≠ .loneDefault)
    (h : (Reading.descriptor t).outcome = .ok d) :
    ∃ d', Reading.descriptor (Normal.descriptor d) = .ok d' ∧
      d'.package = d.package ∧ d'.options = d.options ∧
      d'.configuration.phase = d.configuration.phase ∧ d'.build = d.build ∧
      d'.configuration.statements =
        picked Statement.startsVariable [] d.configuration.statements ++
          d.configuration.statements.filter (·.declaredTag?.isSome) ++
          d.configuration.statements.filter (·.appliedTag?.isSome) ++
          picked Statement.staysChange [] d.configuration.statements ∧
      d'.configuration.statements.Perm d.configuration.statements := by
  have hd := Reading.canonical_descriptor h
  have hread := Reading.descriptor_descriptor hd
  rw [Descriptor.settled_eq hd (Reading.distinct_descriptor hdistinct huntagged h)
    (Reading.selector_ne_loneDefault hdistinct huntagged hdefault h)] at hread
  exact ⟨_, hread, rfl, rfl, rfl, rfl, rfl, Statement.perm_regrouped _⟩

/-- A statement that stays, one that goes to the environment, and an applied tag. -/
def mixedTree : Tree :=
  .map [(.text "package", .map [(.text "name", .text "p"),
      (.text "deps", .map [(.text "public", .list [.text "A 1"]),
        (.text "runtime", .list [.text "A", .text "B"])])]),
    (.text "configure", .map [
      (.text "statements", .list [
        .map [(.text "macro-append", .map [(.text "FLAGS", .map [
          (.text "default", .list [.text "-O2"]), (.text "dbg & linux", .text "-g")])])],
        .map [(.text "path-append", .map [(.text "PATH", .text "/bin")])]]),
      (.text "apply-tags", .text "opt")])]

/-- The change of that tree that depends on tags. -/
def taggedFlags : Statement :=
  .change .appendMacro ⟨"FLAGS", [⟨.fallback, ["-O2"]⟩, ⟨.all ["dbg", "linux"], ["-g"]⟩]⟩

/-- The change of that tree that the environment can express. -/
def plainPath : Statement :=
  .change .appendPath (.plain "PATH" ["/bin"])

def mixedDescriptor : Descriptor where
  package :=
    { name := "p"
      deps := [⟨"A", some "1", { isPublic := true, isRuntime := true }⟩, ⟨"B", none, .atRuntime⟩] }
  configuration := { statements := [taggedFlags, plainPath, .applyTag "opt"] }

/-- The change that the environment expresses comes first, and the one that depends on tags comes
last. -/
theorem normal_preserves_mixed :
    ∃ d', Reading.descriptor (Normal.descriptor mixedDescriptor) = .ok d' ∧
      d'.package = mixedDescriptor.package ∧
      d'.configuration.statements = [plainPath, .applyTag "opt", taggedFlags] := by
  have hdistinct : mixedTree.EveryMap Tree.DistinctKeys := by
    simp [mixedTree, Tree.DistinctKeys, Tree.same]
  have huntagged : mixedTree.EveryMap Tree.UntaggedKeys := by
    simp [mixedTree, Tree.UntaggedKeys]
  have hdefault : ∀ node ∈ Reading.settingTrees mixedTree,
      ∀ source ∈ Reading.expressions node, Selector.parse source ≠ .loneDefault := by
    have hexpressions : (Reading.settingTrees mixedTree).flatMap Reading.expressions =
        ["default", "dbg & linux"] := rfl
    have hparse : ∀ source ∈ ["default", "dbg & linux"],
        Selector.parse source ≠ .loneDefault := by decide
    exact fun node hnode source hsource => hparse source
      (hexpressions ▸ List.mem_flatMap.mpr ⟨node, hnode, hsource⟩)
  obtain ⟨d', hread, hpackage, -, -, -, hstatements, -⟩ :=
    normal_preserves hdistinct huntagged hdefault (d := mixedDescriptor) rfl
  exact ⟨d', hread, hpackage, hstatements⟩

end PackageScript
