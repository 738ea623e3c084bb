import PackageScript.Proofs.Normal.Entries
import PackageScript.Proofs.Normal.Groups
import PackageScript.Proofs.Reading.Canonical
/-! The parts of a written tree, side by side. -/
namespace PackageScript.Normal
open Yaml

theorem dependencies_eq (deps : List Dependency) :
    dependencies deps =
      part "public" (stringList (visibleSources (·.isPublic) deps))
          (visibleSources (·.isPublic) deps).isEmpty ++
        part "private" (stringList (visibleSources (·.isPrivate) deps))
          (visibleSources (·.isPrivate) deps).isEmpty ++
        part "runtime" (stringList (visibleSources (·.isRuntime) deps))
          (visibleSources (·.isRuntime) deps).isEmpty := by
  simp (disch := simp) only [dependencies, withList_fresh, List.nil_append]

def versionPart (version : Option String) : Tree.Entries :=
  version.toList.map fun v => (.text "version", .text v)

private theorem withVersion_fresh {entries : Tree.Entries} (version : Option String)
    (h : Fresh "version" entries) : withVersion version entries = entries ++ versionPart version := by
  cases version with
  | none => simp [withVersion, versionPart]
  | some v => simp [withVersion, versionPart, insert_fresh h]

private theorem fresh_versionPart {name : String} (version : Option String)
    (h : "version" ≠ name) : Fresh name (versionPart version) := by
  cases version <;> simp [versionPart, h]

/-- The entries of a written package section, in their order. -/
theorem package_eq (p : Package) :
    package p =
      [(Tree.text "name", Tree.text p.name)] ++
        part "authors" (stringList p.authors) p.authors.isEmpty ++
        part "managers" (stringList p.managers) p.managers.isEmpty ++ versionPart p.version ++
        part "deps" (.map (dependencies p.deps)) (dependencies p.deps).isEmpty := by
  simp (disch := simp [fresh_versionPart]) only
    [package, withList_fresh, withVersion_fresh, withMap_fresh]

theorem phase_eq (p : Phase) :
    phase p =
      part "tools" (stringList p.tools) p.tools.isEmpty ++
        part "hwaf-call" (stringList p.hooks) p.hooks.isEmpty := by
  simp (disch := simp) only [phase, withList_fresh, List.nil_append]

private theorem fresh_phase {name : String} (p : Phase) (htools : "tools" ≠ name)
    (hcall : "hwaf-call" ≠ name) : Fresh name (phase p) := by
  simp [phase_eq, htools, hcall]

/-- The entries of a written configure section, in their order. -/
theorem configure_eq (c : Configuration) :
    configure c =
      phase c.phase ++
        part "env" (.map ((groups c.statements).env.map envEntry))
          ((groups c.statements).env.map envEntry).isEmpty ++
        part "declare-tags" (.list ((groups c.statements).declaredTags.map tagItem))
          ((groups c.statements).declaredTags.map tagItem).isEmpty ++
        part "apply-tags" (stringList (groups c.statements).appliedTags)
          (groups c.statements).appliedTags.isEmpty ++
        part "statements" (.list ((groups c.statements).changes.map changeItem))
          ((groups c.statements).changes.map changeItem).isEmpty := by
  simp (disch := simp [fresh_phase]) only
    [configure, withMap_fresh, withItems_fresh, withList_fresh]

/-- The bindings of which each has a source of its own, the later ones in place of the earlier. -/
def lastBindings (s : Setting) : List Binding :=
  lastBy (·.selector.source) s.bindings

theorem setting_eq (s : Setting) :
    setting s =
      match s.unconditional? with
      | some strings => stringList strings
      | none => .map (keyed (·.selector.source) (stringList ·.strings) (lastBindings s)) := by
  have hfresh : ∀ b ∈ s.bindings, Fresh b.selector.source [] := fun b _ => fresh_nil _
  rw [setting, foldl_insert (fun b : Binding => b.selector.source) (stringList ·.strings) _ hfresh]
  rfl

def outputPart (outputName : Option String) : Tree.Entries :=
  outputName.toList.map fun name => (.text "target", .text name)

private theorem fresh_outputPart {name : String} (outputName : Option String)
    (h : "target" ≠ name) : Fresh name (outputPart outputName) := by
  cases outputName <;> simp [outputPart, h]

/-- The settings of which each has a name of its own, the later ones in place of the earlier. -/
def lastSettings (settings : List Setting) : List Setting :=
  lastBy Setting.name settings

private theorem notMem_of_known {field : String}
    (hknown : (KnownField.ofKey? field).isSome = true) :
    field ∉ Target.reservedKeys := by
  have hreserved : ∀ key ∈ Target.reservedKeys, KnownField.ofKey? key = none := by decide
  intro hmem
  simp [hreserved field hmem] at hknown

/-- No setting of a canonical target has the name of another part. -/
theorem settingName_notMem {t : Target} (h : t.Canonical) {s : Setting}
    (hs : s ∈ t.fields ++ t.extensions) : s.name ∉ Target.reservedKeys := by
  rcases List.mem_append.mp hs with hs | hs
  · exact notMem_of_known (h.fields s hs).1
  · exact (h.extensions s hs).2.1

private theorem target_output (t : Target) :
    target t = withSettings (t.fields ++ t.extensions)
      (withList "features" t.features (outputPart t.outputName)) := by
  obtain ⟨name, outputName, features, fields, extensions⟩ := t
  cases outputName <;> rfl

/-- No field has the name of an extension. -/
theorem fieldName_ne {t : Target} (h : t.Canonical) :
    ∀ e ∈ t.extensions, ∀ f ∈ t.fields, f.name ≠ e.name := by
  intro e he f hf hname
  have hknown := (h.fields f hf).1
  rw [hname, (h.extensions e he).1] at hknown
  cases hknown

/-- The entries of a written target, in their order. -/
theorem target_eq {t : Target} (h : t.Canonical) :
    target t =
      outputPart t.outputName ++ part "features" (stringList t.features) t.features.isEmpty ++
        keyed Setting.name setting (lastSettings t.fields ++ lastSettings t.extensions) := by
  have hfresh : ∀ s ∈ t.fields ++ t.extensions, Fresh s.name
      (outputPart t.outputName ++ part "features" (stringList t.features) t.features.isEmpty) := by
    intro s hs
    have hname := settingName_notMem h hs
    simp only [Target.reservedKeys, List.mem_cons, not_or] at hname
    exact fresh_append.mpr
      ⟨fresh_outputPart _ (Ne.symm hname.2.2.1), fresh_part (Ne.symm hname.1)⟩
  rw [target_output, withList_fresh t.features (fresh_outputPart _ (by decide)), withSettings,
    foldl_insert Setting.name setting _ hfresh, lastBy_append (fieldName_ne h)]
  rfl

theorem build_eq {b : Build} (h : b.Canonical) :
    build b =
      phase b.phase ++ keyed Target.name (fun t => .map (target t)) (lastBy Target.name b.targets) := by
  rw [build, foldl_insert Target.name (fun t => .map (target t))]
  intro t ht
  have hname := (h.targets t ht).name
  simp only [Build.reservedKeys, List.mem_cons, not_or] at hname
  exact fresh_phase b.phase (Ne.symm hname.1) (Ne.symm hname.2.1)

/-- The sections of a descriptor, without the empty ones. -/
def sections (d : Descriptor) : Tree.Entries :=
  [(.text "package", .map (package d.package))] ++
    part "options" (.map (phase d.options)) (phase d.options).isEmpty ++
    part "configure" (.map (configure d.configuration)) (configure d.configuration).isEmpty ++
    part "build" (.map (build d.build)) (build d.build).isEmpty

theorem descriptor_eq (d : Descriptor) : descriptor d = .map (sections d) := by
  simp (disch := simp) only [descriptor, sections, withMap_fresh]

end PackageScript.Normal
