import PackageScript.Proofs.Checked.Success
import PackageScript.Proofs.Reading.Origin
import PackageScript.Proofs.Reading.Statements
/-! What one entry of a section can do, and what all of its entries leave in a part of what is
read. -/
namespace PackageScript.Reading
open Yaml Checked

/-- An entry that all phases have is read into its part of the phase, and no other one is. -/
theorem phaseEntry_eq_ok {phase : Phase} {key sectionName : String} {value : Tree}
    {phase? : Option Phase} :
    (phaseEntry phase key sectionName value).outcome = .ok phase? ↔
      (key = "tools" ∧ ∃ tools, (strings (sectionName ++ ".tools") value).outcome = .ok tools ∧
        phase? = some { phase with tools }) ∨
      (key = "hwaf-call" ∧ ∃ hooks,
        (strings (sectionName ++ ".hwaf-call") value).outcome = .ok hooks ∧
          phase? = some { phase with hooks }) ∨
      (key ≠ "tools" ∧ key ≠ "hwaf-call") ∧ phase? = none := by
  unfold phaseEntry
  split
  · simp [outcome_bind, @eq_comm _ _ phase?]
  · simp [outcome_bind, @eq_comm _ _ phase?]
  · rename_i htools hcall
    have hother : key ≠ "tools" ∧ key ≠ "hwaf-call" := ⟨htools, hcall⟩
    simp [hother, @eq_comm _ _ phase?]

/-- An entry of the options changes the phase, or leaves it as it is. -/
theorem optionsEntry_eq_ok {p p' : Phase} {e : Tree × Tree} :
    (optionsEntry p e).outcome = .ok p' ↔ ∃ key phase?, e.1.string? = some key ∧
      (phaseEntry p key "options" e.2).outcome = .ok phase? ∧ p' = phase?.getD p := by
  simp only [optionsEntry, outcome_bind, keyText, outcome_ofOption]
  refine exists_congr fun key => ?_
  rw [← exists_and_left]
  refine exists_congr fun phase? => and_congr_right fun _ => and_congr_right fun _ => ?_
  cases phase? <;> simp [eq_comm, ignoringKey, warn]

/-- An entry of the dependencies sets the list of its name. -/
theorem dependencyEntry_eq_ok {lists lists' : DependencyEntries} {e : Tree × Tree} :
    (dependencyEntry lists e).outcome = .ok lists' ↔
      (e.1.string? = some "public" ∧ ∃ publicly,
        (strings "package.deps.public" e.2).outcome = .ok publicly ∧
          lists' = { lists with publicly }) ∨
      (e.1.string? = some "private" ∧ ∃ privately,
        (strings "package.deps.private" e.2).outcome = .ok privately ∧
          lists' = { lists with privately }) ∨
      e.1.string? = some "runtime" ∧ ∃ atRuntime,
        (strings "package.deps.runtime" e.2).outcome = .ok atRuntime ∧
          lists' = { lists with atRuntime } := by
  simp only [dependencyEntry, outcome_bind, keyText, outcome_ofOption]
  cases e.1.string? with
  | none => simp
  | some key =>
    simp only [Option.some.injEq, exists_eq_left']
    split
    · simp [outcome_bind, @eq_comm _ _ lists']
    · simp [outcome_bind, @eq_comm _ _ lists']
    · simp [outcome_bind, @eq_comm _ _ lists']
    · rename_i hpublic hprivate hruntime
      have hother : key ≠ "public" ∧ key ≠ "private" ∧ key ≠ "runtime" :=
        ⟨hpublic, hprivate, hruntime⟩
      simp [hother]

/-- An entry of the package section is read into its part of the package, and no other one is. -/
theorem packageEntry_eq_ok {p p' : Package} {e : Tree × Tree} :
    (packageEntry p e).outcome = .ok p' ↔ ∃ key, e.1.string? = some key ∧
      ((key = "authors" ∧ ∃ authors, (oneOrMore "package.authors" e.2).outcome = .ok authors ∧
          p' = { p with authors }) ∨
        (key = "managers" ∧ ∃ managers, (oneOrMore "package.managers" e.2).outcome = .ok managers ∧
          p' = { p with managers }) ∨
        (key = "version" ∧ ∃ version,
          (Reading.version "package.version" e.2).outcome = .ok version ∧
            p' = { p with version }) ∨
        (key = "deps" ∧ ∃ deps, (dependencies e.2).outcome = .ok deps ∧ p' = { p with deps }) ∨
        key ∉ ["authors", "managers", "version", "deps"] ∧ p' = p) := by
  simp only [packageEntry, outcome_bind, keyText, outcome_ofOption]
  refine exists_congr fun key => and_congr_right fun _ => ?_
  split
  · simp [@eq_comm _ _ p']
  · simp [outcome_bind, @eq_comm _ _ p']
  · simp [outcome_bind, @eq_comm _ _ p']
  · simp [outcome_bind, @eq_comm _ _ p']
  · simp [outcome_bind, @eq_comm _ _ p']
  · rename_i hname hauthors hmanagers hversion hdeps
    have hother : key ≠ "authors" ∧ key ≠ "managers" ∧ key ≠ "version" ∧ key ≠ "deps" :=
      ⟨hauthors, hmanagers, hversion, hdeps⟩
    simp [hother, ignoringKey, warn, @eq_comm _ _ p']

theorem package_eq_ok {t : Tree} {p : Package} :
    (package t).outcome = .ok p ↔ ∃ entries name, t.entries? = some entries ∧
      (packageName entries).outcome = .ok name ∧
        (entries.foldlM packageEntry { name := name }).outcome = .ok p := by
  simp only [package, outcome_bind, outcome_ofOption, exists_and_left]

theorem tagNames_append (before more : List Statement) :
    tagNames (before ++ more) = tagNames before ++ tagNames more :=
  List.filterMap_append

private theorem ok_eq_ok (before after : List Statement) :
    (ok before).outcome = .ok after ↔ ∃ more, (ok ([] : List Statement)).outcome = .ok more ∧
      after = before ++ more ∧ (tagNames before).Disjoint (tagNames more) := by
  simp only [outcome_ok, exists_eq_left', List.append_nil]
  exact ⟨fun h => ⟨h.symm, List.disjoint_nil_right _⟩, fun h => h.1.symm⟩

/-- Tags are declared after some statements like on their own, as long as none of them has been
declared there. -/
theorem tagDeclarations_eq_ok {before after : List Statement} {index : Nat} {items : List Tree} :
    (tagDeclarations before index items).outcome = .ok after ↔
      ∃ more, (tagDeclarations [] index items).outcome = .ok more ∧ after = before ++ more ∧
        (tagNames before).Disjoint (tagNames more) := by
  induction items generalizing before after index with
  | nil =>
    exact ok_eq_ok before after
  | cons item rest ih =>
    have hone : ∀ name content, tagNames [.declareTag name content] = [name] := fun _ _ => rfl
    simp only [tagDeclarations_step]
    constructor
    · rintro ⟨name, content, hitem, hnew, h⟩
      obtain ⟨more, hmore, rfl, hdisjoint⟩ := ih.mp h
      rw [tagNames_append, List.disjoint_append_left] at hdisjoint
      refine ⟨[Statement.declareTag name content] ++ more, ⟨name, content, hitem, List.not_mem_nil,
        ih.mpr ⟨more, hmore, rfl, hdisjoint.2⟩⟩, List.append_assoc .., ?_⟩
      rw [tagNames_append, List.disjoint_append_right, hone]
      exact ⟨List.disjoint_singleton.mpr hnew, hdisjoint.1⟩
    · rintro ⟨_, ⟨name, content, hitem, -, h⟩, rfl, hdisjoint⟩
      obtain ⟨more, hmore, rfl, hown⟩ := ih.mp h
      rw [tagNames_append, List.disjoint_append_right, List.nil_append, hone] at hdisjoint
      refine ⟨name, content, hitem, List.disjoint_singleton.mp hdisjoint.1,
        ih.mpr ⟨more, hmore, (List.append_assoc ..).symm, ?_⟩⟩
      rw [tagNames_append, List.disjoint_append_left]
      exact ⟨hdisjoint.2, hown⟩

def statementsAfter (before : List Statement) (key : String) (value : Tree) :
    Checked (List Statement) :=
  match key with
  | "env" => do return before ++ (← env value)
  | "declare-tags" => declareTags before value
  | "apply-tags" => do
    return before ++ (← oneOrMore "configure.apply-tags" value).map .applyTag
  | "statements" => do return before ++ (← changes value)
  | _ => .ok before

private theorem append_eq_ok {α : Type} {x : Checked α} {f : α → List Statement}
    {before after : List Statement} (hx : ∀ a, x.outcome = .ok a → tagNames (f a) = []) :
    (do return before ++ f (← x) : Checked (List Statement)).outcome = .ok after ↔
      ∃ more, (do return [] ++ f (← x) : Checked (List Statement)).outcome = .ok more ∧
        after = before ++ more ∧ (tagNames before).Disjoint (tagNames more) := by
  simp only [outcome_bind, pure_def, Except.ok.injEq, List.nil_append]
  constructor
  · rintro ⟨a, ha, rfl⟩
    exact ⟨f a, ⟨a, ha, rfl⟩, rfl, hx a ha ▸ List.disjoint_nil_right _⟩
  · rintro ⟨_, ⟨a, ha, rfl⟩, rfl, -⟩
    exact ⟨a, ha, rfl⟩

/-- An entry adds the same statements whatever came before, as long as it declares no tag again. -/
theorem statementsAfter_eq_ok {before after : List Statement} {key : String} {value : Tree} :
    (statementsAfter before key value).outcome = .ok after ↔
      ∃ more, (statementsAfter [] key value).outcome = .ok more ∧ after = before ++ more ∧
        (tagNames before).Disjoint (tagNames more) := by
  have hquiet : ∀ more : List Statement, (∀ s ∈ more, s.declaredTag? = none) → tagNames more = [] :=
    fun more hmore => List.filterMap_eq_nil_iff.mpr hmore
  unfold statementsAfter
  split
  · refine append_eq_ok (f := id) fun more hmore => hquiet more fun s hs => ?_
    obtain ⟨how, name, strings, rfl⟩ := change_of_mem_env hmore s hs
    rfl
  · cases value with
    | null => exact ok_eq_ok before after
    | list items => exact tagDeclarations_eq_ok
    | _ => simp [declareTags]
  · exact append_eq_ok fun names _ => hquiet _ (List.forall_mem_map.mpr fun _ _ => rfl)
  · refine append_eq_ok (f := id) fun more hmore => hquiet more fun s hs => ?_
    obtain ⟨how, setting, rfl, -⟩ := change_of_mem_changes hmore s hs
    rfl
  · exact ok_eq_ok before after

/-- An entry of the configure section belongs to the phase or adds statements. -/
theorem configureEntry_eq_ok {c c' : Configuration} {e : Tree × Tree} :
    (configureEntry c e).outcome = .ok c' ↔ ∃ key phase?, e.1.string? = some key ∧
      (phaseEntry c.phase key "configure" e.2).outcome = .ok phase? ∧
      ((∃ phase, phase? = some phase ∧ c' = { c with phase }) ∨
        phase? = none ∧ ∃ statements,
          (statementsAfter c.statements key e.2).outcome = .ok statements ∧
            c' = { c with statements }) := by
  simp only [configureEntry, outcome_bind, keyText, outcome_ofOption]
  refine exists_congr fun key => ?_
  rw [← exists_and_left]
  refine exists_congr fun phase? => and_congr_right fun _ => and_congr_right fun _ => ?_
  cases phase? with
  | some phase => simp [eq_comm]
  | none =>
    simp only [statementsAfter, reduceCtorEq, false_and, exists_false, false_or, true_and]
    split
    · simp [outcome_bind, @eq_comm _ _ c']
    · simp [outcome_bind, @eq_comm _ _ c']
    · simp [outcome_bind, @eq_comm _ _ c']
    · simp [outcome_bind, @eq_comm _ _ c']
    · simp [ignoringKey, warn, @eq_comm _ _ c']

/-- An entry of the build section belongs to the phase, is ignored, or adds the target that is read
from it, which must not build what another one does. -/
theorem buildEntry_eq_ok {b b' : Build} {e : Tree × Tree} :
    (buildEntry b e).outcome = .ok b' ↔ ∃ key phase?, e.1.string? = some key ∧
      (phaseEntry b.phase key "build" e.2).outcome = .ok phase? ∧
      ((∃ phase, phase? = some phase ∧ b' = { b with phase }) ∨
        phase? = none ∧ key = "env" ∧ b' = b ∨
        phase? = none ∧ key ≠ "env" ∧ ∃ fields t, e.2.entries? = some fields ∧
          (target key fields).outcome = .ok t ∧ t.output ∉ b.targets.map Target.output ∧
          b' = { b with targets := b.targets ++ [t] }) := by
  simp only [buildEntry, outcome_bind, keyText, outcome_ofOption]
  refine exists_congr fun key => ?_
  rw [← exists_and_left]
  refine exists_congr fun phase? => and_congr_right fun _ => and_congr_right fun _ => ?_
  cases phase? with
  | some phase => simp [eq_comm]
  | none =>
    by_cases henv : key = "env"
    · simp [henv, warn, eq_comm]
    · simp [henv, outcome_bind, addTarget_eq_ok]

/-- A descriptor is read from the entries of its tree, section by section. -/
theorem descriptor_eq_ok {t : Tree} {d : Descriptor} :
    (descriptor t).outcome = .ok d ↔ ∃ root part, t.entries? = some root ∧
      (checkSectionNames root).outcome = .ok () ∧ Tree.lookup? "package" root = some part ∧
      (package part).outcome = .ok d.package ∧
      (readSection root "options" {} options).outcome = .ok d.options ∧
      (readSection root "configure" {} configure).outcome = .ok d.configuration ∧
      (readSection root "build" {} build).outcome = .ok d.build := by
  simp only [descriptor, outcome_bind, outcome_ofOption]
  constructor
  · rintro ⟨root, hroot, _, hnames, part, hpart, p, hp, o, ho, c, hc, b, hb, h⟩
    cases h
    exact ⟨root, part, hroot, hnames, hpart, hp, ho, hc, hb⟩
  · rintro ⟨root, part, hroot, hnames, hpart, hp, ho, hc, hb⟩
    exact ⟨root, hroot, (), hnames, part, hpart, _, hp, _, ho, _, hc, _, hb, rfl⟩

private theorem read_sectionEntries {α : Type} {t : Tree} {root : Tree.Entries} {name : String}
    {default a : α} {read : Tree.Entries → Checked α} (hroot : t.entries? = some root)
    (hread : (read []).outcome = .ok default)
    (h : (readSection root name default read).outcome = .ok a) :
    (read (sectionEntries name t)).outcome = .ok a := by
  rw [sectionEntries, hroot, Option.getD_some]
  rw [readSection] at h
  split at h
  · rename_i hlookup
    rw [hlookup, hread, outcome_ok.mp h]
  · rename_i hlookup
    rw [hlookup, ← outcome_ok.mp h]
    exact hread
  · rename_i entries hlookup
    rw [hlookup]
    exact h
  · simp at h

section Sections

variable {t : Tree} {d : Descriptor} (h : (descriptor t).outcome = .ok d)
include h

/-- The options of a descriptor are read from the entries of their section. -/
theorem options_sectionEntries :
    (options (sectionEntries "options" t)).outcome = .ok d.options := by
  obtain ⟨root, part, hroot, -, -, -, ho, -, -⟩ := descriptor_eq_ok.mp h
  exact read_sectionEntries hroot rfl ho

/-- The configuration of a descriptor is read from the entries of its section. -/
theorem configure_sectionEntries :
    (configure (sectionEntries "configure" t)).outcome = .ok d.configuration := by
  obtain ⟨root, part, hroot, -, -, -, -, hc, -⟩ := descriptor_eq_ok.mp h
  exact read_sectionEntries hroot rfl hc

/-- The build of a descriptor is read from the entries of its section. -/
theorem build_sectionEntries : (build (sectionEntries "build" t)).outcome = .ok d.build := by
  obtain ⟨root, part, hroot, -, -, -, -, -, hb⟩ := descriptor_eq_ok.mp h
  exact read_sectionEntries hroot rfl hb

end Sections

end PackageScript.Reading
