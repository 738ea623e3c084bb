import Mathlib.Data.List.Perm.Basic
import PackageScript.Proofs.Normal.Written
import PackageScript.Proofs.Reading.Entries
import PackageScript.Proofs.Reading.WellFormed
import PackageScript.Proofs.Script.Meaning
/-! The names of targets and of their settings: they differ exactly if the keys that they come from
do, and only then does each of them keep a place of its own in what is written. -/
namespace PackageScript

/-- Targets of different names, each with settings of different names. -/
def Build.NamesDiffer (b : Build) : Prop :=
  (b.targets.map Target.name).Nodup ∧
    ∀ t ∈ b.targets, ((t.fields ++ t.extensions).map Setting.name).Nodup

def Script.Call.keywords (c : Script.Call) : List String :=
  (c.arguments.filterMap Script.Argument.passed?).map Prod.fst

namespace Reading
open Yaml Checked

def entriesBeyond (reserved : List String) (entries : Tree.Entries) : Tree.Entries :=
  entries.filter fun e => !e.1.string?.any (· ∈ reserved)

/-- Whether no two targets, and no two settings of one target, come from keys of the same text. The
tags of a key are no part of its text. -/
def KeysDiffer (t : Tree) : Prop :=
  let targets := entriesBeyond Build.reservedKeys (sectionEntries "build" t)
  (Tree.names targets).Nodup ∧
    ∀ e ∈ targets, (Tree.names (entriesBeyond Target.reservedKeys (e.2.entries?.getD []))).Nodup

/-- A target that is read from an entry of the build section. -/
def ComesFrom (e : Tree × Tree) (t : Target) : Prop :=
  ∃ key fields, e.1.string? = some key ∧ key ∉ Build.reservedKeys ∧ e.2.entries? = some fields ∧
    (target key fields).outcome = .ok t

private theorem entriesBeyond_cons (reserved : List String) (e : Tree × Tree)
    (rest : Tree.Entries) :
    entriesBeyond reserved (e :: rest) =
      if e.1.string?.any (· ∈ reserved) then entriesBeyond reserved rest
      else e :: entriesBeyond reserved rest := by
  cases h : e.1.string?.any (· ∈ reserved) <;> simp [entriesBeyond, h]

private theorem comesFrom_buildEntry {b b' : Build} {e : Tree × Tree}
    (h : (buildEntry b e).outcome = .ok b') :
    (e.1.string?.any (· ∈ Build.reservedKeys) = true ∧ b'.targets = b.targets) ∨
      e.1.string?.any (· ∈ Build.reservedKeys) = false ∧
        ∃ t, ComesFrom e t ∧ b'.targets = b.targets ++ [t] := by
  obtain ⟨key, phase?, hkey, hphase, hcases⟩ := buildEntry_eq_ok.mp h
  rw [hkey, Option.any_some]
  rcases hcases with ⟨phase, rfl, rfl⟩ | ⟨-, rfl, rfl⟩ | ⟨rfl, henv, fields, t, hfields, ht, -, rfl⟩
  · refine Or.inl ⟨?_, rfl⟩
    rcases phaseEntry_eq_some hphase with rfl | rfl <;> decide
  · exact Or.inl ⟨by decide, rfl⟩
  · obtain ⟨htools, hcall⟩ := phaseEntry_eq_none hphase
    have hnew : key ∉ Build.reservedKeys := by
      simpa [Build.reservedKeys] using ⟨htools, hcall, henv⟩
    exact Or.inr ⟨by simpa using hnew, t, ⟨key, fields, hkey, hnew, hfields, ht⟩, rfl⟩

private theorem comesFrom_foldlM {entries : Tree.Entries} {b b' : Build}
    (h : (entries.foldlM buildEntry b).outcome = .ok b') : ∃ more, b'.targets = b.targets ++ more ∧
      List.Forall₂ ComesFrom (entriesBeyond Build.reservedKeys entries) more := by
  induction entries generalizing b with
  | nil =>
    cases outcome_ok.mp h
    exact ⟨[], (List.append_nil _).symm, .nil⟩
  | cons e rest ih =>
    rw [List.foldlM_cons, outcome_bind] at h
    obtain ⟨middle, hfirst, hrest⟩ := h
    obtain ⟨more, hmore, hall⟩ := ih hrest
    rw [entriesBeyond_cons]
    rcases comesFrom_buildEntry hfirst with ⟨hkey, hsame⟩ | ⟨hkey, t, ht, hadd⟩
    · rw [if_pos hkey]
      exact ⟨more, by rw [hmore, hsame], hall⟩
    · rw [if_neg (by simp [hkey])]
      exact ⟨t :: more, by rw [hmore, hadd, List.append_assoc]; rfl, .cons ht hall⟩

/-- The targets of a build are read one by one from the entries that are not reserved. -/
theorem comesFrom_build {entries : Tree.Entries} {b : Build} (h : (build entries).outcome = .ok b) :
    List.Forall₂ ComesFrom (entriesBeyond Build.reservedKeys entries) b.targets := by
  obtain ⟨more, hmore, hall⟩ := comesFrom_foldlM h
  rwa [hmore]

private def settingNames (t : Target) : List String :=
  (t.fields ++ t.extensions).map Setting.name

private theorem settingNames_targetField {t t' : Target} {e : Tree × Tree}
    (h : (targetField t e).outcome = .ok t') :
    (settingNames t').Perm
      (settingNames t ++ Tree.names (entriesBeyond Target.reservedKeys [e])) := by
  obtain ⟨field, hfield, h⟩ := outcome_bind.mp h
  have hfield := outcome_ofOption.mp hfield
  have hreserved : field ∈ Target.reservedKeys → settingNames t' = settingNames t →
      (settingNames t').Perm
        (settingNames t ++ Tree.names (entriesBeyond Target.reservedKeys [e])) := by
    intro hmem hsame
    have hnone : entriesBeyond Target.reservedKeys [e] = [] := by
      rw [entriesBeyond_cons, if_pos (by simpa [hfield] using hmem)]
      rfl
    rw [hnone, hsame]
    exact List.Perm.of_eq (List.append_nil _).symm
  simp only at h
  split at h
  · obtain ⟨texts, -, h⟩ := outcome_bind.mp h
    cases h
    exact hreserved (by decide) rfl
  · obtain ⟨name, -, h⟩ := outcome_bind.mp h
    split at h
    · cases h
      exact hreserved (by decide) rfl
    · simp at h
  · obtain ⟨output, -, h⟩ := outcome_bind.mp h
    cases h
    exact hreserved (by decide) rfl
  · rename_i hfeatures hname htarget
    obtain ⟨s, hs, h⟩ := outcome_bind.mp h
    have hnew : field ∉ Target.reservedKeys := by
      simpa [Target.reservedKeys] using ⟨hfeatures, hname, htarget⟩
    have hone : Tree.names (entriesBeyond Target.reservedKeys [e]) = [s.name] := by
      rw [entriesBeyond_cons, if_neg (by simpa [hfield] using hnew), Tree.names_cons, hfield,
        (canonical_setting hs).1]
      rfl
    rw [hone]
    split at h <;> cases h
    · simp only [settingNames, List.map_append, List.map_singleton, List.append_assoc]
      exact List.perm_append_comm.append_left _
    · simp [settingNames]

private theorem settingNames_foldlM {fields : Tree.Entries} {t t' : Target}
    (h : (fields.foldlM targetField t).outcome = .ok t') : (settingNames t').Perm
      (settingNames t ++ Tree.names (entriesBeyond Target.reservedKeys fields)) := by
  induction fields generalizing t with
  | nil =>
    cases outcome_ok.mp h
    exact List.Perm.of_eq (List.append_nil _).symm
  | cons e rest ih =>
    rw [List.foldlM_cons, outcome_bind] at h
    obtain ⟨middle, hfirst, hrest⟩ := h
    have hmore := (ih hrest).trans ((settingNames_targetField hfirst).append_right _)
    have happend : entriesBeyond Target.reservedKeys (e :: rest) =
        entriesBeyond Target.reservedKeys [e] ++ entriesBeyond Target.reservedKeys rest :=
      List.filter_append [e] rest
    rwa [happend, Tree.names, List.filterMap_append, ← List.append_assoc]

private theorem settingNames_target {key : String} {fields : Tree.Entries} {t : Target}
    (h : (target key fields).outcome = .ok t) :
    (settingNames t).Perm (Tree.names (entriesBeyond Target.reservedKeys fields)) :=
  settingNames_foldlM (t := { name := key }) h

private theorem names_of_comesFrom {es : Tree.Entries} {ts : List Target}
    (h : List.Forall₂ ComesFrom es ts) : ts.map Target.name = Tree.names es := by
  induction h with
  | nil => rfl
  | cons he _ ih =>
    obtain ⟨key, fields, hkey, hnew, -, ht⟩ := he
    rw [List.map_cons, Tree.names_cons, hkey, ih, (canonical_target hnew ht).1]
    rfl

private theorem nodup_of_comesFrom {e : Tree × Tree} {t : Target} (h : ComesFrom e t) :
    ((t.fields ++ t.extensions).map Setting.name).Nodup ↔
      (Tree.names (entriesBeyond Target.reservedKeys (e.2.entries?.getD []))).Nodup := by
  obtain ⟨key, fields, -, -, hfields, ht⟩ := h
  rw [hfields, Option.getD_some]
  exact (settingNames_target ht).nodup_iff

private theorem namesDiffer_iff {t : Tree} {d : Descriptor} (h : (descriptor t).outcome = .ok d) :
    d.build.NamesDiffer ↔ KeysDiffer t := by
  have hall := comesFrom_build (build_sectionEntries h)
  rw [Build.NamesDiffer, KeysDiffer, names_of_comesFrom hall]
  refine and_congr_right fun _ => ?_
  generalize entriesBeyond Build.reservedKeys (sectionEntries "build" t) = es at hall ⊢
  generalize d.build.targets = targets at hall ⊢
  induction hall with
  | nil => simp
  | cons he _ ih => rw [List.forall_mem_cons, List.forall_mem_cons, ih, nodup_of_comesFrom he]

end Reading

namespace Normal
open Yaml

private theorem keyed_lastBy_iff {α : Type} (key : α → String) (value : α → Tree) (xs : List α) :
    keyed key value (lastBy key xs) = keyed key value xs ↔ (xs.map key).Nodup := by
  refine ⟨fun h => ?_, fun h => by rw [lastBy_of_nodup h]⟩
  have hnames : ∀ xs : List α, Tree.names (keyed key value xs) = xs.map key := by
    intro xs
    rw [Tree.names, keyed, List.filterMap_map]
    exact List.filterMap_eq_map ▸ rfl
  rw [← hnames, ← h, hnames]
  exact nodup_lastBy xs

private theorem build_keeps_iff {b : Build} (h : b.Canonical) :
    build b = phase b.phase ++ keyed Target.name (fun t => .map (target t)) b.targets ↔
      (b.targets.map Target.name).Nodup := by
  rw [build_eq h, List.append_right_inj, keyed_lastBy_iff]

private theorem target_keeps_iff {t : Target} (h : t.Canonical) :
    target t =
        outputPart t.outputName ++ part "features" (stringList t.features) t.features.isEmpty ++
          keyed Setting.name setting (t.fields ++ t.extensions) ↔
      ((t.fields ++ t.extensions).map Setting.name).Nodup := by
  rw [target_eq h, List.append_right_inj, lastSettings, lastSettings,
    ← lastBy_append (fieldName_ne h), keyed_lastBy_iff]

end Normal

private theorem Script.nodup_keywords_iff {t : Target} (h : t.Canonical) :
    (Script.targetCall t).keywords.Nodup ↔
      ((t.fields ++ t.extensions).map Setting.name).Nodup := by
  have hsetting : (fun a : Script.Argument => a.passed?.map Prod.fst) ∘ Script.settingArgument =
      fun s => some s.name := by
    funext s
    rw [Function.comp_apply, Script.settingArgument]
    split <;> rfl
  have hkeywords : (Script.targetCall t).keywords =
      ["name", "target", "features"] ++ (t.fields ++ t.extensions).map Setting.name := by
    rw [Script.Call.keywords, List.map_filterMap, Script.targetCall, List.filterMap_append,
      List.filterMap_map, hsetting, List.filterMap_eq_map']
    rfl
  have hreserved : ∀ key ∈ ["name", "target", "features"], key ∈ Target.reservedKeys := by decide
  rw [hkeywords, List.nodup_append, and_iff_right (by decide), and_iff_left]
  intro key hkey name hname heq
  obtain ⟨s, hs, rfl⟩ := List.mem_map.mp hname
  exact Normal.settingName_notMem h hs (heq ▸ hreserved key hkey)

/-- In a descriptor that is read from a tree all names differ exactly if the keys that they come
from do, as they do in a tree without tagged keys. Where they differ, and only there, no target and
no setting takes the place of another one in the normal form, and no argument of a target's call is
passed twice. -/
theorem Reading.names_kept_iff {t : Yaml.Tree} {d : Descriptor}
    (h : (Reading.descriptor t).outcome = .ok d) :
    (d.build.NamesDiffer ↔ Reading.KeysDiffer t) ∧
      (t.EveryMap Yaml.Tree.DistinctKeys → t.EveryMap Yaml.Tree.UntaggedKeys →
        d.build.NamesDiffer) ∧
      (Normal.build d.build =
          Normal.phase d.build.phase ++
            Normal.keyed Target.name (fun u => .map (Normal.target u)) d.build.targets ↔
        (d.build.targets.map Target.name).Nodup) ∧
      ∀ u ∈ d.build.targets,
        (Normal.target u =
            Normal.outputPart u.outputName ++
              Normal.part "features" (Normal.stringList u.features) u.features.isEmpty ++
              Normal.keyed Setting.name Normal.setting (u.fields ++ u.extensions) ↔
          ((u.fields ++ u.extensions).map Setting.name).Nodup) ∧
        ((Script.targetCall u).keywords.Nodup ↔
          ((u.fields ++ u.extensions).map Setting.name).Nodup) := by
  have hbuild := (Reading.canonical_descriptor h).build
  refine ⟨Reading.namesDiffer_iff h, fun hd hu => ?_, Normal.build_keeps_iff hbuild, fun u hu =>
    ⟨Normal.target_keeps_iff (hbuild.targets u hu),
      Script.nodup_keywords_iff (hbuild.targets u hu)⟩⟩
  obtain ⟨hnames, htargets⟩ := Reading.distinct_descriptor hd hu h
  refine ⟨hnames, fun u hu => ?_⟩
  rw [List.map_append]
  refine List.nodup_append.mpr ⟨(htargets u hu).fields, (htargets u hu).extensions, ?_⟩
  rintro name hfield other hextension rfl
  obtain ⟨s, hs, rfl⟩ := List.mem_map.mp hfield
  obtain ⟨e, he, hse⟩ := List.mem_map.mp hextension
  exact Normal.fieldName_ne (hbuild.targets u hu) e he s hs hse.symm

/-- Without tagged keys all names of that library differ, and so do the keywords of its calls. -/
theorem Reading.names_kept_iff_library :
    libraryDescriptor.build.NamesDiffer ∧ Reading.KeysDiffer libraryTree ∧
      ∀ u ∈ libraryDescriptor.build.targets, (Script.targetCall u).keywords.Nodup := by
  have hdistinct : libraryTree.EveryMap Yaml.Tree.DistinctKeys := by
    simp [libraryTree, Yaml.Tree.DistinctKeys, Yaml.Tree.same, Yaml.Tree.EveryMap.bool]
  have huntagged : libraryTree.EveryMap Yaml.Tree.UntaggedKeys := by
    simp [libraryTree, Yaml.Tree.UntaggedKeys, Yaml.Tree.EveryMap.bool]
  have hread : (Reading.descriptor libraryTree).outcome = .ok libraryDescriptor := rfl
  obtain ⟨hiff, hdiffer, -, htargets⟩ := Reading.names_kept_iff hread
  have hnames := hdiffer hdistinct huntagged
  exact ⟨hnames, hiff.mp hnames, fun u hu => (htargets u hu).2.mpr (hnames.2 u hu)⟩

/-- A tree in which a key and the same key with a tag name a target, and a field of it. -/
def doublyNamedTree : Yaml.Tree :=
  .map [(.text "package", .map [(.text "name", .text "p")]),
    (.text "build", .map
      [(.text "t", .map [(.text "source", .text "a.c"),
          (.tagged "!x" (.text "source"), .text "b.c")]),
        (.tagged "!x" (.text "t"), .map [(.text "target", .text "u")])])]

def doublyNamedDescriptor : Descriptor where
  package := { name := "p" }
  build :=
    { targets :=
        [{ name := "t", fields := [.plain "source" ["a.c"], .plain "source" ["b.c"]] },
          { name := "t", outputName := some "u" }] }

/-- The second target takes the place of the first one, whose call passes an argument twice. -/
theorem Reading.names_not_kept :
    doublyNamedTree.EveryMap Yaml.Tree.DistinctKeys ∧
      (Reading.descriptor doublyNamedTree).outcome = .ok doublyNamedDescriptor ∧
      ¬ (doublyNamedDescriptor.build.targets.map Target.name).Nodup ∧
      (∃ u ∈ doublyNamedDescriptor.build.targets,
        ¬ ((u.fields ++ u.extensions).map Setting.name).Nodup ∧
          ¬ (Script.targetCall u).keywords.Nodup) ∧
      Normal.build doublyNamedDescriptor.build =
        [(.text "t", .map [(.text "target", .text "u")])] := by
  have hdistinct : doublyNamedTree.EveryMap Yaml.Tree.DistinctKeys := by
    simp [doublyNamedTree, Yaml.Tree.DistinctKeys, Yaml.Tree.same, Yaml.Tree.EveryMap.tagged]
  refine ⟨hdistinct, rfl, by decide, ⟨_, List.mem_cons_self, by decide, by decide⟩, rfl⟩

end PackageScript
