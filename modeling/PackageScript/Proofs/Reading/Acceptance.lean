import PackageScript.Proofs.Reading.Sections
/-! A tree without tags is read exactly if it keeps to the grammar. -/
namespace PackageScript.Reading
open Yaml Checked Grammar

section Package

variable {t : Tree}

private theorem succeeds_dependencyEntry (lists : DependencyEntries) {e : Tree × Tree}
    (he : e.1.Untagged) : (dependencyEntry lists e).Succeeds ↔ ∃ key, e.1 = .text key ∧
      key ∈ ["public", "private", "runtime"] ∧ OptionalList IsScalar e.2 := by
  refine succeeds_keyText he fun key _ => ?_
  simp only
  split
  · rw [succeeds_bind_of_forall (by simp), succeeds_strings]
    simp
  · rw [succeeds_bind_of_forall (by simp), succeeds_strings]
    simp
  · rw [succeeds_bind_of_forall (by simp), succeeds_strings]
    simp
  · rename_i hpublic hprivate hruntime
    refine iff_of_false (not_succeeds_fail _) fun ⟨hkey, _⟩ => ?_
    simp only [List.mem_cons, List.not_mem_nil, or_false] at hkey
    exact hkey.elim hpublic fun hkey => hkey.elim hprivate hruntime

private theorem succeeds_dependencies (ht : t.Untagged) : (dependencies t).Succeeds ↔
    OptionalMap (Keyed fun list entries =>
      list ∈ ["public", "private", "runtime"] ∧ OptionalList IsScalar entries) t := by
  cases ht with
  | map hkeys _ =>
    rw [dependencies, succeeds_bind_of_forall (by simp)]
    refine succeeds_foldlM (I := fun _ => True) (fun lists e he _ => ?_)
      (fun _ _ _ _ _ _ => trivial) trivial
    exact succeeds_dependencyEntry lists (hkeys e he)
  | _ => simp [dependencies, OptionalMap]

private theorem succeeds_packageEntry (p : Package) {e : Tree × Tree} (hkey : e.1.Untagged)
    (hvalue : e.2.Untagged) :
    (packageEntry p e).Succeeds ↔ ∃ key, e.1 = .text key ∧ PackageEntry key e.2 := by
  refine succeeds_keyText hkey fun key _ => ?_
  simp only
  split
  · simpa using ⟨by simp, by simp, by simp, by simp⟩
  · rw [succeeds_bind_of_forall (by simp), succeeds_oneOrMore]
    exact ⟨fun h => ⟨fun _ => h, by simp, by simp, by simp⟩, fun h => h.authors rfl⟩
  · rw [succeeds_bind_of_forall (by simp), succeeds_oneOrMore]
    exact ⟨fun h => ⟨by simp, fun _ => h, by simp, by simp⟩, fun h => h.managers rfl⟩
  · rw [succeeds_bind_of_forall (by simp), succeeds_version]
    exact ⟨fun h => ⟨by simp, by simp, fun _ => h, by simp⟩, fun h => h.version rfl⟩
  · rw [succeeds_bind_of_forall (by simp), succeeds_dependencies hvalue]
    exact ⟨fun h => ⟨by simp, by simp, by simp, fun _ => h⟩, fun h => h.deps rfl⟩
  · rename_i hname hauthors hmanagers hversion hdeps
    exact iff_of_true ((succeeds_bind_of_forall (by simp)).mpr (succeeds_warn _))
      ⟨(hauthors · |>.elim), (hmanagers · |>.elim), (hversion · |>.elim), (hdeps · |>.elim)⟩

private theorem succeeds_packageName {entries : Tree.Entries} :
    (packageName entries).Succeeds ↔
      ∃ name, Tree.lookup? "name" entries = some (.text name) ∧
        ∃ c ∈ name.toList, Text.isBlank c = false := by
  rw [packageName]
  split
  · rename_i h
    simp [h]
  · rename_i h
    simp [h]
  · rename_i name h
    split
    · rename_i hempty
      have hall := Text.isEmpty_trim_iff.mp hempty
      refine iff_of_false (not_succeeds_fail _) ?_
      rintro ⟨other, hother, c, hc, hvisible⟩
      obtain rfl : name = other := by simpa [h] using hother
      simp [hall c hc] at hvisible
    · rename_i hvisible
      rw [Text.isEmpty_trim_iff] at hvisible
      exact iff_of_true (succeeds_ok _) ⟨name, h, by simpa using hvisible⟩
  · rename_i t hnull htext h
    refine iff_of_false (not_succeeds_fail _) ?_
    rintro ⟨name, hname, -⟩
    rw [h] at hname
    cases hname
    exact htext name rfl

private theorem succeeds_package (ht : t.Untagged) : (package t).Succeeds ↔ PackageSection t := by
  rw [package, succeeds_bind]
  simp only [outcome_ofOption, ht.entries?_eq_some]
  refine exists_congr fun entries => and_congr_right fun heq => ?_
  subst heq
  rw [Tree.untagged_map] at ht
  have hentries : ∀ p : PackageScript.Package,
      (entries.foldlM packageEntry p).Succeeds ↔ Keyed PackageEntry entries := by
    refine fun p => succeeds_foldlM (I := fun _ => True) (fun p e he _ => ?_)
      (fun _ _ _ _ _ _ => trivial) trivial
    exact succeeds_packageEntry p (ht e he).1 (ht e he).2
  rw [succeeds_bind, ← succeeds_packageName]
  simp only [hentries, exists_and_right]
  exact and_comm

end Package

section Build

variable {t : Tree}

private theorem succeeds_stringField {path : String} (ht : t.Untagged) :
    (stringField path t).Succeeds ↔ ∃ text, t = .text text := by
  rw [stringField, succeeds_ofOption]
  simp only [ht.string?_eq_some]

private theorem succeeds_targetField (target : PackageScript.Target) {e : Tree × Tree}
    (hkey : e.1.Untagged) (hvalue : e.2.Untagged) :
    (targetField target e).Succeeds ↔
      ∃ key, e.1 = .text key ∧ TargetEntry target.name key e.2 := by
  rw [targetField, succeeds_bind]
  simp only [outcome_ofOption, hkey.string?_eq_some]
  refine exists_congr fun key => and_congr_right fun _ => ?_
  split
  · rw [succeeds_bind_of_forall (by simp), succeeds_leaves]
    exact ⟨fun h => ⟨fun _ => h, by simp, by simp, by simp [Target.reservedKeys]⟩,
      fun h => h.features rfl⟩
  · have hname : (stringField ("build." ++ target.name ++ "." ++ "name") e.2 >>= fun name =>
        if name = target.name then pure target
        else fail (.contradiction ("target declared under 'build." ++ target.name ++
          "' names itself '" ++ name ++ "'"))).Succeeds ↔ e.2 = .text target.name := by
      rw [succeeds_bind]
      simp only [stringField, outcome_ofOption, hvalue.string?_eq_some]
      constructor
      · rintro ⟨name, hname, h⟩
        split at h
        · rename_i hsame
          rw [hname, hsame]
        · exact absurd h (not_succeeds_fail _)
      · intro hname
        exact ⟨target.name, hname, by simp⟩
    refine hname.trans ⟨fun h => ⟨by simp, fun _ => h, by simp, by simp [Target.reservedKeys]⟩,
      fun h => h.name rfl⟩
  · rw [succeeds_bind_of_forall (by simp), succeeds_stringField hvalue]
    exact ⟨fun h => ⟨by simp, by simp, fun _ => h, by simp [Target.reservedKeys]⟩,
      fun h => h.output rfl⟩
  · rename_i hfeatures hname htarget
    have hsetting : key ∉ Target.reservedKeys := by
      simpa [Target.reservedKeys] using ⟨hfeatures, hname, htarget⟩
    rw [succeeds_bind_of_forall fun value => ?_, succeeds_setting]
    · exact ⟨fun h => ⟨(absurd · hfeatures), (absurd · hname), (absurd · htarget), fun _ => h⟩,
        fun h => h.settings hsetting⟩
    · split <;> simp

private theorem targetField_output {target target' : PackageScript.Target} {e : Tree × Tree}
    (h : (targetField target e).outcome = .ok target') :
    target'.name = target.name ∧
      target'.outputName = (entryOutput? e).or target.outputName := by
  obtain ⟨key, he, h⟩ := outcome_bind.mp h
  rw [outcome_ofOption] at he
  have hother : key ≠ "target" → (entryOutput? e).or target.outputName = target.outputName :=
    fun hne => by rw [entryOutput?, he, if_neg (by simpa using hne), Option.none_or]
  simp only at h
  split at h
  · obtain ⟨texts, -, h⟩ := outcome_bind.mp h
    cases h
    exact ⟨rfl, (hother (by simp)).symm⟩
  · obtain ⟨name, -, h⟩ := outcome_bind.mp h
    split at h
    · cases h
      exact ⟨rfl, (hother (by simp)).symm⟩
    · simp at h
  · obtain ⟨output, houtput, h⟩ := outcome_bind.mp h
    cases h
    rw [stringField, outcome_ofOption] at houtput
    exact ⟨rfl, by rw [entryOutput?, he, if_pos rfl, houtput, Option.some_or]⟩
  · rename_i htarget
    obtain ⟨value, -, h⟩ := outcome_bind.mp h
    split at h <;>
    · cases h
      exact ⟨rfl, (hother htarget).symm⟩

private theorem foldlM_targetField_output {fields : Tree.Entries}
    {target target' : PackageScript.Target}
    (h : (fields.foldlM targetField target).outcome = .ok target') :
    target'.name = target.name ∧ target'.outputName =
      ((fields.filterMap entryOutput?).getLast?).or target.outputName := by
  induction fields generalizing target with
  | nil =>
    have hsame : target = target' := by simpa using h
    exact ⟨congrArg _ hsame.symm, by simp [hsame]⟩
  | cons e rest ih =>
    rw [List.foldlM_cons, outcome_bind] at h
    obtain ⟨middle, hfirst, hmore⟩ := h
    obtain ⟨hname, houtput⟩ := targetField_output hfirst
    obtain ⟨hname', houtput'⟩ := ih hmore
    refine ⟨hname'.trans hname, ?_⟩
    rw [houtput', houtput, List.filterMap_cons]
    cases entryOutput? e with
    | none => rfl
    | some output => simp [List.getLast?_cons]

private theorem output_target {e : Tree × Tree} {key : String} {fields : Tree.Entries}
    {t : PackageScript.Target} (hkey : e.1 = .text key) (hnew : key ∉ Build.reservedKeys)
    (hfields : e.2 = .map fields) (h : (target key fields).outcome = .ok t) :
    targetOutput? e = some t.output := by
  obtain ⟨hname, houtput⟩ := foldlM_targetField_output h
  simp only [Option.or_none] at houtput
  rw [targetOutput?, hkey, hfields, PackageScript.Target.output, houtput, hname]
  simp only [Tree.string?_text, if_neg hnew, Tree.entries?_map, Option.getD_some]

/-- A target is read exactly if its fields keep to the grammar. -/
theorem succeeds_target {key : String} {fields : Tree.Entries}
    (ht : ∀ e ∈ fields, e.1.Untagged ∧ e.2.Untagged) :
    (target key fields).Succeeds ↔ Keyed (TargetEntry key) fields := by
  refine succeeds_foldlM (I := fun t => t.name = key) (fun t e he hname => ?_)
    (fun t e _ t' hname h => (targetField_output h).1.trans hname) rfl
  rw [succeeds_targetField t (ht e he).1 (ht e he).2, hname]

private theorem targetOutput?_eq_none {e : Tree × Tree} {key : String} (he : e.1 = .text key)
    (hkey : key ∈ Build.reservedKeys) : targetOutput? e = none := by
  rw [targetOutput?, he]
  exact if_pos hkey

private theorem succeeds_readTarget (b : PackageScript.Build) {e : Tree × Tree} {key : String}
    {problem : Problem} (he : e.1 = .text key) (hnew : key ∉ Build.reservedKeys) (hvalue : e.2.Untagged)
    (hb : (b.targets.map PackageScript.Target.output).Nodup) :
    (do
      let fields ← ofOption problem e.2.entries?
      addTarget b (← target key fields)).Succeeds ↔
      (∃ fields, e.2 = .map fields ∧ Keyed (TargetEntry key) fields) ∧
        (b.targets.map PackageScript.Target.output ++ (targetOutput? e).toList).Nodup := by
  rw [succeeds_bind, ← exists_and_right]
  simp only [outcome_ofOption, hvalue.entries?_eq_some, and_assoc]
  refine exists_congr fun fields => and_congr_right fun hfields => ?_
  rw [hfields, Tree.untagged_map] at hvalue
  rw [← succeeds_target hvalue, succeeds_bind, Checked.Succeeds, ← exists_and_right]
  refine exists_congr fun t => and_congr_right fun ht => ?_
  rw [output_target he hnew hfields ht]
  have hadd : (addTarget b t).Succeeds ↔
      t.output ∉ b.targets.map PackageScript.Target.output :=
    ⟨fun ⟨_, h⟩ => (addTarget_eq_ok.mp h).1, fun h => ⟨_, addTarget_eq_ok.mpr ⟨h, rfl⟩⟩⟩
  exact (hadd.trans (and_iff_left hb).symm).trans nodup_append_singleton.symm

private theorem succeeds_buildEntry (b : PackageScript.Build) {e : Tree × Tree}
    (hkey : e.1.Untagged) (hvalue : e.2.Untagged)
    (hb : (b.targets.map PackageScript.Target.output).Nodup) :
    (buildEntry b e).Succeeds ↔ (∃ key, e.1 = .text key ∧ BuildEntry key e.2) ∧
      (b.targets.map PackageScript.Target.output ++ (targetOutput? e).toList).Nodup := by
  simp only [← exists_and_right, and_assoc]
  refine succeeds_keyText hkey fun key he => ?_
  have hnone : key ∈ Build.reservedKeys →
      (b.targets.map PackageScript.Target.output ++ (targetOutput? e).toList).Nodup :=
    fun hmem => by rwa [targetOutput?_eq_none he hmem, Option.toList_none, List.append_nil]
  refine succeeds_phaseEntry (by simp) (fun hphase => ?_) fun hphase => ?_
  · have hmem : key ∈ Build.reservedKeys := by
      rcases hphase with rfl | rfl <;> decide
    exact ⟨fun h => h.1.phase hphase,
      fun h => ⟨⟨fun _ => h, fun hnew => absurd hmem hnew⟩, hnone hmem⟩⟩
  · have hfree : PhaseEntry key e.2 := fun h => absurd h hphase
    simp only
    split
    · rename_i henv
      have hmem : key ∈ Build.reservedKeys := by simp [Build.reservedKeys, henv]
      exact iff_of_true ((succeeds_bind_of_forall (by simp)).mpr (succeeds_warn _))
        ⟨⟨hfree, fun hnew => absurd hmem hnew⟩, hnone hmem⟩
    · rename_i henv
      have hnew : key ∉ Build.reservedKeys := by
        simpa [Build.reservedKeys, and_assoc] using ⟨fun h => hphase (Or.inl h),
          fun h => hphase (Or.inr h), henv⟩
      rw [succeeds_readTarget b he hnew hvalue hb]
      exact and_congr_left fun _ => ⟨fun h => ⟨hfree, fun _ => h⟩, fun h => h.target hnew⟩

private theorem outputs_buildEntry {b b' : PackageScript.Build} {e : Tree × Tree}
    (hkey : e.1.Untagged) (hvalue : e.2.Untagged) (h : (buildEntry b e).outcome = .ok b') :
    b'.targets.map PackageScript.Target.output =
      b.targets.map PackageScript.Target.output ++ (targetOutput? e).toList := by
  obtain ⟨key, he, h⟩ := outcome_bind.mp h
  have he := (keyText_eq_ok hkey).mp he
  obtain ⟨phase?, hphase, h⟩ := outcome_bind.mp h
  cases phase? with
  | some phase =>
    cases h
    have hmem : key ∈ Build.reservedKeys := by
      rcases phaseEntry_eq_some hphase with rfl | rfl <;> decide
    rw [targetOutput?_eq_none he hmem, Option.toList_none, List.append_nil]
  | none =>
    obtain ⟨htools, hcall⟩ := phaseEntry_eq_none hphase
    simp only at h
    split at h
    · rename_i henv
      obtain ⟨_, -, h⟩ := outcome_bind.mp h
      cases h
      have hmem : key ∈ Build.reservedKeys := by simp [Build.reservedKeys, henv]
      rw [targetOutput?_eq_none he hmem, Option.toList_none, List.append_nil]
    · rename_i henv
      obtain ⟨fields, hfields, h⟩ := outcome_bind.mp h
      rw [outcome_ofOption, hvalue.entries?_eq_some] at hfields
      obtain ⟨t, ht, h⟩ := outcome_bind.mp h
      have hnew : key ∉ Build.reservedKeys := by
        simpa [Build.reservedKeys] using ⟨htools, hcall, henv⟩
      rw [output_target he hnew hfields ht, (addTarget_eq_ok.mp h).2, List.map_append]
      rfl

private theorem succeeds_build {entries : Tree.Entries}
    (ht : ∀ e ∈ entries, e.1.Untagged ∧ e.2.Untagged) :
    (build entries).Succeeds ↔ BuildSection entries := by
  have hfold := succeeds_foldlM_nodup
    (fun b : PackageScript.Build => b.targets.map PackageScript.Target.output)
    (fun e => (targetOutput? e).toList)
    (fun b e he hb => succeeds_buildEntry b (ht e he).1 (ht e he).2 hb)
    (fun b e he b' h => outputs_buildEntry (ht e he).1 (ht e he).2 h)
    (s := {}) List.nodup_nil
  rw [← List.filterMap_eq_flatMap_toList] at hfold
  exact hfold.trans ⟨fun ⟨hkeyed, houtputs⟩ => ⟨hkeyed, houtputs⟩,
    fun h => ⟨h.keyed, h.outputs⟩⟩

end Build

private theorem succeeds_readSection {α : Type} (root : Tree.Entries) (name : String)
    (default : α) {read : Tree.Entries → Checked α} {P : Tree.Entries → Prop}
    (hread : ∀ entries, Tree.lookup? name root = some (.map entries) →
      ((read entries).Succeeds ↔ P entries)) :
    (readSection root name default read).Succeeds ↔
      ∀ t, Tree.lookup? name root = some t → OptionalMap P t := by
  rw [readSection]
  split
  · rename_i h
    simp [h]
  · rename_i h
    simp [h, OptionalMap]
  · rename_i entries h
    simpa [h, OptionalMap] using hread entries h
  · rename_i t hnull hmap h
    cases t with
    | null => exact absurd rfl hnull
    | map entries => exact absurd rfl (hmap entries)
    | _ => simp [h, OptionalMap]

private theorem succeeds_checkSectionNames {root : Tree.Entries}
    (ht : ∀ e ∈ root, e.1.Untagged) : (checkSectionNames root).Succeeds ↔
      Keyed (fun name _ => name ∈ ["package", "options", "configure", "build"]) root := by
  rw [succeeds_checkSectionNames_iff]
  refine forall₂_congr fun e he => exists_congr fun name => ?_
  rw [(ht e he).string?_eq_some, and_comm]
  rfl

/-- A tree without tags is read as a descriptor exactly if it keeps to the grammar. -/
theorem exists_descriptor_iff {t : Tree} (ht : t.Untagged) :
    (∃ d, (descriptor t).outcome = .ok d) ↔ Document t := by
  show (descriptor t).Succeeds ↔ Document t
  rw [descriptor, succeeds_bind]
  simp only [outcome_ofOption, ht.entries?_eq_some]
  refine exists_congr fun root => and_congr_right fun heq => ?_
  rw [heq, Tree.untagged_map] at ht
  have hpart : ∀ {name : String} {part : Tree}, Tree.lookup? name root = some part →
      part.Untagged := fun h => (ht _ (Tree.mem_of_lookup? h)).2
  have hentries : ∀ {name : String} {entries : Tree.Entries},
      Tree.lookup? name root = some (.map entries) →
        ∀ e ∈ entries, e.1.Untagged ∧ e.2.Untagged := fun h => Tree.untagged_map.mp (hpart h)
  have hpackage : (ofOption (.schema "missing mandatory package section")
        (Tree.lookup? "package" root) >>= package).Succeeds ↔
      ∃ part, Tree.lookup? "package" root = some part ∧ PackageSection part := by
    rw [succeeds_bind]
    simp only [outcome_ofOption]
    exact exists_congr fun part => and_congr_right fun h => succeeds_package (hpart h)
  have hoptions := succeeds_readSection root "options" {}
    fun entries h => succeeds_options fun e he => (hentries h e he).1
  have hconfigure := succeeds_readSection root "configure" {}
    fun entries h => succeeds_configure (hentries h)
  have hbuild := succeeds_readSection root "build" {}
    fun entries h => succeeds_build (hentries h)
  have hsections := fun p : PackageScript.Package => (succeeds_bind_iff fun o => succeeds_bind_iff
    fun c => succeeds_bind_of_forall fun b => succeeds_mk_ok [] (Descriptor.mk p o c b)).trans
      (and_congr hoptions (and_congr hconfigure hbuild))
  have hbody := (succeeds_bind_iff hsections).trans (and_congr hpackage Iff.rfl)
  rw [bind_assoc] at hbody
  refine (succeeds_bind_iff fun _ => hbody).trans ?_
  rw [succeeds_checkSectionNames fun e he => (ht e he).1]
  refine ⟨?_, fun h => ⟨h.names, h.package, h.options, h.configure, h.build⟩⟩
  rintro ⟨hnames, hpackage, hoptions, hconfigure, hbuild⟩
  exact ⟨hnames, hpackage, hoptions, hconfigure, hbuild⟩

/-- Two targets, the second of which names its output. -/
def twoTargets (output : String) : Tree :=
  .map [(.text "package", .map [(.text "name", .text "p")]),
    (.text "build", .map [
      (.text "hello", .map [(.text "source", .list [.list [.text "a.c"], .null])]),
      (.text "world", .map [(.text "target", .text output)])])]

/-- Each target on its own has the right shape; what they build must differ as well. -/
theorem exists_descriptor_iff_twoTargets :
    Document (twoTargets "earth") ∧ ¬Document (twoTargets "hello") := by
  have huntagged : ∀ output, (twoTargets output).Untagged := by
    intro output
    simp [twoTargets, Tree.Untagged.null]
  refine ⟨(exists_descriptor_iff (huntagged "earth")).mp ⟨_, rfl⟩, fun h => ?_⟩
  obtain ⟨d, hd⟩ := (exists_descriptor_iff (huntagged "hello")).mpr h
  cases hd

end PackageScript.Reading
