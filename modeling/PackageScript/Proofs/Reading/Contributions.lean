import PackageScript.Proofs.Reading.Entries
/-! What an entry of a section contributes: it is the same whatever is read before it, so that a
section is read if its entries are and what they add does not collide. -/
namespace PackageScript.Reading
open Yaml Checked

def statementsOf (e : Tree × Tree) : List Statement :=
  match (configureEntry {} e).outcome with
  | .ok c => c.statements
  | .error _ => []

/-- The targets that an entry of the build section adds. There is at most one. -/
def targetsOf (e : Tree × Tree) : List Target :=
  match (buildEntry {} e).outcome with
  | .ok b => b.targets
  | .error _ => []

section Folds

variable {α σ ν : Type} {step : σ → α → Checked σ} {entries : List α} {s s' : σ}

/-- What each step puts at the end, all of them put there one after the other. -/
theorem eq_append_flatMap (parts : σ → List ν) (new : α → List ν)
    (hstep : ∀ s e s', (step s e).outcome = .ok s' → parts s' = parts s ++ new e)
    (h : (entries.foldlM step s).outcome = .ok s') : parts s' = parts s ++ entries.flatMap new := by
  induction entries generalizing s with
  | nil =>
    cases outcome_ok.mp h
    exact (List.append_nil _).symm
  | cons e rest ih =>
    rw [List.foldlM_cons, outcome_bind] at h
    obtain ⟨middle, hfirst, hrest⟩ := h
    rw [ih hrest, hstep s e middle hfirst, List.flatMap_cons, List.append_assoc]

/-- Steps that succeed whatever came before succeed together if each of them does alone. -/
theorem succeeds_foldlM_of_alone {s₀ : σ}
    (hstep : ∀ s s' e, (step s e).Succeeds → (step s' e).Succeeds) :
    (entries.foldlM step s).Succeeds ↔ ∀ e ∈ entries, (step s₀ e).Succeeds :=
  succeeds_foldlM (I := fun _ => True)
    (fun s e _ _ => ⟨hstep s s₀ e, hstep s₀ s e⟩) (fun _ _ _ _ _ _ => trivial) trivial

end Folds

section Phases

variable {phase phase' : Phase} {key sectionName : String} {value : Tree}

/-- Whether an entry belongs to the phase does not depend on the phase. -/
theorem phaseEntry_some_again
    (h : (phaseEntry phase key sectionName value).outcome = .ok (some phase')) (other : Phase) :
    ∃ other', (phaseEntry other key sectionName value).outcome = .ok (some other') := by
  rcases phaseEntry_eq_ok.mp h with ⟨hkey, tools, htools, -⟩ | ⟨hkey, hooks, hhooks, -⟩ | ⟨-, hnone⟩
  · exact ⟨_, phaseEntry_eq_ok.mpr (Or.inl ⟨hkey, tools, htools, rfl⟩)⟩
  · exact ⟨_, phaseEntry_eq_ok.mpr (Or.inr (Or.inl ⟨hkey, hooks, hhooks, rfl⟩))⟩
  · cases hnone

private theorem phaseEntry_none_again
    (h : (phaseEntry phase key sectionName value).outcome = .ok none)
    (other : Phase) : (phaseEntry other key sectionName value).outcome = .ok none :=
  phaseEntry_eq_ok.mpr (Or.inr (Or.inr ⟨phaseEntry_eq_none h, rfl⟩))

end Phases

private theorem optionsEntry_again {p q : Phase} {e : Tree × Tree}
    (h : (optionsEntry p e).Succeeds) : (optionsEntry q e).Succeeds := by
  obtain ⟨p', h⟩ := h
  obtain ⟨key, phase?, hkey, hphase, -⟩ := optionsEntry_eq_ok.mp h
  cases phase? with
  | none => exact ⟨_, optionsEntry_eq_ok.mpr ⟨key, _, hkey, phaseEntry_none_again hphase q, rfl⟩⟩
  | some phase =>
    obtain ⟨other, hother⟩ := phaseEntry_some_again hphase q
    exact ⟨_, optionsEntry_eq_ok.mpr ⟨key, _, hkey, hother, rfl⟩⟩

/-- The options are read if each of their entries is read alone. -/
theorem succeeds_options_iff {entries : Tree.Entries} :
    (options entries).Succeeds ↔ ∀ e ∈ entries, (optionsEntry {} e).Succeeds :=
  succeeds_foldlM_of_alone fun _ _ _ => optionsEntry_again

private theorem dependencyEntry_again {lists others : DependencyEntries} {e : Tree × Tree}
    (h : (dependencyEntry lists e).Succeeds) : (dependencyEntry others e).Succeeds := by
  obtain ⟨lists', h⟩ := h
  rcases dependencyEntry_eq_ok.mp h with ⟨hkey, texts, htexts, -⟩ | ⟨hkey, texts, htexts, -⟩ |
    ⟨hkey, texts, htexts, -⟩
  · exact ⟨_, dependencyEntry_eq_ok.mpr (Or.inl ⟨hkey, texts, htexts, rfl⟩)⟩
  · exact ⟨_, dependencyEntry_eq_ok.mpr (Or.inr (Or.inl ⟨hkey, texts, htexts, rfl⟩))⟩
  · exact ⟨_, dependencyEntry_eq_ok.mpr (Or.inr (Or.inr ⟨hkey, texts, htexts, rfl⟩))⟩

/-- The dependencies are read if each of their lists is read alone. -/
theorem succeeds_dependencies_iff {entries : Tree.Entries} :
    (dependencies (.map entries)).Succeeds ↔ ∀ e ∈ entries, (dependencyEntry {} e).Succeeds :=
  (succeeds_bind_of_forall fun _ => succeeds_ok _).trans
    (succeeds_foldlM_of_alone fun _ _ _ => dependencyEntry_again)

private theorem packageEntry_again {p q : Package} {e : Tree × Tree}
    (h : (packageEntry p e).Succeeds) : (packageEntry q e).Succeeds := by
  obtain ⟨p', h⟩ := h
  obtain ⟨key, hkey, hcases⟩ := packageEntry_eq_ok.mp h
  suffices hq : ∃ q', _ from hq.imp fun q' hq => packageEntry_eq_ok.mpr ⟨key, hkey, hq⟩
  rcases hcases with ⟨rfl, a, ha, -⟩ | ⟨rfl, a, ha, -⟩ | ⟨rfl, a, ha, -⟩ | ⟨rfl, a, ha, -⟩ |
    ⟨hother, -⟩
  · exact ⟨_, Or.inl ⟨rfl, a, ha, rfl⟩⟩
  · exact ⟨_, Or.inr (Or.inl ⟨rfl, a, ha, rfl⟩)⟩
  · exact ⟨_, Or.inr (Or.inr (Or.inl ⟨rfl, a, ha, rfl⟩))⟩
  · exact ⟨_, Or.inr (Or.inr (Or.inr (Or.inl ⟨rfl, a, ha, rfl⟩)))⟩
  · exact ⟨_, Or.inr (Or.inr (Or.inr (Or.inr ⟨hother, rfl⟩)))⟩

/-- A package is read if it has a name and each of its entries is read alone. -/
theorem succeeds_package_iff {t : Tree} :
    (package t).Succeeds ↔ ∃ entries, t.entries? = some entries ∧ (packageName entries).Succeeds ∧
      ∀ e ∈ entries, (packageEntry { name := "" } e).Succeeds := by
  rw [package, succeeds_bind]
  simp only [outcome_ofOption]
  refine exists_congr fun entries => and_congr_right fun _ => ?_
  exact succeeds_bind_iff fun name => succeeds_foldlM_of_alone fun _ _ _ => packageEntry_again

private theorem statementsOf_eq {e : Tree × Tree} {c : Configuration}
    (h : (configureEntry {} e).outcome = .ok c) : statementsOf e = c.statements := by
  rw [statementsOf, h]

/-- After others an entry of the configure section adds what it adds alone, which declares none of
their tags. -/
theorem configureEntry_alone {c c' : Configuration} {e : Tree × Tree}
    (h : (configureEntry c e).outcome = .ok c') :
    (configureEntry {} e).Succeeds ∧ c'.statements = c.statements ++ statementsOf e ∧
      (tagNames c.statements).Disjoint (tagNames (statementsOf e)) := by
  obtain ⟨key, phase?, hkey, hphase, hcases⟩ := configureEntry_eq_ok.mp h
  rcases hcases with ⟨phase, rfl, rfl⟩ | ⟨rfl, statements, hstatements, rfl⟩
  · obtain ⟨other, hother⟩ := phaseEntry_some_again hphase {}
    have hown : (configureEntry {} e).outcome = .ok { phase := other } :=
      configureEntry_eq_ok.mpr ⟨key, _, hkey, hother, Or.inl ⟨other, rfl, rfl⟩⟩
    rw [statementsOf_eq hown, List.append_nil]
    exact ⟨⟨_, hown⟩, rfl, List.disjoint_nil_right _⟩
  · obtain ⟨more, hmore, rfl, hdisjoint⟩ := statementsAfter_eq_ok.mp hstatements
    have hother := phaseEntry_none_again hphase {}
    have hown : (configureEntry {} e).outcome = .ok { statements := more } :=
      configureEntry_eq_ok.mpr ⟨key, _, hkey, hother, Or.inr ⟨rfl, more, hmore, rfl⟩⟩
    rw [statementsOf_eq hown]
    exact ⟨⟨_, hown⟩, rfl, hdisjoint⟩

private theorem configureEntry_after {c : Configuration} {e : Tree × Tree}
    (h : (configureEntry {} e).Succeeds)
    (hdisjoint : (tagNames c.statements).Disjoint (tagNames (statementsOf e))) :
    (configureEntry c e).Succeeds := by
  obtain ⟨own, hown⟩ := h
  rw [statementsOf_eq hown] at hdisjoint
  obtain ⟨key, phase?, hkey, hphase, hcases⟩ := configureEntry_eq_ok.mp hown
  rcases hcases with ⟨phase, rfl, rfl⟩ | ⟨rfl, statements, hstatements, rfl⟩
  · obtain ⟨other, hother⟩ := phaseEntry_some_again hphase c.phase
    exact ⟨_, configureEntry_eq_ok.mpr ⟨key, _, hkey, hother, Or.inl ⟨other, rfl, rfl⟩⟩⟩
  · have hother := phaseEntry_none_again hphase c.phase
    have hafter := statementsAfter_eq_ok.mpr ⟨statements, hstatements, rfl, hdisjoint⟩
    exact ⟨_, configureEntry_eq_ok.mpr ⟨key, _, hkey, hother, Or.inr ⟨rfl, _, hafter, rfl⟩⟩⟩

private theorem nodup_tagNames_statementsOf (e : Tree × Tree) :
    (tagNames (statementsOf e)).Nodup := by
  rw [statementsOf]
  split
  · rename_i c hc
    exact (coherent_configureEntry (c := {}) ⟨List.nodup_nil, by simp⟩ hc).tags
  · exact List.nodup_nil

/-- A configure section is read if each of its entries is, and no tag is declared twice. -/
theorem succeeds_configure_iff {entries : Tree.Entries} :
    (configure entries).Succeeds ↔ (∀ e ∈ entries, (configureEntry {} e).Succeeds) ∧
      (entries.flatMap fun e => tagNames (statementsOf e)).Nodup := by
  refine succeeds_foldlM_nodup (fun c : Configuration => tagNames c.statements)
    (fun e => tagNames (statementsOf e)) (fun c e _ hc => ?_) (fun c e _ c' h => ?_) List.nodup_nil
  · rw [List.nodup_append', and_iff_right hc, and_iff_right (nodup_tagNames_statementsOf e)]
    constructor
    · rintro ⟨c', h⟩
      obtain ⟨hown, -, hdisjoint⟩ := configureEntry_alone h
      exact ⟨hown, hdisjoint⟩
    · rintro ⟨hown, hdisjoint⟩
      exact configureEntry_after hown hdisjoint
  · rw [(configureEntry_alone h).2.1, tagNames_append]

/-- The statements are those of the entries, one entry after another. -/
theorem statements_configure {entries : Tree.Entries} {c : Configuration}
    (h : (configure entries).outcome = .ok c) : c.statements = entries.flatMap statementsOf :=
  eq_append_flatMap Configuration.statements statementsOf
    (fun _ _ _ h => (configureEntry_alone h).2.1) h

private theorem targetsOf_eq {e : Tree × Tree} {b : Build}
    (h : (buildEntry {} e).outcome = .ok b) : targetsOf e = b.targets := by
  rw [targetsOf, h]

/-- After others an entry of the build section adds what it adds alone, which produces something
that they do not. -/
theorem buildEntry_alone {b b' : Build} {e : Tree × Tree} (h : (buildEntry b e).outcome = .ok b') :
    (buildEntry {} e).Succeeds ∧ b'.targets = b.targets ++ targetsOf e ∧
      (b.targets.map Target.output).Disjoint ((targetsOf e).map Target.output) := by
  obtain ⟨key, phase?, hkey, hphase, hcases⟩ := buildEntry_eq_ok.mp h
  have hquiet : ∀ {own : Build}, (buildEntry {} e).outcome = .ok own → own.targets = [] →
      b'.targets = b.targets → (buildEntry {} e).Succeeds ∧ b'.targets = b.targets ++ targetsOf e ∧
        (b.targets.map Target.output).Disjoint ((targetsOf e).map Target.output) := by
    intro own hown hnone hsame
    rw [targetsOf_eq hown, hnone, hsame, List.append_nil]
    exact ⟨⟨_, hown⟩, rfl, List.disjoint_nil_right _⟩
  rcases hcases with ⟨phase, rfl, rfl⟩ | ⟨rfl, henv, rfl⟩ |
    ⟨rfl, henv, fields, t, hfields, ht, hnew, rfl⟩
  · obtain ⟨other, hother⟩ := phaseEntry_some_again hphase {}
    exact hquiet (buildEntry_eq_ok.mpr ⟨key, _, hkey, hother, Or.inl ⟨other, rfl, rfl⟩⟩) rfl rfl
  · have hother := phaseEntry_none_again hphase {}
    exact hquiet (buildEntry_eq_ok.mpr ⟨key, _, hkey, hother, Or.inr (Or.inl ⟨rfl, henv, rfl⟩)⟩)
      rfl rfl
  · have hother := phaseEntry_none_again hphase {}
    have hown : (buildEntry {} e).outcome = .ok { targets := [t] } :=
      buildEntry_eq_ok.mpr ⟨key, _, hkey, hother,
        Or.inr (Or.inr ⟨rfl, henv, fields, t, hfields, ht, List.not_mem_nil, rfl⟩)⟩
    rw [targetsOf_eq hown]
    exact ⟨⟨_, hown⟩, rfl, List.disjoint_singleton.mpr hnew⟩

private theorem buildEntry_after {b : Build} {e : Tree × Tree} (h : (buildEntry {} e).Succeeds)
    (hdisjoint : (b.targets.map Target.output).Disjoint ((targetsOf e).map Target.output)) :
    (buildEntry b e).Succeeds := by
  obtain ⟨own, hown⟩ := h
  rw [targetsOf_eq hown] at hdisjoint
  obtain ⟨key, phase?, hkey, hphase, hcases⟩ := buildEntry_eq_ok.mp hown
  rcases hcases with ⟨phase, rfl, rfl⟩ | ⟨rfl, henv, rfl⟩ |
    ⟨rfl, henv, fields, t, hfields, ht, -, rfl⟩
  · obtain ⟨other, hother⟩ := phaseEntry_some_again hphase b.phase
    exact ⟨_, buildEntry_eq_ok.mpr ⟨key, _, hkey, hother, Or.inl ⟨other, rfl, rfl⟩⟩⟩
  · have hother := phaseEntry_none_again hphase b.phase
    exact ⟨_, buildEntry_eq_ok.mpr ⟨key, _, hkey, hother, Or.inr (Or.inl ⟨rfl, henv, rfl⟩)⟩⟩
  · have hother := phaseEntry_none_again hphase b.phase
    have hnew : t.output ∉ b.targets.map Target.output := List.disjoint_singleton.mp hdisjoint
    exact ⟨_, buildEntry_eq_ok.mpr ⟨key, _, hkey, hother,
      Or.inr (Or.inr ⟨rfl, henv, fields, t, hfields, ht, hnew, rfl⟩)⟩⟩

private theorem nodup_outputs_targetsOf (e : Tree × Tree) :
    ((targetsOf e).map Target.output).Nodup := by
  rw [targetsOf]
  split
  · rename_i b hb
    exact (canonical_buildEntry (b := {}) ⟨by simp, by simp⟩ hb).outputs
  · exact List.nodup_nil

/-- A build section is read if each of its entries is, and nothing is produced twice. -/
theorem succeeds_build_iff {entries : Tree.Entries} :
    (build entries).Succeeds ↔ (∀ e ∈ entries, (buildEntry {} e).Succeeds) ∧
      (entries.flatMap fun e => (targetsOf e).map Target.output).Nodup := by
  refine succeeds_foldlM_nodup (fun b : Build => b.targets.map Target.output)
    (fun e => (targetsOf e).map Target.output) (fun b e _ hb => ?_) (fun b e _ b' h => ?_)
    List.nodup_nil
  · rw [List.nodup_append', and_iff_right hb, and_iff_right (nodup_outputs_targetsOf e)]
    constructor
    · rintro ⟨b', h⟩
      obtain ⟨hown, -, hdisjoint⟩ := buildEntry_alone h
      exact ⟨hown, hdisjoint⟩
    · rintro ⟨hown, hdisjoint⟩
      exact buildEntry_after hown hdisjoint
  · rw [(buildEntry_alone h).2.1, List.map_append]

/-- The targets are those of the entries, one entry after another. -/
theorem targets_build {entries : Tree.Entries} {b : Build} (h : (build entries).outcome = .ok b) :
    b.targets = entries.flatMap targetsOf :=
  eq_append_flatMap Build.targets targetsOf
    (fun _ _ _ h => (buildEntry_alone h).2.1) h

end PackageScript.Reading
