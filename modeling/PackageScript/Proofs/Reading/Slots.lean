import PackageScript.Proofs.Reading.Entries
import PackageScript.Proofs.Yaml.Reordering
/-! Parts of what is read that only one name sets: they do not depend on the order of the
entries. -/
namespace PackageScript.Reading
open Yaml Checked

/-- Whether a part is read from the entry under one name, and kept by all other entries. -/
def Slot {σ β : Type} (step : σ → Tree × Tree → Checked σ) (get : σ → β) (name : String)
    (Reads : Tree → β → Prop) : Prop :=
  ∀ s e s', (step s e).outcome = .ok s' →
    (e.1.string? = some name ∧ Reads e.2 (get s')) ∨ e.1.string? ≠ some name ∧ get s' = get s

namespace Slot

variable {σ β : Type} {step : σ → Tree × Tree → Checked σ} {get : σ → β} {name : String}
  {Reads : Tree → β → Prop} {part : String → Tree → Tree → Prop} {es fs : Tree.Entries}
  (h : Slot step get name Reads)
include h

private theorem get_of_notMem {s s' : σ} (hname : name ∉ Tree.names es)
    (hs : (es.foldlM step s).outcome = .ok s') : get s' = get s := by
  refine foldlM_invariant (fun middle => get middle = get s) (fun s e he s' hkeep hstep => ?_) rfl
    hs
  rcases h s e s' hstep with ⟨hkey, -⟩ | ⟨-, hsame⟩
  · exact absurd (List.mem_filterMap.mpr ⟨e, he, hkey⟩) hname
  · rw [hsame, hkeep]

/-- At the end the part holds what is read from the value under its name. -/
theorem get_foldlM (hes : Tree.WellKeyed es) {s s' : σ} (hs : (es.foldlM step s).outcome = .ok s') :
    (∃ t, Tree.lookup? name es = some t ∧ Reads t (get s')) ∨
      Tree.lookup? name es = none ∧ get s' = get s := by
  obtain ⟨hnames, huntagged⟩ := hes
  induction es generalizing s with
  | nil =>
    cases outcome_ok.mp hs
    exact Or.inr ⟨rfl, rfl⟩
  | cons e rest ih =>
    obtain ⟨hu, hrest⟩ := List.forall_mem_cons.mp huntagged
    rw [Tree.names_cons, List.nodup_append] at hnames
    rw [List.foldlM_cons, outcome_bind] at hs
    obtain ⟨middle, hfirst, hmore⟩ := hs
    rcases h s e middle hfirst with ⟨hkey, hread⟩ | ⟨hkey, hsame⟩
    · -- The keys differ, so that no later entry sets the part again.
      have hlater : name ∉ Tree.names rest := fun hmem =>
        hnames.2.2 name (by simp [hkey]) name hmem rfl
      obtain ⟨key, t⟩ := e
      have hname : key = .text name := Tree.eq_text_of_string? hu hkey
      subst hname
      refine Or.inl ⟨t, Tree.lookup?_cons_self t rest, ?_⟩
      rwa [h.get_of_notMem hlater hmore]
    · have hne : e.1 ≠ .text name := fun heq => hkey (by rw [heq, Tree.string?_text])
      rw [Tree.lookup?_cons_of_ne hne, ← hsame]
      exact ih hmore hnames.2.1 hrest

/-- The part is the same whatever the order of the entries, if the same is read from values that may
stand for each other. -/
theorem get_eq (hes : Tree.WellKeyed es) (hfs : Tree.Rearranged part es fs)
    (hreads : ∀ t u b c, Tree.lookup? name es = some t → Tree.Alike part name t u → Reads t b →
      Reads u c → b = c)
    {s s₁ s₂ : σ} (h₁ : (es.foldlM step s).outcome = .ok s₁)
    (h₂ : (fs.foldlM step s).outcome = .ok s₂) : get s₁ = get s₂ := by
  have hlook := Tree.lookup?_rearranged name hes.names hfs
  rcases h.get_foldlM hes h₁ with ⟨t, ht, hread⟩ | ⟨hnone, hsame⟩
  · rcases h.get_foldlM (Tree.wellKeyed_rearranged hfs hes) h₂ with ⟨u, hu, hread'⟩ | ⟨hnone', -⟩
    · rw [ht, hu] at hlook
      cases hlook with
      | some halike => exact hreads t u _ _ ht halike hread hread'
    · rw [ht, hnone'] at hlook
      cases hlook
  · rcases h.get_foldlM (Tree.wellKeyed_rearranged hfs hes) h₂ with ⟨u, hu, -⟩ | ⟨-, hsame'⟩
    · rw [hnone, hu] at hlook
      cases hlook
    · rw [hsame, hsame']

/-- The part is the same whatever the order of the entries, if its value stays as it is. -/
theorem get_eq_of_fixed (hes : Tree.WellKeyed es) (hfs : Tree.Rearranged part es fs)
    (hpart : ∀ t u, ¬ part name t u) (hreads : ∀ t b c, Reads t b → Reads t c → b = c)
    {s s₁ s₂ : σ} (h₁ : (es.foldlM step s).outcome = .ok s₁)
    (h₂ : (fs.foldlM step s).outcome = .ok s₂) : get s₁ = get s₂ := by
  refine h.get_eq hes hfs (fun t u b c _ halike hb hc => ?_) h₁ h₂
  rcases halike with rfl | hrelated
  · exact hreads t b c hb hc
  · exact absurd hrelated (hpart t u)

end Slot

private theorem slot_of_parts {σ β : Type} {step : σ → Tree × Tree → Checked σ} {get : σ → β}
    {name : String} {Reads : Tree → β → Prop}
    (h : ∀ s e s', (step s e).outcome = .ok s' → ∃ key, e.1.string? = some key ∧
      if key = name then Reads e.2 (get s') else get s' = get s) : Slot step get name Reads := by
  intro s e s' hs
  obtain ⟨key, hkey, hpart⟩ := h s e s' hs
  split at hpart
  · rename_i hname
    exact Or.inl ⟨hname ▸ hkey, hpart⟩
  · rename_i hname
    exact Or.inr ⟨fun hsome => hname (Option.some.inj (hkey.symm.trans hsome)), hpart⟩

/-- What is read from one tree is one thing. -/
theorem eq_of_outcome {α β : Type} {read : α → Checked β} (a : α) (b c : β)
    (hb : (read a).outcome = .ok b) (hc : (read a).outcome = .ok c) : b = c :=
  Except.ok.inj (hb.symm.trans hc)

section Phases

variable {σ : Type} {step : σ → Tree × Tree → Checked σ} (phaseOf : σ → Phase)
  (sectionName : String)
  (hstep : ∀ {s e s'}, (step s e).outcome = .ok s' → ∃ key phase?, e.1.string? = some key ∧
    (phaseEntry (phaseOf s) key sectionName e.2).outcome = .ok phase? ∧
      phaseOf s' = phase?.getD (phaseOf s))
include hstep

private theorem phase_parts {s s' : σ} {e : Tree × Tree} (h : (step s e).outcome = .ok s') :
    ∃ key, e.1.string? = some key ∧
      (if key = "tools" then
        (strings (sectionName ++ ".tools") e.2).outcome = .ok (phaseOf s').tools
      else (phaseOf s').tools = (phaseOf s).tools) ∧
      if key = "hwaf-call" then
        (strings (sectionName ++ ".hwaf-call") e.2).outcome = .ok (phaseOf s').hooks
      else (phaseOf s').hooks = (phaseOf s).hooks := by
  obtain ⟨key, phase?, hkey, hphase, hs'⟩ := hstep h
  refine ⟨key, hkey, ?_⟩
  rw [hs']
  rcases phaseEntry_eq_ok.mp hphase with ⟨rfl, tools, htools, rfl⟩ | ⟨rfl, hooks, hhooks, rfl⟩ |
    ⟨⟨htools, hcall⟩, rfl⟩
  · simp [htools]
  · simp [hhooks]
  · simp [htools, hcall]

private theorem slot_tools : Slot step (fun s => (phaseOf s).tools) "tools"
    fun t tools => (strings (sectionName ++ ".tools") t).outcome = .ok tools := by
  refine slot_of_parts fun s e s' h => ?_
  obtain ⟨key, hkey, htools, -⟩ := phase_parts phaseOf sectionName hstep h
  exact ⟨key, hkey, htools⟩

private theorem slot_hooks : Slot step (fun s => (phaseOf s).hooks) "hwaf-call"
    fun t hooks => (strings (sectionName ++ ".hwaf-call") t).outcome = .ok hooks := by
  refine slot_of_parts fun s e s' h => ?_
  obtain ⟨key, hkey, -, hhooks⟩ := phase_parts phaseOf sectionName hstep h
  exact ⟨key, hkey, hhooks⟩

private theorem phase_eq_of_perm {es fs : Tree.Entries} (hes : Tree.WellKeyed es) (hfs : es.Perm fs)
    {s s₁ s₂ : σ} (h₁ : (es.foldlM step s).outcome = .ok s₁)
    (h₂ : (fs.foldlM step s).outcome = .ok s₂) : phaseOf s₁ = phaseOf s₂ := by
  have hrearranged : Tree.Rearranged (fun _ _ _ => False) es fs := Tree.rearranged_of_perm hfs
  have htools := (slot_tools phaseOf sectionName hstep).get_eq_of_fixed hes hrearranged
    (fun _ _ => id) eq_of_outcome h₁ h₂
  have hhooks := (slot_hooks phaseOf sectionName hstep).get_eq_of_fixed hes hrearranged
    (fun _ _ => id) eq_of_outcome h₁ h₂
  calc phaseOf s₁ = ⟨(phaseOf s₁).tools, (phaseOf s₁).hooks⟩ := rfl
    _ = ⟨(phaseOf s₂).tools, (phaseOf s₂).hooks⟩ := by rw [htools, hhooks]
    _ = phaseOf s₂ := rfl

end Phases

section Sections

variable {es fs : Tree.Entries} (hes : Tree.WellKeyed es) (hfs : es.Perm fs)
include hes hfs

/-- The options do not depend on the order of their entries. -/
theorem options_eq_of_perm {p q : Phase} (h₁ : (options es).outcome = .ok p)
    (h₂ : (options fs).outcome = .ok q) : p = q := by
  refine phase_eq_of_perm id "options" (fun h => ?_) hes hfs h₁ h₂
  exact optionsEntry_eq_ok.mp h

/-- The phase of a configuration does not depend on the order of the entries. -/
theorem configure_phase_eq_of_perm {c c' : Configuration} (h₁ : (configure es).outcome = .ok c)
    (h₂ : (configure fs).outcome = .ok c') : c.phase = c'.phase := by
  refine phase_eq_of_perm Configuration.phase "configure" (fun h => ?_) hes hfs h₁ h₂
  obtain ⟨key, phase?, hkey, hphase, hcases⟩ := configureEntry_eq_ok.mp h
  refine ⟨key, phase?, hkey, hphase, ?_⟩
  rcases hcases with ⟨phase, rfl, rfl⟩ | ⟨rfl, statements, -, rfl⟩ <;> rfl

/-- The phase of a build does not depend on the order of the entries. -/
theorem build_phase_eq_of_perm {b b' : Build} (h₁ : (build es).outcome = .ok b)
    (h₂ : (build fs).outcome = .ok b') : b.phase = b'.phase := by
  refine phase_eq_of_perm Build.phase "build" (fun h => ?_) hes hfs h₁ h₂
  obtain ⟨key, phase?, hkey, hphase, hcases⟩ := buildEntry_eq_ok.mp h
  refine ⟨key, phase?, hkey, hphase, ?_⟩
  rcases hcases with ⟨phase, rfl, rfl⟩ | ⟨rfl, -, rfl⟩ | ⟨rfl, -, fields, t, -, -, -, rfl⟩ <;> rfl

end Sections

section Dependencies

private theorem dependencyEntry_parts {lists lists' : DependencyEntries} {e : Tree × Tree}
    (h : (dependencyEntry lists e).outcome = .ok lists') : ∃ key, e.1.string? = some key ∧
      (if key = "public" then (strings "package.deps.public" e.2).outcome = .ok lists'.publicly
        else lists'.publicly = lists.publicly) ∧
      (if key = "private" then (strings "package.deps.private" e.2).outcome = .ok lists'.privately
        else lists'.privately = lists.privately) ∧
      if key = "runtime" then (strings "package.deps.runtime" e.2).outcome = .ok lists'.atRuntime
        else lists'.atRuntime = lists.atRuntime := by
  rcases dependencyEntry_eq_ok.mp h with ⟨hkey, texts, htexts, rfl⟩ |
    ⟨hkey, texts, htexts, rfl⟩ | ⟨hkey, texts, htexts, rfl⟩
  all_goals exact ⟨_, hkey, by simp [htexts]⟩

private theorem slot_publicly : Slot dependencyEntry DependencyEntries.publicly "public"
    fun t texts => (strings "package.deps.public" t).outcome = .ok texts := by
  refine slot_of_parts fun lists e lists' h => ?_
  obtain ⟨key, hkey, hpublicly, -⟩ := dependencyEntry_parts h
  exact ⟨key, hkey, hpublicly⟩

private theorem slot_privately : Slot dependencyEntry DependencyEntries.privately "private"
    fun t texts => (strings "package.deps.private" t).outcome = .ok texts := by
  refine slot_of_parts fun lists e lists' h => ?_
  obtain ⟨key, hkey, -, hprivately, -⟩ := dependencyEntry_parts h
  exact ⟨key, hkey, hprivately⟩

private theorem slot_atRuntime : Slot dependencyEntry DependencyEntries.atRuntime "runtime"
    fun t texts => (strings "package.deps.runtime" t).outcome = .ok texts := by
  refine slot_of_parts fun lists e lists' h => ?_
  obtain ⟨key, hkey, -, -, hatRuntime⟩ := dependencyEntry_parts h
  exact ⟨key, hkey, hatRuntime⟩

/-- The dependencies do not depend on the order of their three lists. -/
theorem dependencies_eq_of_perm {es fs : Tree.Entries} (hes : Tree.WellKeyed es) (hfs : es.Perm fs)
    {deps deps' : List Dependency} (h₁ : (dependencies (.map es)).outcome = .ok deps)
    (h₂ : (dependencies (.map fs)).outcome = .ok deps') : deps = deps' := by
  have hrearranged : Tree.Rearranged (fun _ _ _ => False) es fs := Tree.rearranged_of_perm hfs
  obtain ⟨lists, hlists, h₁⟩ := outcome_bind.mp h₁
  obtain ⟨lists', hlists', h₂⟩ := outcome_bind.mp h₂
  have hpublicly := slot_publicly.get_eq_of_fixed hes hrearranged (fun _ _ => id) eq_of_outcome
    hlists hlists'
  have hprivately := slot_privately.get_eq_of_fixed hes hrearranged (fun _ _ => id) eq_of_outcome
    hlists hlists'
  have hatRuntime := slot_atRuntime.get_eq_of_fixed hes hrearranged (fun _ _ => id) eq_of_outcome
    hlists hlists'
  cases h₁
  cases h₂
  rw [hpublicly, hprivately, hatRuntime]

end Dependencies

section Package

private theorem packageEntry_parts {p p' : Package} {e : Tree × Tree}
    (h : (packageEntry p e).outcome = .ok p') : ∃ key, e.1.string? = some key ∧ p'.name = p.name ∧
      (if key = "authors" then (oneOrMore "package.authors" e.2).outcome = .ok p'.authors
        else p'.authors = p.authors) ∧
      (if key = "managers" then (oneOrMore "package.managers" e.2).outcome = .ok p'.managers
        else p'.managers = p.managers) ∧
      (if key = "version" then (Reading.version "package.version" e.2).outcome = .ok p'.version
        else p'.version = p.version) ∧
      if key = "deps" then (dependencies e.2).outcome = .ok p'.deps else p'.deps = p.deps := by
  obtain ⟨key, hkey, hcases⟩ := packageEntry_eq_ok.mp h
  refine ⟨key, hkey, ?_⟩
  rcases hcases with ⟨rfl, a, ha, rfl⟩ | ⟨rfl, a, ha, rfl⟩ | ⟨rfl, a, ha, rfl⟩ | ⟨rfl, a, ha, rfl⟩ |
    ⟨hother, rfl⟩
  · simp [ha]
  · simp [ha]
  · simp [ha]
  · simp [ha]
  · simp only [List.mem_cons, List.not_mem_nil, or_false, not_or] at hother
    simp [hother]

theorem name_foldlM_packageEntry {es : Tree.Entries} {p p' : Package}
    (h : (es.foldlM packageEntry p).outcome = .ok p') : p'.name = p.name := by
  refine foldlM_invariant (fun q : Package => q.name = p.name) (fun q e _ q' hq hstep => ?_) rfl h
  obtain ⟨key, -, hname, -⟩ := packageEntry_parts hstep
  exact hname.trans hq

/-- The authors are read from the entry of their name only. -/
theorem slot_authors : Slot packageEntry Package.authors "authors"
    fun t authors => (oneOrMore "package.authors" t).outcome = .ok authors := by
  refine slot_of_parts fun p e p' h => ?_
  obtain ⟨key, hkey, -, hauthors, -⟩ := packageEntry_parts h
  exact ⟨key, hkey, hauthors⟩

/-- The managers are read from the entry of their name only. -/
theorem slot_managers : Slot packageEntry Package.managers "managers"
    fun t managers => (oneOrMore "package.managers" t).outcome = .ok managers := by
  refine slot_of_parts fun p e p' h => ?_
  obtain ⟨key, hkey, -, -, hmanagers, -⟩ := packageEntry_parts h
  exact ⟨key, hkey, hmanagers⟩

/-- The version is read from the entry of its name only. -/
theorem slot_version : Slot packageEntry Package.version "version"
    fun t version => (Reading.version "package.version" t).outcome = .ok version := by
  refine slot_of_parts fun p e p' h => ?_
  obtain ⟨key, hkey, -, -, -, hversion, -⟩ := packageEntry_parts h
  exact ⟨key, hkey, hversion⟩

/-- The dependencies are read from the entry of their name only. -/
theorem slot_deps : Slot packageEntry Package.deps "deps"
    fun t deps => (dependencies t).outcome = .ok deps := by
  refine slot_of_parts fun p e p' h => ?_
  obtain ⟨key, hkey, -, -, -, -, hdeps⟩ := packageEntry_parts h
  exact ⟨key, hkey, hdeps⟩

end Package

end PackageScript.Reading
