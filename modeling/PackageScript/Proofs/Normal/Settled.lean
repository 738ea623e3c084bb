import PackageScript.Proofs.Normal.ReadBack
/-! When what is read back is what was written. -/
namespace PackageScript
open Yaml PackageScript.Normal

/-- Whether no binding is under the conjunction that is spelled like the fallback. -/
def Setting.Unambiguous (s : Setting) : Prop :=
  ∀ b ∈ s.bindings, b.selector ≠ .loneDefault

/-- Whether a tree is a map with the fallback's name as its only key. -/
def Normal.IsLoneFallback : Tree → Prop
  | .map [(.text key, _)] => key = Selector.fallbackName
  | _ => False

namespace Setting

/-- No selector that is read back is spelled like the fallback without being it. -/
theorem unambiguous_settled {s : Setting} (h : s.Canonical) : s.settled.Unambiguous := by
  intro b hb
  obtain ⟨c, hc, rfl⟩ := List.mem_map.mp hb
  simp only
  rw [Selector.parse_source (h.selectors c (mem_of_mem_lastBy hc))]
  split
  · exact Selector.noConfusion
  · assumption

/-- The sources of an unambiguous setting differ, so each binding is written. -/
theorem lastBindings_eq {s : Setting} (h : s.Canonical) (hu : s.Unambiguous) :
    lastBindings s = s.bindings := by
  refine lastBy_of_nodup ?_
  have hmap : s.bindings.map (fun b => b.selector.source) =
      (s.bindings.map Binding.selector).map Selector.source := by
    rw [List.map_map]
    rfl
  rw [hmap]
  refine List.Nodup.map_on (fun e he f hf hsame => ?_) h.distinct
  obtain ⟨b, hb, rfl⟩ := List.mem_map.mp he
  obtain ⟨c, hc, rfl⟩ := List.mem_map.mp hf
  exact Selector.source_injective (h.selectors b hb) (h.selectors c hc) (hu b hb) (hu c hc) hsame

/-- A canonical setting without the ambiguous selector comes back as it is. -/
theorem settled_eq {s : Setting} (h : s.Canonical) (hu : s.Unambiguous) : s.settled = s := by
  have hback : ∀ b ∈ s.bindings, Binding.mk (.parse b.selector.source) b.strings = b := by
    intro b hb
    rw [Selector.parse_source_of_ne (h.selectors b hb) (hu b hb)]
  rw [settled, lastBindings_eq h hu, List.map_congr_left hback, List.map_id']

/-- An unambiguous setting with nothing but the name of the fallback is written as a list. -/
theorem not_isLoneFallback {s : Setting} (h : s.Canonical) (hu : s.Unambiguous) :
    ¬ IsLoneFallback (Normal.setting s) := by
  rw [setting_eq]
  cases hs : s.unconditional? with
  | some strings => exact id
  | none =>
    rw [lastBindings_eq h hu]
    intro hlone
    obtain ⟨name, bindings⟩ := s
    match bindings with
    | [] => exact hlone
    | [⟨selector, strings⟩] =>
      have hmem : (⟨selector, strings⟩ : Binding) ∈ [⟨selector, strings⟩] := List.mem_singleton_self _
      rcases (Selector.source_eq_fallbackName_iff (h.selectors _ hmem)).mp hlone with rfl | hlast
      · cases hs
      · exact hu _ hmem hlast
    | _ :: _ :: _ => exact hlone

private theorem sources_settled {s : Setting} (h : s.Canonical) :
    s.settled.bindings.map (fun b => b.selector.source) =
      (lastBindings s).map fun b => b.selector.source := by
  rw [settled, List.map_map]
  refine List.map_congr_left fun b hb => ?_
  simp only [Function.comp_apply]
  exact Selector.source_parse_source (h.selectors b (mem_of_mem_lastBy hb))

private theorem unconditional?_settled {s : Setting} (h : s.Canonical)
    (hlone : ¬ IsLoneFallback (Normal.setting s)) : s.settled.unconditional? = s.unconditional? := by
  cases hs : s.unconditional? with
  | some strings => rw [Reading.eq_plain hs, Reading.settled_plain, plain, unconditional?]
  | none =>
    rw [setting_eq, hs] at hlone
    cases hsettled : s.settled.unconditional? with
    | none => rfl
    | some strings =>
      exfalso
      have hsources := sources_settled h
      rw [Reading.eq_plain hsettled] at hsources
      rcases hlast : lastBindings s with _ | ⟨b, _ | ⟨c, rest⟩⟩
      · simp [hlast, plain] at hsources
      · rw [hlast] at hsources hlone
        exact hlone (List.cons.inj hsources).1.symm
      · simp [hlast, plain] at hsources

/-- What is read back is written like the setting itself, unless that is a lone fallback. -/
theorem setting_settled {s : Setting} (h : s.Canonical)
    (hlone : ¬ IsLoneFallback (Normal.setting s)) :
    Normal.setting s.settled = Normal.setting s := by
  have hkeyed : keyed (·.selector.source) (stringList ·.strings) (lastBindings s.settled) =
      keyed (·.selector.source) (stringList ·.strings) (lastBindings s) := by
    have hnodup : (s.settled.bindings.map fun b => b.selector.source).Nodup := by
      rw [sources_settled h]
      exact nodup_lastBy s.bindings
    rw [lastBindings, lastBy_of_nodup hnodup, settled, keyed, List.map_map]
    refine List.map_congr_left fun b hb => ?_
    simp only [Function.comp_apply]
    rw [Selector.source_parse_source (h.selectors b (mem_of_mem_lastBy hb))]
  rw [setting_eq, setting_eq, unconditional?_settled h hlone, hkeyed]

private theorem envText?_settled {s : Setting} (how : Change) (h : s.Canonical)
    (hlone : ¬ IsLoneFallback (Normal.setting s)) : envText? how s.settled = envText? how s := by
  have hun := unconditional?_settled h hlone
  cases hs : s.unconditional? with
  | some strings => rw [Reading.eq_plain hs, Reading.settled_plain]
  | none =>
    rw [hs] at hun
    rw [envText?, envText?, hun, hs]

end Setting

namespace Descriptor

/-- The settings that are written: those of changes outside the environment, then those of targets,
each name once. -/
def writtenSettings (d : Descriptor) : List Setting :=
  (groups d.configuration.statements).changes.map Prod.snd ++
    (lastBy Target.name d.build.targets).flatMap fun t =>
      lastSettings t.fields ++ lastSettings t.extensions

/-- What comes back is canonical again. -/
theorem canonical_settled {d : Descriptor} (h : d.Canonical) : d.settled.Canonical := by
  have hread : (Reading.descriptor (Normal.descriptor d)).outcome = .ok d.settled := by
    rw [Reading.descriptor_descriptor h]
    rfl
  exact Reading.canonical_descriptor hread

end Descriptor

namespace Normal

/-- Grouping what is read back gives the same groups, with the changes as they are read back. -/
theorem groups_settled {l : List Statement} (h : Statement.Coherent l)
    (hlone : ∀ c ∈ (groups l).changes, ¬ IsLoneFallback (setting c.2)) :
    groups ((Statement.regrouped l).map Statement.settled) =
      { groups l with changes := (groups l).changes.map fun c => (c.1, c.2.settled) } := by
  have hchanges : ∀ s ∈ (groups l).changes.map (fun c => Statement.change c.1 c.2.settled),
      (∃ how setting, s = .change how setting) ∧
        ∀ e ∈ s.envPair?, l.any (Statement.expresses e.1) = true := by
    intro s hs
    obtain ⟨c, hc, rfl⟩ := List.mem_map.mp hs
    have hmem := Reading.change_of_mem_groups hc
    refine ⟨⟨_, _, rfl⟩, fun e he => List.any_eq_true.mpr ⟨_, hmem, ?_⟩⟩
    have hsame : (Statement.change c.1 c.2.settled).envPair? =
        (Statement.change c.1 c.2).envPair? := by
      rw [Statement.envPair?, Statement.envPair?,
        Setting.envText?_settled c.1 (h.settings _ _ hmem) (hlone c hc)]
      rfl
    rw [Statement.expresses, ← hsame, he]
    simp
  obtain ⟨henv, hdeclared, happlied, hstays⟩ := Statement.regrouped_again
    (fun s hs => (hchanges s hs).1) (fun s hs => (hchanges s hs).2)
  rw [← Reading.settled_regrouped] at henv hdeclared happlied hstays
  refine (Gathered.eq_groups ⟨?_, ?_, ?_, ?_⟩).symm
  · rw [env_groups, henv]
  · rw [declaredTags_groups, hdeclared]
  · rw [appliedTags_groups, happlied]
  · rw [hstays, List.map_map]
    rfl

private theorem configure_settled {c : Configuration} (h : Statement.Coherent c.statements)
    (hlone : ∀ g ∈ (groups c.statements).changes, ¬ IsLoneFallback (setting g.2)) :
    configure { c with statements := (Statement.regrouped c.statements).map Statement.settled } =
      configure c := by
  have hitems : ((groups c.statements).changes.map fun g => (g.1, g.2.settled)).map changeItem =
      (groups c.statements).changes.map changeItem := by
    rw [List.map_map]
    refine List.map_congr_left fun g hg => ?_
    have hsetting := Setting.setting_settled
      (h.settings _ _ (Reading.change_of_mem_groups hg)) (hlone g hg)
    simp only [Function.comp_apply, changeItem]
    rw [hsetting]
    rfl
  simp only [configure]
  rw [groups_settled h hlone, hitems]

private theorem keyed_settled {settings : List Setting} (h : ∀ s ∈ settings, s.Canonical)
    (hlone : ∀ s ∈ lastSettings settings, ¬ IsLoneFallback (setting s)) :
    keyed Setting.name setting (lastSettings ((lastSettings settings).map Setting.settled)) =
      keyed Setting.name setting (lastSettings settings) := by
  have hlast : lastSettings ((lastSettings settings).map Setting.settled) =
      (lastSettings settings).map Setting.settled := by
    have hname : ∀ s : Setting, s.settled.name = s.name := fun s => rfl
    rw [lastSettings, lastBy_map hname, lastSettings, lastBy_lastBy]
  rw [hlast, keyed, List.map_map]
  refine List.map_congr_left fun s hs => ?_
  simp only [Function.comp_apply]
  rw [Setting.setting_settled (h s (mem_of_mem_lastBy hs)) (hlone s hs)]
  rfl

private theorem target_settled {t : Target} (h : t.Canonical) (hsettled : t.settled.Canonical)
    (hlone : ∀ s ∈ lastSettings t.fields ++ lastSettings t.extensions,
      ¬ IsLoneFallback (setting s)) : target t.settled = target t := by
  obtain ⟨hfields, hextensions⟩ := List.forall_mem_append.mp hlone
  have hkeyed := congrArg₂ (· ++ ·) (keyed_settled (fun s hs => (h.fields s hs).2) hfields)
    (keyed_settled (fun s hs => (h.extensions s hs).2.2) hextensions)
  simp only [keyed, ← List.map_append] at hkeyed
  rw [target_eq h, target_eq hsettled]
  exact congrArg _ hkeyed

private theorem build_settled {b : Build} (h : b.Canonical)
    (hsettled : Build.Canonical
      { b with targets := (lastBy Target.name b.targets).map Target.settled })
    (hlone : ∀ t ∈ lastBy Target.name b.targets,
      ∀ s ∈ lastSettings t.fields ++ lastSettings t.extensions, ¬ IsLoneFallback (setting s)) :
    build { b with targets := (lastBy Target.name b.targets).map Target.settled } = build b := by
  have hlast : lastBy Target.name ((lastBy Target.name b.targets).map Target.settled) =
      (lastBy Target.name b.targets).map Target.settled := by
    have hname : ∀ t : Target, t.settled.name = t.name := fun t => rfl
    rw [lastBy_map hname, lastBy_lastBy]
  rw [build_eq h, build_eq hsettled]
  simp only
  rw [hlast, keyed, List.map_map]
  refine congrArg _ (List.map_congr_left fun t ht => ?_)
  have htarget := target_settled (h.targets t (mem_of_mem_lastBy ht))
    (hsettled.targets _ (List.mem_map_of_mem ht)) (hlone t ht)
  simp only [Function.comp_apply]
  rw [htarget]
  rfl

/-- What is read back is written alike, unless a setting was written as a lone fallback. -/
theorem descriptor_settled {d : Descriptor} (h : d.Canonical)
    (hlone : ∀ s ∈ d.writtenSettings, ¬ IsLoneFallback (setting s)) :
    descriptor d.settled = descriptor d := by
  obtain ⟨hchanges, htargets⟩ := List.forall_mem_append.mp hlone
  have hconfigure : configure d.settled.configuration = configure d.configuration :=
    configure_settled h.statements fun c hc => hchanges _ (List.mem_map_of_mem hc)
  have hbuild : build d.settled.build = build d.build :=
    build_settled h.build (Descriptor.canonical_settled h).build fun t ht s hs =>
      htargets s (List.mem_flatMap.mpr ⟨t, ht, hs⟩)
  rw [descriptor, hconfigure, hbuild]
  rfl

end Normal

end PackageScript
