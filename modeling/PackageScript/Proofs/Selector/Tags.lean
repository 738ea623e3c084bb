import Mathlib.Data.List.Sort
import PackageScript.Proofs.Reading.Canonical
/-! Selectors as sets of tags: which texts spell the same selector, and which selectors are told
apart by what is written for them. -/
namespace PackageScript
open Text

namespace Selector

/-- The tags of a text: its trimmed pieces between ampersands, without the empty ones. -/
def tagSet (s : String) : Set String :=
  {t | ∃ piece ∈ pieces (· == '&') s.toList, strip piece ≠ [] ∧ t = String.ofList (strip piece)}

/-- The tags of a text, where one without a tag has the name of the fallback as its only tag. -/
def denoted (s : String) : Set String :=
  {t | t ∈ tagSet s ∨ tagSet s = ∅ ∧ t = fallbackName}

/-- Whether a text has no other tag than the name of the fallback, and is not just this name. -/
def SpellsLoneDefault (s : String) : Prop :=
  tagSet s = {fallbackName} ∧ trim s ≠ fallbackName

/-- The tags of a selector, in ascending order. -/
def tags : Selector → List String
  | .fallback => [fallbackName]
  | .all tags => tags

private theorem mem_tagsOf {t s : String} : t ∈ tagsOf s ↔ t ∈ tagSet s := by
  have hblank : ∀ c, isBlank c = true → (c == '&') = false := fun c h => isBlank_ne_ampersand h
  rw [tagsOf, map_strip_pieces_strip hblank]
  simp only [List.mem_map, List.mem_filter]
  constructor
  · rintro ⟨_, ⟨⟨piece, hpiece, rfl⟩, hne⟩, rfl⟩
    exact ⟨piece, hpiece, by simpa using hne, rfl⟩
  · rintro ⟨piece, hpiece, hne, rfl⟩
    exact ⟨_, ⟨⟨piece, hpiece, rfl⟩, by simpa using hne⟩, rfl⟩

private theorem mem_ascending_tagsOf {t s : String} : t ∈ ascending (tagsOf s) ↔ t ∈ tagSet s :=
  mem_ascending.trans mem_tagsOf

private theorem tagSet_of_trim {s : String} (h : trim s = fallbackName) :
    tagSet s = {fallbackName} := by
  have htags : tagsOf s = tagsOf (trim s) := by
    rw [tagsOf, tagsOf, trim, String.toList_ofList, strip_strip]
  have hname : tagsOf fallbackName = [fallbackName] := by decide
  ext t
  rw [← mem_tagsOf, htags, h, hname, List.mem_singleton, Set.mem_singleton_iff]

private theorem mem_denoted_of_nonempty {t s : String} (h : tagSet s ≠ ∅) :
    t ∈ denoted s ↔ t ∈ tagSet s :=
  or_iff_left fun hempty => h hempty.1

private theorem denoted_of_empty {s : String} (h : tagSet s = ∅) : denoted s = {fallbackName} := by
  ext t
  refine ⟨fun ht => ht.elim (fun hmem => ?_) And.right, fun ht => Or.inr ⟨h, ht⟩⟩
  rw [h] at hmem
  exact hmem.elim

/-- The tags of the selector that a text spells are those of the text. -/
theorem mem_tags_parse {t s : String} : t ∈ (parse s).tags ↔ t ∈ denoted s := by
  rw [parse]
  split
  · rename_i htrim
    have hset := tagSet_of_trim htrim
    rw [mem_denoted_of_nonempty (by simp [hset]), hset]
    exact List.mem_singleton
  · rw [ofTags]
    split
    · rename_i hnil
      have hempty : tagSet s = ∅ := by
        refine Set.eq_empty_iff_forall_notMem.mpr fun t ht => ?_
        simpa [hnil] using mem_ascending_tagsOf.mpr ht
      rw [denoted_of_empty hempty]
      exact List.mem_singleton
    · rename_i hcons
      obtain ⟨first, hfirst⟩ := List.exists_mem_of_ne_nil _ hcons
      have hne : tagSet s ≠ ∅ := Set.Nonempty.ne_empty ⟨first, mem_ascending_tagsOf.mp hfirst⟩
      rw [mem_denoted_of_nonempty hne]
      exact mem_ascending_tagsOf

private theorem parse_eq_loneDefault_iff {s : String} :
    parse s = loneDefault ↔ SpellsLoneDefault s := by
  have hsorted : ascending (tagsOf s) = [fallbackName] ↔ tagSet s = {fallbackName} := by
    refine ⟨fun h => ?_, fun h => ?_⟩
    · ext t
      rw [← mem_ascending_tagsOf, h, List.mem_singleton, Set.mem_singleton_iff]
    · refine (ascending_sorted _).eq_of_mem_iff (List.pairwise_singleton _ _) fun t => ?_
      rw [mem_ascending_tagsOf, h, List.mem_singleton, Set.mem_singleton_iff]
  rw [SpellsLoneDefault, ← hsorted, parse]
  split
  · rename_i htrim
    exact iff_of_false (by decide) fun h => h.2 htrim
  · rename_i htrim
    rw [ofTags]
    split
    · rename_i hnil
      exact iff_of_false (by decide) fun h => by simp [hnil] at h
    · exact ⟨fun h => ⟨Selector.all.inj h, htrim⟩, fun h => congrArg all h.1⟩

private theorem sorted_tags {e : Selector} (h : e.Canonical) : e.tags.Pairwise (· < ·) := by
  cases e with
  | fallback => exact List.pairwise_singleton _ _
  | all tags => exact h.2.1

/-- A selector is its set of tags, apart from the conjunction of the one tag that is called like the
fallback. -/
theorem eq_of_mem_tags_iff {e f : Selector} (he : e.Canonical) (hf : f.Canonical)
    (hlone : e = loneDefault ↔ f = loneDefault) (h : ∀ t, t ∈ e.tags ↔ t ∈ f.tags) : e = f := by
  have hsame : e.tags = f.tags := (sorted_tags he).eq_of_mem_iff (sorted_tags hf) h
  cases e <;> cases f
  · rfl
  · cases hsame
    exact absurd (hlone.mpr rfl) (by decide)
  · cases hsame
    exact absurd (hlone.mp rfl) (by decide)
  · exact congrArg all hsame

private theorem parse_eq_parse_iff {a b : String} :
    parse a = parse b ↔ denoted a = denoted b ∧ (SpellsLoneDefault a ↔ SpellsLoneDefault b) := by
  rw [← parse_eq_loneDefault_iff, ← parse_eq_loneDefault_iff]
  constructor
  · intro h
    refine ⟨Set.ext fun t => ?_, by rw [h]⟩
    rw [← mem_tags_parse, h, mem_tags_parse]
  · rintro ⟨hset, hlone⟩
    refine eq_of_mem_tags_iff (canonical_parse a) (canonical_parse b) hlone fun t => ?_
    rw [mem_tags_parse, mem_tags_parse, hset]

private theorem parse_eq_fallback_iff {s : String} :
    parse s = .fallback ↔ denoted s = {fallbackName} ∧ ¬ SpellsLoneDefault s := by
  have hname : parse fallbackName = .fallback := by decide
  have hset : denoted fallbackName = {fallbackName} := by
    ext t
    rw [← mem_tags_parse, hname]
    exact List.mem_singleton
  have hlone : ¬ SpellsLoneDefault fallbackName := by
    rw [← parse_eq_loneDefault_iff, hname]
    decide
  rw [← hname, parse_eq_parse_iff, hset]
  simp only [hlone, iff_false]

section Printed

variable {print : Selector → String}
  (hread : ∀ e : Selector, e.Canonical → parse (print e) = if e = loneDefault then .fallback else e)
include hread

private theorem parse_print_iff (s : String) :
    parse (print (parse s)) = parse s ↔ ¬ SpellsLoneDefault s := by
  rw [hread _ (canonical_parse s), ← parse_eq_loneDefault_iff]
  split
  · rename_i heq
    exact iff_of_false (heq ▸ by decide) (not_not_intro heq)
  · rename_i hne
    exact iff_of_true rfl hne

private theorem nodup_print (hlone : print loneDefault = print .fallback) {es : List Selector}
    (hes : es.Nodup) (hc : ∀ e ∈ es, e.Canonical) :
    (es.map print).Nodup ↔ ¬ (.fallback ∈ es ∧ loneDefault ∈ es) := by
  constructor
  · rintro h ⟨hfallback, hdefault⟩
    exact absurd (List.inj_on_of_nodup_map h hdefault hfallback hlone) (by decide)
  · intro hnot
    refine hes.map_on fun e he f hf hsame => ?_
    have hparse := congrArg parse hsame
    rw [hread e (hc e he), hread f (hc f hf)] at hparse
    split at hparse <;> split at hparse
    · rename_i hde hdf
      rw [hde, hdf]
    · rename_i hde hdf
      exact absurd ⟨hparse ▸ hf, hde ▸ he⟩ hnot
    · rename_i hde hdf
      exact absurd ⟨hparse ▸ he, hdf ▸ hf⟩ hnot
    · exact hparse

end Printed

end Selector

namespace Setting

/-- The setting that binds strings to the selectors of texts, one after the other. -/
def spelled (name : String) (binds : List (String × List String)) : Setting :=
  binds.foldl (fun s b => s.bind (.parse b.1) b.2) ⟨name, []⟩

private theorem spelled_concat (name : String) (binds : List (String × List String))
    (b : String × List String) :
    spelled name (binds ++ [b]) = (spelled name binds).bind (.parse b.1) b.2 :=
  List.foldl_concat ..

private theorem canonical_spelled (name : String) (binds : List (String × List String)) :
    (spelled name binds).Canonical := by
  induction binds using List.reverseRecOn with
  | nil => exact ⟨by simp [spelled], by simp [spelled]⟩
  | append_singleton binds b ih =>
    rw [spelled_concat]
    exact canonical_bind b.2 (Selector.canonical_parse b.1) ih

private theorem mem_selectors_spelled {name : String} {binds : List (String × List String)}
    {e : Selector} :
    e ∈ (spelled name binds).bindings.map Binding.selector ↔ ∃ b ∈ binds, .parse b.1 = e := by
  induction binds using List.reverseRecOn with
  | nil => simp [spelled]
  | append_singleton binds b ih =>
    rw [spelled_concat, bind, selectors_bindIn]
    simp only [List.mem_append, List.mem_singleton, or_and_right, exists_or, exists_eq_left, ← ih]
    split
    · rename_i hmem
      exact ⟨Or.inl, fun h => h.elim id fun heq => heq ▸ hmem⟩
    · rw [List.mem_append, List.mem_singleton, eq_comm]

end Setting

namespace Selector

/-- Two texts spell one selector if they have the same tags, and neither or both write the
fallback's name as a conjunction. All selectors but this conjunction are read back from what is
printed for them, and the selectors of one setting are printed differently unless both meanings of
that name are among them. -/
theorem spelling_faithful (a b s name : String) (binds : List (String × List String)) :
    (parse a = parse b ↔ denoted a = denoted b ∧ (SpellsLoneDefault a ↔ SpellsLoneDefault b)) ∧
    (parse (parse s).source = parse s ↔ ¬ SpellsLoneDefault s) ∧
    (parse (parse s).compact = parse s ↔ ¬ SpellsLoneDefault s) ∧
      let ambiguous := (∃ b ∈ binds, denoted b.1 = {fallbackName} ∧ ¬ SpellsLoneDefault b.1) ∧
        ∃ b ∈ binds, SpellsLoneDefault b.1
      let selectors := (Setting.spelled name binds).bindings.map Binding.selector
      ((selectors.map source).Nodup ↔ ¬ ambiguous) ∧
        ((selectors.map compact).Nodup ↔ ¬ ambiguous) := by
  refine ⟨parse_eq_parse_iff, ?_, ?_, ?_⟩
  · exact parse_print_iff (fun _ => parse_source) s
  · exact parse_print_iff (fun _ => parse_compact) s
  · have hcanonical := Setting.canonical_spelled name binds
    have hselectors := List.forall_mem_map.mpr hcanonical.selectors
    have hambiguous : ∀ e, e ∈ (Setting.spelled name binds).bindings.map Binding.selector ↔
        ∃ b ∈ binds, parse b.1 = e := fun _ => Setting.mem_selectors_spelled
    have hsource := nodup_print (fun _ => parse_source) rfl hcanonical.distinct hselectors
    have hcompact := nodup_print (fun _ => parse_compact) rfl hcanonical.distinct hselectors
    simp only [hambiguous, parse_eq_fallback_iff, parse_eq_loneDefault_iff] at hsource hcompact
    exact ⟨hsource, hcompact⟩

/-- Written twice, the fallback's name has the same tags as written once and spells something
else, which is printed like the fallback. -/
theorem doubled_fallback_misread :
    denoted "default & default" = denoted "default" ∧
      parse "default & default" ≠ parse "default" ∧
      parse (parse "default & default").source ≠ parse "default & default" ∧
      parse (parse "default & default").compact ≠ parse "default & default" ∧
      (Setting.spelled "s" [("default", ["a"]), ("default & default", ["b"])]).bindings.map
        (fun b => b.selector.source) = ["default", "default"] := by
  refine ⟨Set.ext fun t => ?_, by decide, by decide, by decide, by decide⟩
  rw [← mem_tags_parse, ← mem_tags_parse]
  exact Iff.rfl

end Selector

end PackageScript
