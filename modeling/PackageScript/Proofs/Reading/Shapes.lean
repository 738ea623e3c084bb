import PackageScript.Proofs.Checked.Success
import PackageScript.Proofs.Reading.Grammar
/-! When the values of a descriptor's tree are read: scalars and their lists, settings, and what
stands under a key. -/
namespace PackageScript.Reading
open Yaml Checked Grammar

section Scalars

variable {path : String} {t : Tree}

/-- Scalars are the trees that have a text. -/
theorem isScalar_iff : IsScalar t ↔ ∃ text, t.scalarText? = some text := by
  cases t <;> simp [IsScalar, Tree.scalarText?]

private theorem succeeds_scalarTexts {items : List Tree} :
    (scalarTexts path items).Succeeds ↔ ∀ t ∈ items, IsScalar t := by
  induction items with
  | nil => simp [scalarTexts]
  | cons item rest ih =>
    rw [scalarTexts, succeeds_bind, List.forall_mem_cons, ← ih, isScalar_iff]
    simp only [succeeds_bind, outcome_ofOption, pure_def, succeeds_mk_ok, and_true,
      exists_and_right]
    rfl

/-- Strings are read from nothing or from a list of scalars. -/
theorem succeeds_strings : (strings path t).Succeeds ↔ OptionalList IsScalar t := by
  cases t <;> simp [strings, OptionalList, succeeds_scalarTexts]

/-- One or more strings are read from nothing, from a scalar or from a list of scalars. -/
theorem succeeds_oneOrMore : (oneOrMore path t).Succeeds ↔ OneOrMore t := by
  cases t <;> simp [oneOrMore, OneOrMore, OptionalList, IsScalar, Tree.scalarText?,
    succeeds_scalarTexts, succeeds_bind]

theorem succeeds_version :
    (version path t).Succeeds ↔ t = .null ∨ IsScalar t := by
  cases t <;> simp [version, IsScalar, Tree.scalarText?, succeeds_bind]

end Scalars

section Settings

variable {path : String} {t : Tree}

private theorem forall_of_leafTextsOf {items : List Tree} {texts : List String}
    (h : Tree.leafTextsOf items = .ok texts) : ∀ t ∈ items, ∃ texts, t.leafTexts = .ok texts := by
  induction items generalizing texts with
  | nil => exact List.forall_mem_nil _
  | cons t rest ih =>
    rw [Tree.leafTextsOf] at h
    rcases ht : t.leafTexts with part | first
    · rw [ht] at h
      cases h
    rcases hrest : Tree.leafTextsOf rest with part | more
    · rw [ht, hrest] at h
      cases h
    exact List.forall_mem_cons.mpr ⟨⟨first, ht⟩, ih hrest⟩

private theorem texts_of_scalarText? {text : String} (h : t.scalarText? = some text) :
    texts t = [text] := by
  cases t <;> simp_all [texts, scalars, Tree.scalarText?]

private theorem leafTextsOf_of_forall {items : List Tree}
    (h : ∀ t ∈ items, t.leafTexts = .ok (texts t)) :
    Tree.leafTextsOf items = .ok ((scalarsOf items).filterMap Tree.scalarText?) := by
  induction items with
  | nil => rfl
  | cons t rest ih =>
    obtain ⟨ht, hrest⟩ := List.forall_mem_cons.mp h
    rw [Tree.leafTextsOf, ht, ih hrest, scalarsOf, List.filterMap_append]
    rfl

/-- The texts of a nest are those that are read from it. -/
theorem leafTexts_of_nest (h : Nest t) : t.leafTexts = .ok (texts t) := by
  induction h with
  | null => rfl
  | @scalar t h =>
    obtain ⟨text, htext⟩ := isScalar_iff.mp h
    rw [texts_of_scalarText? htext]
    cases t <;> simp_all [Tree.leafTexts, Tree.scalarText?]
  | list _ ih => exact leafTextsOf_of_forall ih

/-- Nested lists have leaf texts exactly if they are nests. -/
theorem leafTexts_eq_ok : (∃ texts, t.leafTexts = .ok texts) ↔ Nest t := by
  constructor
  · refine Tree.leafTexts.induct (fun t => (∃ texts, t.leafTexts = .ok texts) → Nest t)
      (fun items => ∀ t ∈ items, (∃ texts, t.leafTexts = .ok texts) → Nest t)
      ?null ?list ?scalar ?other ?nil ?cons t
    case null => exact fun _ => .null
    case list =>
      rintro items ih ⟨texts, h⟩
      exact .list fun t ht => ih t ht (forall_of_leafTextsOf h t ht)
    case scalar => exact fun t _ _ s hs _ => .scalar (isScalar_iff.mpr ⟨s, hs⟩)
    case other =>
      rintro t hnull hlist hs ⟨texts, h⟩
      cases t with
      | null => exact (hnull rfl).elim
      | list items => exact (hlist items rfl).elim
      | _ => simp_all [Tree.leafTexts]
    case nil => simp
    case cons => exact fun t rest ht hrest => List.forall_mem_cons.mpr ⟨ht, hrest⟩
  · exact fun h => ⟨texts t, leafTexts_of_nest h⟩

/-- Nests are read, and nothing else. -/
theorem succeeds_leaves {expected : String} : (leaves path expected t).Succeeds ↔ Nest t := by
  rw [← leafTexts_eq_ok, leaves]
  rcases t.leafTexts with part | texts <;> simp

/-- A setting is read from a nest or from a map of nests, and from nothing else. -/
theorem succeeds_setting {name : String} : (setting name path t).Succeeds ↔ FieldValue t := by
  have hplain : (do return Setting.plain name (← leaves path nestedStrings t) :
      Checked Setting).Succeeds ↔ Nest t := by
    rw [succeeds_bind_of_forall (by simp), succeeds_leaves]
  cases t with
  | map entries =>
    refine succeeds_foldlM (I := fun _ => True) (fun s e _ _ => ?_) (fun _ _ _ _ _ _ => trivial)
      trivial
    rw [bindEntry, succeeds_bind, isScalar_iff, ← exists_and_right]
    simp only [outcome_ofOption]
    refine exists_congr fun source => and_congr_right fun _ => ?_
    rw [succeeds_bind_of_forall (by simp), succeeds_leaves]
  | _ => exact hplain

end Settings

section Keys

variable {path : String} {t : Tree}

theorem keyText_eq_ok (ht : t.Untagged) {key : String} :
    (keyText path t).outcome = .ok key ↔ t = .text key := by
  rw [keyText, outcome_ofOption, ht.string?_eq_some]

theorem singleEntry_eq_ok {e : Tree × Tree} :
    (singleEntry path t).outcome = .ok e ↔ t = .map [e] := by
  unfold singleEntry
  split
  · simp
  · simp
  · rename_i entries hone hnone
    refine iff_of_false (by simp) fun h => ?_
    cases h
    exact hone e rfl
  · rename_i hmap
    exact iff_of_false (by simp) fun h => hmap _ h

/-- What is read from an entry under a string key succeeds if the key is a string and the rest
succeeds on it. -/
theorem succeeds_keyText {α : Type} {f : String → Checked α} {P : String → Prop}
    (ht : t.Untagged) (hf : ∀ key, t = .text key → ((f key).Succeeds ↔ P key)) :
    (keyText path t >>= f).Succeeds ↔ ∃ key, t = .text key ∧ P key := by
  rw [succeeds_bind]
  simp only [keyText_eq_ok ht]
  exact exists_congr fun key => and_congr_right (hf key)

/-- What is read from the only entry of a map succeeds if there is one under a string key and the
rest succeeds on both. -/
theorem succeeds_single {α : Type} {path path' : String} {g : Tree × Tree → Checked α}
    {f : String → Tree → Checked α} {P : String → Tree → Prop} (ht : t.Untagged)
    (hg : ∀ key value, g (key, value) = keyText path' key >>= fun name => f name value)
    (hf : ∀ key value, value.Untagged → ((f key value).Succeeds ↔ P key value)) :
    (singleEntry path t >>= g).Succeeds ↔ Single P t := by
  rw [succeeds_bind, Single]
  simp only [singleEntry_eq_ok]
  constructor
  · rintro ⟨⟨key, value⟩, rfl, h⟩
    obtain ⟨hkey, hvalue⟩ : key.Untagged ∧ value.Untagged := by simpa using ht
    rw [hg, succeeds_keyText hkey fun name _ => hf name value hvalue] at h
    obtain ⟨name, rfl, h⟩ := h
    exact ⟨name, value, rfl, h⟩
  · rintro ⟨key, value, rfl, h⟩
    have hvalue : value.Untagged := by simpa using ht
    refine ⟨_, rfl, ?_⟩
    rw [hg, succeeds_keyText (.text key) fun name _ => hf name value hvalue]
    exact ⟨key, rfl, h⟩

end Keys

section Phases

/-- An entry of a section with a phase is read if it suits the phase, or else what is tried after
that. -/
theorem succeeds_phaseEntry {α : Type} {t : Tree} {phase : Phase} {key sectionName : String}
    {f : Option Phase → Checked α} {P : Prop} (hsome : ∀ phase, (f (some phase)).Succeeds)
    (hphase : key = "tools" ∨ key = "hwaf-call" → (P ↔ OptionalList IsScalar t))
    (hother : ¬(key = "tools" ∨ key = "hwaf-call") → ((f none).Succeeds ↔ P)) :
    (phaseEntry phase key sectionName t >>= f).Succeeds ↔ P := by
  unfold phaseEntry
  split
  · rw [bind_assoc, succeeds_bind_of_forall fun tools => ?_, succeeds_strings,
      hphase (Or.inl rfl)]
    exact (pure_bind _ f).symm ▸ hsome _
  · rw [bind_assoc, succeeds_bind_of_forall fun hooks => ?_, succeeds_strings,
      hphase (Or.inr rfl)]
    exact (pure_bind _ f).symm ▸ hsome _
  · rename_i htools hcall
    rw [pure_bind]
    exact hother fun h => h.elim htools hcall

private theorem succeeds_optionsEntry (phase : Phase) {e : Tree × Tree} (he : e.1.Untagged) :
    (optionsEntry phase e).Succeeds ↔ ∃ key, e.1 = .text key ∧ PhaseEntry key e.2 := by
  refine succeeds_keyText he fun key _ => ?_
  refine succeeds_phaseEntry (by simp) (fun hkey => ?_) fun hkey => ?_
  · simp [PhaseEntry, hkey]
  · exact iff_of_true ((succeeds_bind_of_forall (by simp)).mpr (succeeds_warn _))
      fun h => absurd h hkey

/-- The options are read exactly if each entry suits the phase. -/
theorem succeeds_options {entries : Tree.Entries} (ht : ∀ e ∈ entries, e.1.Untagged) :
    (options entries).Succeeds ↔ Keyed PhaseEntry entries := by
  refine succeeds_foldlM (I := fun _ => True) (fun phase e he _ => ?_)
    (fun _ _ _ _ _ _ => trivial) trivial
  exact succeeds_optionsEntry phase (ht e he)

end Phases

end PackageScript.Reading
