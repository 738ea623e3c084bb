import PackageScript.Proofs.Failure.Context
import PackageScript.Proofs.Reading.Hints
import PackageScript.Proofs.Reading.Sections
import PackageScript.Proofs.Text.Edges
/-! The advice on a document whose sections are not as they should be. It is chosen by searching
the reason for the word `package`, so that it depends on the unknown key and on what is hinted. -/
namespace PackageScript
open Text

/-- The advice on a package that is missing or has no name. -/
def packageAdvice : String :=
  "Every hscript document needs a 'package' section with at least a 'name'"

/-- The advice on a section that is unknown. -/
def sectionAdvice : String :=
  "Valid top-level sections are: package, options, configure, build"

/-- Whether a problem is reported with this advice, whatever contexts it is wrapped in. -/
def Problem.Advised (p : Problem) (advice : String) : Prop :=
  ∀ contexts, (Failure.mk contexts (.problem p)).report.suggestion = some advice

section Advised

variable {reason : String} (contexts : List String)

private theorem suggestion_schema :
    (Failure.mk contexts (.problem (.schema reason))).report.suggestion =
      some (if Contains reason "package" then packageAdvice else sectionAdvice) := by
  have hreport : (Failure.mk contexts (.problem (.schema reason))).report.suggestion =
      (Problem.schema reason).report.suggestion :=
    Failure.suggestion_problemReport ⟨contexts, .problem (.schema reason)⟩ (.schema reason)
  rw [hreport]
  simp only [contains_iff]
  rfl

private theorem advised_packageAdvice_iff :
    (Problem.schema reason).Advised packageAdvice ↔ Contains reason "package" := by
  simp only [Problem.Advised, suggestion_schema, forall_const, Option.some.injEq]
  split
  · rename_i h
    exact iff_of_true rfl h
  · rename_i h
    exact iff_of_false (by decide) h

private theorem advised_sectionAdvice_iff :
    (Problem.schema reason).Advised sectionAdvice ↔ ¬ Contains reason "package" := by
  simp only [Problem.Advised, suggestion_schema, forall_const, Option.some.injEq]
  split
  · rename_i h
    exact iff_of_false (by decide) (not_not_intro h)
  · rename_i h
    exact iff_of_true rfl h

end Advised

namespace Reading
open Yaml Checked

section Hinted

variable {what word name : String}

private theorem contains_hint_iff (hwhat : ¬ Contains ("unknown " ++ what ++ " ") "package") :
    Contains (hint what word name) "package" ↔
      Contains word "package" ∨ Contains name "package" := by
  have hpieces : (hint what word name).toList =
      ("unknown " ++ what ++ " ").toList ++ '\'' ::
        (word.toList ++ '\'' :: (" (did you mean ".toList ++ '\'' ::
          (name.toList ++ '\'' :: "?)".toList))) := by
    simp [hint]
  -- The word has no quotation mark, so it lies within one of the pieces between them.
  have hmark : '\'' ∉ "package".toList := by decide
  have hmiddle : ¬ "package".toList <:+: " (did you mean ".toList := by decide
  have hend : ¬ "package".toList <:+: "?)".toList := by decide
  rw [Contains] at hwhat
  rw [Contains, hpieces, infix_append_cons_iff hmark, infix_append_cons_iff hmark,
    infix_append_cons_iff hmark, infix_append_cons_iff hmark]
  simp only [hwhat, hmiddle, hend, false_or, or_false]
  rfl

/-- Whether a section other than the package is hinted for a word that has nothing of it. -/
def OtherHinted (word : String) : Prop :=
  ¬ Contains word "package" ∧ ∃ name ∈ ["options", "configure", "build"],
    ∃ distance ≤ word.utf8ByteSize / 2, Nearest word sectionNames name distance

private theorem contains_listing (what word : String) :
    Contains (listing what word sectionNames) "package" :=
  Contains.append_right (by decide) _

private theorem other_iff :
    ∀ name ∈ sectionNames, name ∈ ["options", "configure", "build"] ↔ ¬ Contains name "package" := by
  decide

private theorem contains_unknownName_iff :
    Contains (unknownName "top-level section" word sectionNames) "package" ↔
      ¬ OtherHinted word := by
  simp only [OtherHinted, ← nearestName?_eq_some_iff]
  -- what is hinted decides: without a hint all sections are listed, the package among them
  cases hname : nearestName? word sectionNames with
  | none =>
    have hlisting : unknownName "top-level section" word sectionNames =
        listing "top-level section" word sectionNames := by
      rw [unknownName_eq_listing_iff]
      simp [← nearestName?_eq_some_iff, hname]
    rw [hlisting]
    exact iff_of_true (contains_listing _ _) (by simp)
  | some name =>
    have hhint : unknownName "top-level section" word sectionNames =
        hint "top-level section" word name :=
      (unknownName_eq_hint_iff _ _ _ name).mpr (nearestName?_eq_some_iff.mp hname)
    obtain ⟨_, -, hnearest⟩ := nearestName?_eq_some_iff.mp hname
    rw [hhint, contains_hint_iff (by decide)]
    simp only [Option.some.injEq, exists_eq_right', other_iff name hnearest.mem, not_and_not_right,
      or_iff_not_imp_left]

end Hinted

section Unknown

variable {t : Tree} {root : Tree.Entries} {word : String}

/-- The first key that names no section is this word. -/
def FirstUnknown (root : Tree.Entries) (word : String) : Prop :=
  ∃ before key value after, root = before ++ (key, value) :: after ∧
    (∀ e ∈ before, NamesSection e.1) ∧ key.string? = some word ∧ word ∉ sectionNames

private theorem checkSectionNames_of_firstUnknown (h : FirstUnknown root word) :
    checkSectionNames root =
      .fail (.schema (unknownName "top-level section" word sectionNames)) := by
  obtain ⟨before, key, value, after, rfl, hbefore, hkey, hword⟩ := h
  rw [checkSectionNames_append hbefore, checkSectionNames, keyText, hkey, ofOption_some, ok_then,
    if_neg hword]

private theorem outcome_of_firstUnknown (hroot : t.entries? = some root)
    (h : FirstUnknown root word) :
    (descriptor t).outcome =
      .error (.schema (unknownName "top-level section" word sectionNames)) := by
  rw [descriptor, hroot, ofOption_some, ok_then, checkSectionNames_of_firstUnknown h]
  rfl

end Unknown

section Unnamed

variable {t : Tree} {root entries : Tree.Entries}

/-- Whether the entries of a package have no name for it, or nothing or blanks only. -/
def Nameless (entries : Tree.Entries) : Prop :=
  ∀ value, Tree.lookup? "name" entries = some value →
    value = .null ∨ ∃ name, value = .text name ∧ ∀ c ∈ name.toList, isBlank c = true

/-- Whether a document has no package, or one without a name. -/
def Unnamed (root : Tree.Entries) : Prop :=
  ∀ part, Tree.lookup? "package" root = some part →
    ∃ entries, part.entries? = some entries ∧ Nameless entries

/-- The reasons to refuse a document because of its package or its name. -/
def missingReasons : List String :=
  ["missing mandatory package section", "missing mandatory 'name' in package section",
    "package name must not be empty"]

private theorem contains_of_mem_missingReasons :
    ∀ reason ∈ missingReasons, Contains reason "package" := by
  decide

private theorem packageName_of_nameless (h : Nameless entries) :
    ∃ reason ∈ missingReasons, packageName entries = .fail (.schema reason) := by
  rw [packageName]
  cases hname : Tree.lookup? "name" entries with
  | none => exact ⟨_, by decide, rfl⟩
  | some value =>
    rcases h value hname with rfl | ⟨name, rfl, hblank⟩
    · exact ⟨_, by decide, rfl⟩
    · exact ⟨_, by decide, if_pos (isEmpty_trim_iff.mpr hblank)⟩

private theorem outcome_of_unnamed (hroot : t.entries? = some root)
    (hnames : ∀ e ∈ root, NamesSection e.1) (h : Unnamed root) :
    ∃ reason ∈ missingReasons, (descriptor t).outcome = .error (.schema reason) := by
  rw [descriptor, hroot, ofOption_some, ok_then, checkSectionNames_of_forall hnames, ok_then]
  cases hpart : Tree.lookup? "package" root with
  | none => exact ⟨_, by decide, rfl⟩
  | some part =>
    obtain ⟨entries, hentries, hnameless⟩ := h part hpart
    obtain ⟨reason, hreason, hname⟩ := packageName_of_nameless hnameless
    refine ⟨reason, hreason, ?_⟩
    rw [ofOption_some, ok_then, package, hentries, ofOption_some, ok_then, hname]
    rfl

end Unnamed

/-- A document whose first unknown key is a string is refused. The advice on it lists the sections
exactly if another section than the package is hinted for the key, which has nothing of the package
in it; otherwise it asks for a package. A document whose keys are all known, without a package or
without a name for it, is refused with the advice to add them. -/
theorem section_advice_iff {t : Tree} {root : Tree.Entries} (hroot : t.entries? = some root) :
    (∀ word, FirstUnknown root word → ∃ p, (descriptor t).outcome = .error p ∧
      (p.Advised sectionAdvice ↔ OtherHinted word) ∧
      (p.Advised packageAdvice ↔ ¬ OtherHinted word)) ∧
    ((∀ e ∈ root, NamesSection e.1) → Unnamed root →
      ∃ p, (descriptor t).outcome = .error p ∧ p.Advised packageAdvice) := by
  constructor
  · intro word h
    refine ⟨_, outcome_of_firstUnknown hroot h, ?_, ?_⟩
    · rw [advised_sectionAdvice_iff, contains_unknownName_iff, not_not]
    · rw [advised_packageAdvice_iff, contains_unknownName_iff]
  · intro hnames h
    obtain ⟨reason, hreason, hp⟩ := outcome_of_unnamed hroot hnames h
    exact ⟨_, hp, advised_packageAdvice_iff.mpr (contains_of_mem_missingReasons reason hreason)⟩

/-- The key `option` is told the sections; an empty document is told to have a package. -/
theorem section_advice_iff_option :
    (∃ p, (descriptor (.map [(.text "option", .null)])).outcome = .error p ∧
      p.Advised sectionAdvice) ∧
      ∃ p, (descriptor (.map [])).outcome = .error p ∧ p.Advised packageAdvice := by
  have hhinted : OtherHinted "option" :=
    ⟨by decide, "options", by decide, nearestName?_eq_some_iff.mp (by decide)⟩
  have hfirst : FirstUnknown [(.text "option", .null)] "option" :=
    ⟨[], _, _, [], rfl, by simp, rfl, by decide⟩
  obtain ⟨p, hp, hadvised, -⟩ :=
    (section_advice_iff (t := .map [(.text "option", .null)]) rfl).1 "option" hfirst
  exact ⟨⟨p, hp, hadvised.mpr hhinted⟩,
    (section_advice_iff (t := .map []) rfl).2 (by simp) fun _ hpart => by cases hpart⟩

/-- The key `foo` is nowhere near a section, so that all of them are listed, the package first. -/
theorem section_advice_misleads :
    ¬ ∀ (t : Tree) (root : Tree.Entries) (word : String), t.entries? = some root →
      FirstUnknown root word →
        ∃ p, (descriptor t).outcome = .error p ∧ p.Advised sectionAdvice := by
  intro h
  have hfirst : FirstUnknown [(.text "package", .map [(.text "name", .text "p")]),
      (.text "foo", .map [])] "foo" :=
    ⟨[_], _, _, [], rfl, by simp [NamesSection, sectionNames], rfl, by decide⟩
  obtain ⟨p, hp, hadvised⟩ := h (.map _) _ "foo" rfl hfirst
  obtain rfl := Except.error.inj (hp.symm.trans (outcome_of_firstUnknown rfl hfirst))
  exact advised_sectionAdvice_iff.mp hadvised (by decide)

end Reading
end PackageScript
