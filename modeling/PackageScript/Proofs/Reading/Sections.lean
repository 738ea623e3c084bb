import PackageScript.Proofs.Reading.Entries
/-! The sections of a document: which keys name one, and which values become a part of the
descriptor. -/
namespace PackageScript.Reading
open Yaml Checked

/-- A value and what is read from it: the default for nothing, and for a map what is read from its
entries. -/
def Gives {α : Type} (read : Tree.Entries → Checked α) (default : α) (value : Tree) (a : α) : Prop :=
  value = .null ∧ a = default ∨ ∃ entries, value = .map entries ∧ (read entries).outcome = .ok a

/-- A value that gives the section of this name. -/
structure GivesSection (name : String) (value : Tree) (d : Descriptor) : Prop where
  options : name = "options" → Gives options {} value d.options
  configure : name = "configure" → Gives configure {} value d.configuration
  build : name = "build" → Gives build {} value d.build

/-- Whether a key, under its tags, is the name of a section. -/
def NamesSection (key : Tree) : Prop :=
  ∃ name ∈ sectionNames, key.string? = some name

section Names

variable {root root' before after : Tree.Entries}

/-- Keys that name a section are passed over. -/
theorem checkSectionNames_append (h : ∀ e ∈ before, NamesSection e.1) :
    checkSectionNames (before ++ after) = checkSectionNames after := by
  induction before with
  | nil => rfl
  | cons e rest ih =>
    obtain ⟨⟨name, hname, hkey⟩, hrest⟩ := List.forall_mem_cons.mp h
    rw [List.cons_append, checkSectionNames, keyText, hkey, ofOption_some, ok_then, if_pos hname,
      ih hrest]

/-- Keys that all name sections are accepted. -/
theorem checkSectionNames_of_forall (h : ∀ e ∈ root, NamesSection e.1) :
    checkSectionNames root = ok () := by
  rw [← List.append_nil root, checkSectionNames_append h]
  rfl

/-- The check succeeds exactly if every key names a section. -/
theorem succeeds_checkSectionNames_iff :
    (checkSectionNames root).Succeeds ↔ ∀ e ∈ root, NamesSection e.1 := by
  induction root with
  | nil => simp [checkSectionNames]
  | cons e rest ih =>
    obtain ⟨key, value⟩ := e
    rw [checkSectionNames, succeeds_bind, List.forall_mem_cons, ← ih]
    simp only [keyText, outcome_ofOption]
    constructor
    · rintro ⟨name, hname, h⟩
      split at h
      · rename_i hmem
        exact ⟨⟨name, hmem, hname⟩, h⟩
      · simp at h
    · rintro ⟨⟨name, hmem, hname⟩, h⟩
      exact ⟨name, hname, by rwa [if_pos hmem]⟩

/-- Only the keys are looked at. -/
theorem checkSectionNames_congr (h : root.map Prod.fst = root'.map Prod.fst) :
    checkSectionNames root = checkSectionNames root' := by
  induction root generalizing root' with
  | nil =>
    rw [List.map_nil, eq_comm, List.map_eq_nil_iff] at h
    rw [h]
  | cons e rest ih =>
    cases root' with
    | nil => cases h
    | cons f rest' =>
      obtain ⟨hkey, hrest⟩ := List.cons.inj h
      rw [checkSectionNames, checkSectionNames, hkey, ih hrest]

end Names

section Descriptor

variable {t : Tree} {root root' : Tree.Entries}

private theorem descriptor_of_entries? (h : t.entries? = some root) :
    descriptor t = descriptor (.map root) := by
  rw [descriptor, descriptor, h, Tree.entries?_map, ofOption_some, ofOption_some]

private theorem readSection_congr {α : Type} {name : String} (default : α)
    (read : Tree.Entries → Checked α) (h : Tree.lookup? name root = Tree.lookup? name root') :
    readSection root name default read = readSection root' name default read := by
  rw [readSection, readSection, h]

/-- The descriptor depends on the keys of the root and on what is found under the names of the
sections. -/
theorem descriptor_congr (hkeys : root.map Prod.fst = root'.map Prod.fst)
    (hvalues : ∀ name ∈ sectionNames, Tree.lookup? name root = Tree.lookup? name root') :
    descriptor (.map root) = descriptor (.map root') := by
  rw [descriptor, descriptor, Tree.entries?_map, Tree.entries?_map, ofOption_some, ofOption_some,
    ok_then, ok_then, checkSectionNames_congr hkeys, hvalues "package" (by decide),
    readSection_congr {} options (hvalues "options" (by decide)),
    readSection_congr {} configure (hvalues "configure" (by decide)),
    readSection_congr {} build (hvalues "build" (by decide))]

private theorem gives_of_readSection {α : Type} {name : String} {default a : α}
    {read : Tree.Entries → Checked α} {value : Tree} (hlookup : Tree.lookup? name root = some value)
    (h : (readSection root name default read).outcome = .ok a) : Gives read default value a := by
  rw [readSection, hlookup] at h
  cases value with
  | null => exact Or.inl ⟨rfl, (outcome_ok.mp h).symm⟩
  | map entries => exact Or.inr ⟨entries, rfl, h⟩
  | _ => simp at h

/-- What stands under the name of a section gives it. -/
theorem givesSection_of_mem {d : Descriptor} {value : Tree} {name : String}
    (h : (descriptor t).outcome = .ok d) (hroot : t.entries? = some root)
    (hdistinct : Tree.DistinctKeys root) (hmem : (.text name, value) ∈ root) :
    GivesSection name value d := by
  obtain ⟨root', part, hroot', -, -, -, ho, hc, hb⟩ := descriptor_eq_ok.mp h
  obtain rfl : root' = root := Option.some.inj (hroot'.symm.trans hroot)
  have hlookup := Tree.lookup?_of_mem_text hdistinct hmem
  constructor
  · rintro rfl
    exact gives_of_readSection hlookup ho
  · rintro rfl
    exact gives_of_readSection hlookup hc
  · rintro rfl
    exact gives_of_readSection hlookup hb

end Descriptor

section Replaced

variable {before after : Tree.Entries} {key value other : Tree} {name : String}

private theorem keys_replaced : (before ++ (key, other) :: after).map Prod.fst =
    (before ++ (key, value) :: after).map Prod.fst := by
  rw [List.map_append, List.map_append, List.map_cons, List.map_cons]

private theorem distinctKeys_iff {es : Tree.Entries} : Tree.DistinctKeys es ↔
    (es.map Prod.fst).Pairwise fun a b => a.same b = false := by
  rw [List.pairwise_map, Tree.DistinctKeys]

private theorem distinctKeys_replaced (h : Tree.DistinctKeys (before ++ (key, value) :: after)) :
    Tree.DistinctKeys (before ++ (key, other) :: after) := by
  rw [distinctKeys_iff] at h ⊢
  rwa [keys_replaced]

private theorem descriptor_replaced (hkey : ∀ name, key ≠ .text name) :
    descriptor (.map (before ++ (key, other) :: after)) =
      descriptor (.map (before ++ (key, value) :: after)) :=
  descriptor_congr keys_replaced fun name _ => by
    rw [Tree.lookup?_append_cons_of_ne (hkey name), Tree.lookup?_append_cons_of_ne (hkey name)]

private theorem not_gives_bool {α : Type} {read : Tree.Entries → Checked α} {default a : α}
    {b : Bool} : ¬ Gives read default (.bool b) a := by
  rintro (⟨hnull, -⟩ | ⟨entries, hmap, -⟩)
  · cases hnull
  · cases hmap

private theorem not_givesSection_bool {d : Descriptor} {b : Bool}
    (hname : name ∈ ["options", "configure", "build"]) : ¬ GivesSection name (.bool b) d := by
  intro h
  simp only [List.mem_cons, List.not_mem_nil, or_false] at hname
  rcases hname with hname | hname | hname
  · exact not_gives_bool (h.options hname)
  · exact not_gives_bool (h.configure hname)
  · exact not_gives_bool (h.build hname)

end Replaced

/-- In a document that is accepted, the value under a key that the check of the section names takes
for that of a section gives the section if the key has no tag. The value does not matter for the
descriptor, nor for the warnings, exactly if the key has one. -/
theorem section_given_iff {t : Tree} {d : Descriptor} {key value : Tree} {name : String}
    (before after : Tree.Entries) (h : (descriptor t).outcome = .ok d)
    (hroot : t.entries? = some (before ++ (key, value) :: after))
    (hdistinct : Tree.DistinctKeys (before ++ (key, value) :: after))
    (hkey : key.string? = some name) (hname : name ∈ ["options", "configure", "build"]) :
    (key = .text name → GivesSection name value d) ∧
      ((∀ other, descriptor (.map (before ++ (key, other) :: after)) = descriptor t) ↔
        key ≠ .text name) := by
  refine ⟨?_, ?_, ?_⟩
  · rintro rfl
    exact givesSection_of_mem h hroot hdistinct List.mem_append_cons_self
  · rintro hother rfl
    -- under a plain key, a boolean is refused
    have hbool : (descriptor (.map (before ++ (.text name, .bool true) :: after))).outcome = .ok d := by
      rw [hother, h]
    have hmem : (.text name, .bool true) ∈ before ++ (.text name, Tree.bool true) :: after :=
      List.mem_append_cons_self
    exact not_givesSection_bool hname
      (givesSection_of_mem hbool rfl (distinctKeys_replaced hdistinct) hmem)
  · intro hne other
    have htagged : ∀ name, key ≠ .text name := by
      rintro name' rfl
      exact hne (congrArg Tree.text (Option.some.inj hkey))
    rw [descriptor_of_entries? hroot]
    exact descriptor_replaced htagged

def taggedSection (value : Tree) : Tree :=
  .map [(.text "package", .map [(.text "name", .text "p")]),
    (.text "configure", .map [(.text "apply-tags", .text "fast")]),
    (.tagged "!x" (.text "build"), value)]

def taggedSectionDescriptor : Descriptor where
  package := { name := "p" }
  configuration := { statements := [.applyTag "fast"] }

private theorem distinctKeys_taggedSection (value : Tree) :
    Tree.DistinctKeys [(.text "package", .map [(.text "name", .text "p")]),
      (.text "configure", .map [(.text "apply-tags", .text "fast")]),
      (.tagged "!x" (.text "build"), value)] := by
  simp [Tree.DistinctKeys, Tree.same]

/-- One of them is read, the other one may be anything. -/
theorem section_given_iff_tagged :
    GivesSection "configure" (.map [(.text "apply-tags", .text "fast")]) taggedSectionDescriptor ∧
      ∀ value, descriptor (taggedSection value) = descriptor (taggedSection .null) := by
  have hread : (descriptor (taggedSection .null)).outcome = .ok taggedSectionDescriptor := rfl
  have hdistinct := distinctKeys_taggedSection .null
  have hplain := section_given_iff [_] [_] hread rfl hdistinct rfl (by decide)
  have htagged := section_given_iff [_, _] [] hread rfl hdistinct rfl (by decide)
  exact ⟨hplain.1 rfl, htagged.2.mpr (by simp)⟩

/-- A target in the tagged section is left out. -/
theorem section_not_given :
    ¬ ∀ (t : Tree) (d : Descriptor) (before after : Tree.Entries) (key value : Tree) (name : String),
      (descriptor t).outcome = .ok d → t.entries? = some (before ++ (key, value) :: after) →
        Tree.DistinctKeys (before ++ (key, value) :: after) → key.string? = some name →
        name ∈ ["options", "configure", "build"] → GivesSection name value d := by
  intro h
  have hbuild := h (taggedSection (.map [(.text "t", .map [(.text "source", .text "a.c")])]))
    taggedSectionDescriptor [_, _] [] _ _ "build" rfl rfl (distinctKeys_taggedSection _) rfl
    (by decide)
  rcases hbuild.build rfl with ⟨hnull, -⟩ | ⟨entries, hmap, hread⟩
  · cases hnull
  · cases hmap
    cases hread

end PackageScript.Reading
