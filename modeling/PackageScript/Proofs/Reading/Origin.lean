import PackageScript.Proofs.Reading.Canonical
import PackageScript.Proofs.Yaml.Keys
/-! Where the parts of a descriptor stand in the tree that it is read from. -/
namespace PackageScript

def Statement.setting? : Statement → Option Setting
  | .change _ s => some s
  | _ => none

/-- All settings of a descriptor: those of its statements and those of its targets. -/
def Descriptor.settings (d : Descriptor) : List Setting :=
  d.configuration.statements.filterMap Statement.setting? ++
    d.build.targets.flatMap fun t => t.fields ++ t.extensions

/-- A target that sets each name once. -/
structure Target.Distinct (t : Target) : Prop where
  fields : (t.fields.map Setting.name).Nodup
  extensions : (t.extensions.map Setting.name).Nodup

/-- A build with targets of different names, each of which sets each name once. -/
structure Build.Distinct (b : Build) : Prop where
  names : (b.targets.map Target.name).Nodup
  targets : ∀ t ∈ b.targets, t.Distinct

namespace Reading
open Yaml Checked

def sectionEntries (name : String) (t : Tree) : Tree.Entries :=
  match Tree.lookup? name (t.entries?.getD []) with
  | some part => part.entries?.getD []
  | none => []

/-- The entries of a section are those under its name at the root, or none. -/
theorem sectionEntries_cases (name : String) (t : Tree) :
    sectionEntries name t = [] ∨ ∃ root part, t.entries? = some root ∧ (.text name, part) ∈ root ∧
      part.entries? = some (sectionEntries name t) := by
  rw [sectionEntries]
  cases hroot : t.entries? with
  | none => exact Or.inl rfl
  | some root =>
    rw [Option.getD_some]
    split
    · rename_i part hpart
      cases hes : part.entries? with
      | none => exact Or.inl rfl
      | some es => exact Or.inr ⟨root, part, rfl, Tree.mem_of_lookup? hpart, hes⟩
    · exact Or.inl rfl

def itemTrees (items : List Tree) : List Tree :=
  (items.flatMap fun item => item.entries?.getD []).flatMap fun e =>
    (e.2.entries?.getD []).map Prod.snd

def changeTrees (entries : Tree.Entries) : List Tree :=
  match Tree.lookup? "statements" entries with
  | some (.list items) => itemTrees items
  | _ => []

def statementTrees (t : Tree) : List Tree :=
  changeTrees (sectionEntries "configure" t)

def treesBeyond (reserved : List String) (entries : Tree.Entries) : List Tree :=
  (entries.filter fun e => !e.1.string?.any (· ∈ reserved)).map Prod.snd

def targetTrees (t : Tree) : List Tree :=
  (treesBeyond Build.reservedKeys (sectionEntries "build" t)).flatMap fun target =>
    treesBeyond Target.reservedKeys (target.entries?.getD [])

def settingTrees (t : Tree) : List Tree :=
  statementTrees t ++ targetTrees t

/-- The tag expressions that are keys of the tree of a setting. -/
def expressions : Tree → List String
  | .map entries => entries.filterMap fun e => e.1.scalarText?
  | _ => []

/-- A field of a target changes no settings, or it adds the setting that is read from it. -/
theorem targetField_cases {t t' : Target} {entry : Tree × Tree}
    (h : (targetField t entry).outcome = .ok t') :
    (t'.fields = t.fields ∧ t'.extensions = t.extensions) ∨
      ∃ field path s, entry.1.string? = some field ∧ field ∉ Target.reservedKeys ∧
        (setting field path entry.2).outcome = .ok s ∧
        (t'.fields = t.fields ++ [s] ∧ t'.extensions = t.extensions ∨
          t'.fields = t.fields ∧ t'.extensions = t.extensions ++ [s]) := by
  obtain ⟨field, hfield, h⟩ := outcome_bind.mp h
  simp only at h
  split at h
  · obtain ⟨texts, -, h⟩ := outcome_bind.mp h
    cases h
    exact Or.inl ⟨rfl, rfl⟩
  · obtain ⟨name, -, h⟩ := outcome_bind.mp h
    split at h
    · cases h
      exact Or.inl ⟨rfl, rfl⟩
    · simp at h
  · obtain ⟨output, -, h⟩ := outcome_bind.mp h
    cases h
    exact Or.inl ⟨rfl, rfl⟩
  · rename_i hfeatures hname htarget
    obtain ⟨s, hs, h⟩ := outcome_bind.mp h
    refine Or.inr ⟨field, _, s, outcome_ofOption.mp hfield, ?_, hs, ?_⟩
    · simpa [Target.reservedKeys] using ⟨hfeatures, hname, htarget⟩
    · split at h <;> cases h
      · exact Or.inl ⟨rfl, rfl⟩
      · exact Or.inr ⟨rfl, rfl⟩

/-- An entry of the build section adds no target, or the one that is read from it. -/
theorem buildEntry_cases {b b' : Build} {entry : Tree × Tree}
    (h : (buildEntry b entry).outcome = .ok b') :
    b'.targets = b.targets ∨
      ∃ key fields t, entry.1.string? = some key ∧ key ∉ Build.reservedKeys ∧
        entry.2.entries? = some fields ∧ (target key fields).outcome = .ok t ∧
        b'.targets = b.targets ++ [t] := by
  obtain ⟨key, hkey, h⟩ := outcome_bind.mp h
  obtain ⟨phase?, hphase, h⟩ := outcome_bind.mp h
  cases phase? with
  | some phase =>
    cases h
    exact Or.inl rfl
  | none =>
    obtain ⟨htools, hcall⟩ := phaseEntry_eq_none hphase
    simp only at h
    split at h
    · obtain ⟨_, -, h⟩ := outcome_bind.mp h
      cases h
      exact Or.inl rfl
    · rename_i henv
      obtain ⟨fields, hfields, h⟩ := outcome_bind.mp h
      obtain ⟨t, ht, h⟩ := outcome_bind.mp h
      refine Or.inr ⟨key, fields, t, outcome_ofOption.mp hkey, ?_, outcome_ofOption.mp hfields,
        ht, ?_⟩
      · simpa [Build.reservedKeys] using ⟨htools, hcall, henv⟩
      · rw [(addTarget_eq_ok.mp h).2]

section Names

variable {σ : Type} {step : σ → Tree × Tree → Checked σ} (names : σ → List String)
  (hstep : ∀ s e s', (step s e).outcome = .ok s' →
    names s' = names s ∨ ∃ name, e.1.string? = some name ∧ names s' = names s ++ [name])
include hstep

private theorem sublist_names {entries : Tree.Entries} {s s' : σ}
    (h : (entries.foldlM step s).outcome = .ok s') :
    (names s').Sublist (names s ++ Tree.names entries) := by
  induction entries generalizing s with
  | nil =>
    have hsame : s = s' := by simpa using h
    simp [hsame]
  | cons e rest ih =>
    rw [List.foldlM_cons, outcome_bind] at h
    obtain ⟨middle, hfirst, hrest⟩ := h
    have hmore := ih hrest
    rcases hstep s e middle hfirst with hsame | ⟨name, hname, hadd⟩
    · rw [hsame] at hmore
      rw [Tree.names_cons]
      exact hmore.trans ((List.sublist_append_right _ _).append_left (names s))
    · rw [hadd, List.append_assoc] at hmore
      rw [Tree.names_cons, hname]
      exact hmore

private theorem nodup_of_foldlM {entries : Tree.Entries} (hd : Tree.DistinctKeys entries)
    (hu : Tree.UntaggedKeys entries) {s s' : σ} (hs : names s = [])
    (h : (entries.foldlM step s).outcome = .ok s') : (names s').Nodup := by
  have hsub := sublist_names names hstep h
  rw [hs, List.nil_append] at hsub
  exact hsub.nodup (Tree.nodup_names hd hu)

end Names

private theorem distinct_target {key : String} {fields : Tree.Entries} {t : Target}
    (hd : Tree.DistinctKeys fields) (hu : Tree.UntaggedKeys fields)
    (h : (target key fields).outcome = .ok t) : t.Distinct := by
  constructor
  · refine nodup_of_foldlM (fun t : Target => t.fields.map Setting.name) ?_ hd hu rfl h
    intro t e t' ht
    rcases targetField_cases ht with ⟨hfields, -⟩ |
      ⟨field, path, s, hfield, -, hs, ⟨hfields, -⟩ | ⟨hfields, -⟩⟩
    · exact Or.inl (by rw [hfields])
    · exact Or.inr ⟨field, hfield, by simp [hfields, (canonical_setting hs).1]⟩
    · exact Or.inl (by rw [hfields])
  · refine nodup_of_foldlM (fun t : Target => t.extensions.map Setting.name) ?_ hd hu rfl h
    intro t e t' ht
    rcases targetField_cases ht with ⟨-, hextensions⟩ |
      ⟨field, path, s, hfield, -, hs, ⟨-, hextensions⟩ | ⟨-, hextensions⟩⟩
    · exact Or.inl (by rw [hextensions])
    · exact Or.inl (by rw [hextensions])
    · exact Or.inr ⟨field, hfield, by simp [hextensions, (canonical_setting hs).1]⟩

/-- If no key comes twice in any map, then neither does the name of a target or of its settings. -/
theorem distinct_build {entries : Tree.Entries} {b : Build}
    (hd : Tree.DistinctKeys entries) (hu : Tree.UntaggedKeys entries)
    (hfields : ∀ e ∈ entries, ∀ fields, e.2.entries? = some fields →
      Tree.DistinctKeys fields ∧ Tree.UntaggedKeys fields)
    (h : (build entries).outcome = .ok b) : b.Distinct := by
  constructor
  · refine nodup_of_foldlM (fun b : Build => b.targets.map Target.name) ?_ hd hu rfl h
    intro b e b' hb
    rcases buildEntry_cases hb with hsame | ⟨key, fields, t, hkey, hnew, -, ht, hadd⟩
    · exact Or.inl (by rw [hsame])
    · exact Or.inr ⟨key, hkey, by simp [hadd, (canonical_target hnew ht).1]⟩
  · refine foldlM_invariant (fun b : Build => ∀ t ∈ b.targets, t.Distinct) ?_ (by simp) h
    intro b e he b' hb hstep
    rcases buildEntry_cases hstep with hsame | ⟨key, fields, t, -, -, hentries, ht, hadd⟩
    · rwa [hsame]
    · obtain ⟨hdf, huf⟩ := hfields e he fields hentries
      rw [hadd]
      exact List.forall_mem_append.mpr
        ⟨hb, List.forall_mem_singleton.mpr (distinct_target hdf huf ht)⟩

/-- A descriptor that comes from a tree with distinct and untagged keys has distinct names. -/
theorem distinct_descriptor {t : Tree} {d : Descriptor} (hd : t.EveryMap Tree.DistinctKeys)
    (hu : t.EveryMap Tree.UntaggedKeys) (h : (descriptor t).outcome = .ok d) :
    d.build.Distinct := by
  obtain ⟨root, hroot, h⟩ := outcome_bind.mp h
  obtain ⟨-, -, h⟩ := outcome_bind.mp h
  obtain ⟨packageTree, -, h⟩ := outcome_bind.mp h
  obtain ⟨p, -, h⟩ := outcome_bind.mp h
  obtain ⟨o, -, h⟩ := outcome_bind.mp h
  obtain ⟨c, -, h⟩ := outcome_bind.mp h
  obtain ⟨b, hbuild, h⟩ := outcome_bind.mp h
  cases h
  rcases readSection_cases hbuild with rfl | ⟨entries, hlookup, hread⟩
  · exact ⟨by simp, by simp⟩
  · have hmem := Tree.mem_of_lookup? hlookup
    have hroot := outcome_ofOption.mp hroot
    obtain ⟨hdb, hdv⟩ := Tree.everyMap_entries? ((Tree.everyMap_entries? hd hroot).2 _ hmem) rfl
    obtain ⟨hub, huv⟩ := Tree.everyMap_entries? ((Tree.everyMap_entries? hu hroot).2 _ hmem) rfl
    refine distinct_build hdb hub (fun e he fields hfields => ?_) hread
    exact ⟨(Tree.everyMap_entries? (hdv e he) hfields).1,
      (Tree.everyMap_entries? (huv e he) hfields).1⟩

/-- What binds a setting is read from one of its tag expressions. -/
theorem exists_expression {name path : String} {node : Tree} {s : Setting}
    (h : (setting name path node).outcome = .ok s) :
    ∀ b ∈ s.bindings, b.selector = .fallback ∨
      ∃ source ∈ expressions node, b.selector = .parse source := by
  have hplain : ∀ {u : Tree},
      (do return Setting.plain name (← leaves path nestedStrings u) : Checked Setting).outcome =
        .ok s → ∀ b ∈ s.bindings, b.selector = .fallback := by
    intro u hu
    obtain ⟨texts, -, hs⟩ := outcome_bind.mp hu
    cases hs
    simp [Setting.plain]
  cases node with
  | map entries =>
    refine foldlM_invariant (fun s => ∀ b ∈ s.bindings, b.selector = .fallback ∨
      ∃ source ∈ expressions (.map entries), b.selector = .parse source) ?_ (by simp) h
    intro s e he s' hs hstep
    obtain ⟨source, hsource, hstep⟩ := outcome_bind.mp hstep
    obtain ⟨texts, -, hstep⟩ := outcome_bind.mp hstep
    cases hstep
    intro b hb
    have hmem : b.selector ∈ (Setting.bindIn (.parse source) texts s.bindings).map
        Binding.selector := List.mem_map_of_mem hb
    rw [Setting.selectors_bindIn] at hmem
    have hsource' : source ∈ expressions (.map entries) :=
      List.mem_filterMap.mpr ⟨e, he, outcome_ofOption.mp hsource⟩
    split at hmem
    · obtain ⟨c, hc, hcb⟩ := List.mem_map.mp hmem
      rw [← hcb]
      exact hs c hc
    · rcases List.mem_append.mp hmem with hmem | hmem
      · obtain ⟨c, hc, hcb⟩ := List.mem_map.mp hmem
        rw [← hcb]
        exact hs c hc
      · exact Or.inr ⟨source, hsource', List.mem_singleton.mp hmem⟩
  | _ => exact fun b hb => Or.inl (hplain h b hb)

/-- A setting of a target is read from a tree under a key that is not reserved. -/
theorem target_origin {key : String} {fields : Tree.Entries} {t : Target}
    (h : (target key fields).outcome = .ok t) :
    ∀ s ∈ t.fields ++ t.extensions, ∃ node ∈ treesBeyond Target.reservedKeys fields,
      ∃ name path, (setting name path node).outcome = .ok s := by
  refine foldlM_invariant (fun t : Target => ∀ s ∈ t.fields ++ t.extensions,
    ∃ node ∈ treesBeyond Target.reservedKeys fields,
      ∃ name path, (setting name path node).outcome = .ok s) ?_ (by simp) h
  intro t e he t' ht hstep
  rcases targetField_cases hstep with ⟨hfields, hextensions⟩ |
    ⟨field, path, s, hfield, hnew, hs, hadd⟩
  · rwa [hfields, hextensions]
  · have hnode : e.2 ∈ treesBeyond Target.reservedKeys fields :=
      List.mem_map_of_mem (List.mem_filter.mpr ⟨he, by simpa [hfield] using hnew⟩)
    have horigin : ∀ u ∈ t.fields ++ t.extensions ++ [s],
        ∃ node ∈ treesBeyond Target.reservedKeys fields,
          ∃ name path, (setting name path node).outcome = .ok u :=
      List.forall_mem_append.mpr
        ⟨ht, List.forall_mem_singleton.mpr ⟨e.2, hnode, field, path, hs⟩⟩
    intro u hu
    refine horigin u ?_
    rcases hadd with ⟨hfields, hextensions⟩ | ⟨hfields, hextensions⟩ <;>
    · rw [hfields, hextensions] at hu
      simp only [List.mem_append, List.mem_singleton] at hu ⊢
      tauto

private theorem build_origin {entries : Tree.Entries} {b : Build}
    (h : (build entries).outcome = .ok b) :
    ∀ s ∈ b.targets.flatMap fun t => t.fields ++ t.extensions,
      ∃ node ∈ (treesBeyond Build.reservedKeys entries).flatMap fun target =>
          treesBeyond Target.reservedKeys (target.entries?.getD []),
        ∃ name path, (setting name path node).outcome = .ok s := by
  refine foldlM_invariant (fun b : Build =>
    ∀ s ∈ b.targets.flatMap fun t => t.fields ++ t.extensions,
      ∃ node ∈ (treesBeyond Build.reservedKeys entries).flatMap fun target =>
          treesBeyond Target.reservedKeys (target.entries?.getD []),
        ∃ name path, (setting name path node).outcome = .ok s) ?_ (by simp) h
  intro b e he b' hb hstep
  rcases buildEntry_cases hstep with hsame | ⟨key, fields, t, hkey, hnew, hfields, ht, hadd⟩
  · rwa [hsame]
  · rw [hadd, List.flatMap_append]
    refine List.forall_mem_append.mpr ⟨hb, fun s hs => ?_⟩
    rw [List.flatMap_singleton] at hs
    obtain ⟨node, hnode, hread⟩ := target_origin ht s hs
    have htarget : e.2 ∈ treesBeyond Build.reservedKeys entries :=
      List.mem_map_of_mem (List.mem_filter.mpr ⟨he, by simpa [hkey] using hnew⟩)
    exact ⟨node, List.mem_flatMap.mpr ⟨e.2, htarget, by rwa [hfields]⟩, hread⟩

private theorem singleEntry_eq {path : String} {t : Tree} {e : Tree × Tree}
    (h : (singleEntry path t).outcome = .ok e) : t = .map [e] := by
  unfold singleEntry at h
  split at h
  · cases outcome_ok.mp h
    rfl
  all_goals simp at h

private theorem changeItem_origin {index : Nat} {item : Tree} {s : Statement}
    (h : (changeItem index item).outcome = .ok s) :
    ∃ how x, s = .change how x ∧ ∃ node ∈ itemTrees [item],
      ∃ name path, (setting name path node).outcome = .ok x := by
  rw [changeItem] at h
  obtain ⟨⟨key, body⟩, hitem, h⟩ := outcome_bind.mp h
  obtain ⟨keyword, -, h⟩ := outcome_bind.mp h
  obtain ⟨⟨key', node⟩, hbody, h⟩ := outcome_bind.mp h
  obtain ⟨name, -, h⟩ := outcome_bind.mp h
  obtain ⟨x, hx, h⟩ := outcome_bind.mp h
  obtain ⟨how, -, h⟩ := outcome_bind.mp h
  cases h
  refine ⟨how, x, rfl, node, ?_, name, _, hx⟩
  rw [singleEntry_eq hitem, singleEntry_eq hbody]
  exact List.mem_singleton_self node

private theorem changeItems_origin {index : Nat} {items : List Tree} {more : List Statement}
    (h : (changeItems index items).outcome = .ok more) :
    ∀ s ∈ more, ∃ how x, s = .change how x ∧ ∃ node ∈ itemTrees items,
      ∃ name path, (setting name path node).outcome = .ok x := by
  induction items generalizing index more with
  | nil =>
    cases outcome_ok.mp h
    simp
  | cons item rest ih =>
    rw [changeItems] at h
    obtain ⟨first, hfirst, h⟩ := outcome_bind.mp h
    obtain ⟨tail, htail, h⟩ := outcome_bind.mp h
    cases h
    have hsplit : itemTrees (item :: rest) = itemTrees [item] ++ itemTrees rest := by
      simp [itemTrees]
    rw [hsplit]
    refine List.forall_mem_cons.mpr ⟨?_, fun s hs => ?_⟩
    · obtain ⟨how, x, hs, node, hnode, hread⟩ := changeItem_origin hfirst
      exact ⟨how, x, hs, node, List.mem_append_left _ hnode, hread⟩
    · obtain ⟨how, x, hs, node, hnode, hread⟩ := ih htail s hs
      exact ⟨how, x, hs, node, List.mem_append_right _ hnode, hread⟩

private theorem mem_of_tagDeclarations {before after : List Statement} {index : Nat}
    {items : List Tree} (h : (tagDeclarations before index items).outcome = .ok after) :
    ∀ s ∈ after, s ∈ before ∨ ∃ name content, s = .declareTag name content := by
  induction items generalizing before index with
  | nil =>
    cases outcome_ok.mp h
    exact fun s hs => Or.inl hs
  | cons item rest ih =>
    rw [tagDeclarations] at h
    obtain ⟨⟨key, value⟩, -, h⟩ := outcome_bind.mp h
    obtain ⟨name, -, h⟩ := outcome_bind.mp h
    obtain ⟨content, -, h⟩ := outcome_bind.mp h
    split at h
    · simp at h
    · intro s hs
      rcases ih h s hs with hs | hs
      · rcases List.mem_append.mp hs with hs | hs
        · exact Or.inl hs
        · exact Or.inr ⟨name, content, List.mem_singleton.mp hs⟩
      · exact Or.inr hs

/-- Declaring tags adds declarations only. -/
theorem mem_of_declareTags {before after : List Statement} {t : Tree}
    (h : (declareTags before t).outcome = .ok after) :
    ∀ s ∈ after, s ∈ before ∨ ∃ name content, s = .declareTag name content := by
  cases t with
  | null =>
    cases outcome_ok.mp h
    exact fun s hs => Or.inl hs
  | list items => exact mem_of_tagDeclarations h
  | _ => simp [declareTags] at h

/-- A setting is plain, or it is read from one of some trees. -/
def Sourced (nodes : List Tree) (s : Setting) : Prop :=
  (∃ name strings, s = .plain name strings) ∨
    ∃ node ∈ nodes, ∃ name path, (setting name path node).outcome = .ok s

private theorem configure_origin {entries : Tree.Entries} {c : Configuration}
    (hd : Tree.DistinctKeys entries) (hu : Tree.UntaggedKeys entries)
    (h : (configure entries).outcome = .ok c) :
    ∀ s ∈ c.statements, ∀ x ∈ s.setting?, Sourced (changeTrees entries) x := by
  refine foldlM_invariant (fun c : Configuration =>
    ∀ s ∈ c.statements, ∀ x ∈ s.setting?, Sourced (changeTrees entries) x) ?_ (by simp) h
  intro c e he c' hc hstep
  rcases configureEntry_cases hstep with hsame | ⟨more, hmore, hadd⟩ | hafter | ⟨names, hadd⟩ |
    ⟨hkey, more, hmore, hadd⟩
  · rwa [hsame]
  · rw [hadd]
    refine List.forall_mem_append.mpr ⟨hc, fun s hs x hx => ?_⟩
    obtain ⟨how, name, strings, rfl⟩ := change_of_mem_env hmore s hs
    cases hx
    exact Or.inl ⟨name, strings, rfl⟩
  · intro s hs x hx
    rcases mem_of_declareTags hafter s hs with hs | ⟨name, content, rfl⟩
    · exact hc s hs x hx
    · cases hx
  · rw [hadd]
    refine List.forall_mem_append.mpr ⟨hc, fun s hs x hx => ?_⟩
    obtain ⟨name, -, rfl⟩ := List.mem_map.mp hs
    cases hx
  · rw [hadd]
    refine List.forall_mem_append.mpr ⟨hc, fun s hs x hx => ?_⟩
    rw [changeTrees, Tree.lookup?_of_mem hd hu he hkey]
    unfold changes at hmore
    split at hmore
    · cases outcome_ok.mp hmore
      cases hs
    · rename_i items heq
      obtain ⟨how, y, rfl, hread⟩ := changeItems_origin hmore s hs
      cases hx
      rw [heq]
      exact Or.inr hread
    · simp at hmore

/-- Every setting of a descriptor is plain, or it is read from one of the setting trees. -/
theorem settings_origin {t : Tree} {d : Descriptor} (hd : t.EveryMap Tree.DistinctKeys)
    (hu : t.EveryMap Tree.UntaggedKeys) (h : (descriptor t).outcome = .ok d) :
    ∀ s ∈ d.settings, Sourced (settingTrees t) s := by
  obtain ⟨root, hroot, h⟩ := outcome_bind.mp h
  obtain ⟨-, -, h⟩ := outcome_bind.mp h
  obtain ⟨packageTree, -, h⟩ := outcome_bind.mp h
  obtain ⟨p, -, h⟩ := outcome_bind.mp h
  obtain ⟨o, -, h⟩ := outcome_bind.mp h
  obtain ⟨c, hconfigure, h⟩ := outcome_bind.mp h
  obtain ⟨b, hbuild, h⟩ := outcome_bind.mp h
  cases h
  have hroot := outcome_ofOption.mp hroot
  have hweaken : ∀ {front back : List Tree} {s : Setting}, Sourced front s ∨ Sourced back s →
      Sourced (front ++ back) s := by
    rintro front back s ((hp | ⟨node, hn, hr⟩) | (hp | ⟨node, hn, hr⟩))
    · exact Or.inl hp
    · exact Or.inr ⟨node, List.mem_append_left _ hn, hr⟩
    · exact Or.inl hp
    · exact Or.inr ⟨node, List.mem_append_right _ hn, hr⟩
  refine List.forall_mem_append.mpr
    ⟨fun s hs => hweaken (Or.inl ?_), fun s hs => hweaken (Or.inr ?_)⟩
  · rcases readSection_cases hconfigure with rfl | ⟨entries, hlookup, hread⟩
    · simp at hs
    · obtain ⟨statement, hstatement, hsetting⟩ := List.mem_filterMap.mp hs
      have hmem := Tree.mem_of_lookup? hlookup
      have hdc := (Tree.everyMap_entries? ((Tree.everyMap_entries? hd hroot).2 _ hmem) rfl).1
      have huc := (Tree.everyMap_entries? ((Tree.everyMap_entries? hu hroot).2 _ hmem) rfl).1
      have horigin := configure_origin hdc huc hread statement hstatement s hsetting
      have hsection : sectionEntries "configure" t = entries := by
        rw [sectionEntries, hroot, Option.getD_some, hlookup]
        rfl
      rwa [statementTrees, hsection]
  · rcases readSection_cases hbuild with rfl | ⟨entries, hlookup, hread⟩
    · simp at hs
    · obtain ⟨node, hnode, horigin⟩ := build_origin hread s hs
      have hsection : sectionEntries "build" t = entries := by
        rw [sectionEntries, hroot, Option.getD_some, hlookup]
        rfl
      exact Or.inr ⟨node, by rwa [targetTrees, hsection], horigin⟩

/-- If no tag expression denotes the conjunction of the one tag that is called like the fallback,
then no setting of the descriptor is bound under it. -/
theorem selector_ne_loneDefault {t : Tree} {d : Descriptor} (hd : t.EveryMap Tree.DistinctKeys)
    (hu : t.EveryMap Tree.UntaggedKeys)
    (hdefault : ∀ node ∈ settingTrees t, ∀ source ∈ expressions node,
      Selector.parse source ≠ .loneDefault)
    (h : (descriptor t).outcome = .ok d) :
    ∀ s ∈ d.settings, ∀ b ∈ s.bindings, b.selector ≠ .loneDefault := by
  intro s hs b hb
  rcases settings_origin hd hu h s hs with ⟨name, strings, rfl⟩ | ⟨node, hnode, name, path, hread⟩
  · rw [List.mem_singleton.mp hb]
    exact Selector.noConfusion
  · rcases exists_expression hread b hb with hfallback | ⟨source, hsource, hparse⟩
    · rw [hfallback]
      exact Selector.noConfusion
    · rw [hparse]
      exact hdefault node hnode source hsource

end Reading

end PackageScript
