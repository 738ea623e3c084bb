import PackageScript.Proofs.Normal.Written
import PackageScript.Proofs.Setting.Grouping
/-! What is read back from a written tree. -/
namespace PackageScript
open Yaml

/-- The setting that comes back: each source is spelled once, with its last strings. -/
def Setting.settled (s : Setting) : Setting :=
  ⟨s.name, (Normal.lastBindings s).map fun b => ⟨.parse b.selector.source, b.strings⟩⟩

def Statement.settled : Statement → Statement
  | .change how s => .change how s.settled
  | s => s

/-- The target that comes back: each name is set once, to its last value. -/
def Target.settled (t : Target) : Target :=
  { t with
    fields := (Normal.lastSettings t.fields).map Setting.settled
    extensions := (Normal.lastSettings t.extensions).map Setting.settled }

@[simp] theorem Target.output_settled (t : Target) : t.settled.output = t.output := rfl

/-- The descriptor that comes back: the statements in their groups, and each target once. -/
def Descriptor.settled (d : Descriptor) : Descriptor :=
  { d with
    configuration :=
      { d.configuration with
        statements := (Statement.regrouped d.configuration.statements).map Statement.settled }
    build :=
      { d.build with targets := (lastBy Target.name d.build.targets).map Target.settled } }

namespace Reading
open Checked PackageScript.Normal

section Folds

variable {α σ : Type} {step : σ → Tree × Tree → Checked σ}

private theorem foldlM_append {front rest : Tree.Entries} {s t u : σ}
    (hfront : front.foldlM step s = ok t)
    (hrest : rest.foldlM step t = ok u) : (front ++ rest).foldlM step s = ok u := by
  rw [List.foldlM_append, hfront, ok_then, hrest]

private theorem foldlM_part {name : String} {value : Tree} {isEmpty : Bool} {s t : σ}
    (hempty : isEmpty = true → s = t) (hstep : step s (.text name, value) = ok t) :
    (part name value isEmpty).foldlM step s = ok t := by
  cases isEmpty with
  | true => rw [hempty rfl]; rfl
  | false => exact (bind_pure (step s (.text name, value))).trans hstep

end Folds

private theorem keyText_text (path name : String) : keyText path (.text name) = ok name := rfl

private theorem scalarTexts_map_text (path : String) (texts : List String) :
    scalarTexts path (texts.map .text) = ok texts := by
  induction texts with
  | nil => rfl
  | cons text rest ih =>
    rw [List.map_cons, scalarTexts, ih]
    rfl

private theorem strings_stringList (path : String) (texts : List String) :
    strings path (stringList texts) = ok texts :=
  scalarTexts_map_text path texts

private theorem oneOrMore_stringList (path : String) (texts : List String) :
    oneOrMore path (stringList texts) = ok texts :=
  scalarTexts_map_text path texts

private theorem leafTextsOf_map_text (texts : List String) :
    Tree.leafTextsOf (texts.map .text) = .ok texts := by
  induction texts with
  | nil => rfl
  | cons text rest ih =>
    rw [List.map_cons, Tree.leafTextsOf, ih]
    rfl

private theorem leaves_stringList (path expected : String) (texts : List String) :
    leaves path expected (stringList texts) = ok texts := by
  rw [leaves, stringList, Tree.leafTexts, leafTextsOf_map_text]

/-- A selector that is new to a setting is bound at its end. -/
theorem bind_of_notMem {s : Setting} {e : Selector} (strings : List String)
    (h : e ∉ s.bindings.map Binding.selector) :
    s.bind e strings = ⟨s.name, s.bindings ++ [⟨e, strings⟩]⟩ := by
  rw [Setting.bind, Setting.bindIn_of_notMem strings h]

private theorem foldlM_bindEntry (path name : String) (bindings before : List Binding)
    (h : (before.map Binding.selector ++
      bindings.map fun b => Selector.parse b.selector.source).Nodup) :
    (keyed (·.selector.source) (stringList ·.strings) bindings).foldlM (bindEntry path)
        ⟨name, before⟩ =
      ok ⟨name, before ++ bindings.map fun b => ⟨.parse b.selector.source, b.strings⟩⟩ := by
  induction bindings generalizing before with
  | nil => simp [keyed, ok]
  | cons b rest ih =>
    have hnew : Selector.parse b.selector.source ∉ before.map Binding.selector :=
      fun hmem => (List.nodup_append.mp h).2.2 _ hmem _ List.mem_cons_self rfl
    have hentry : bindEntry path ⟨name, before⟩ (.text b.selector.source, stringList b.strings) =
        ok ⟨name, before ++ [⟨.parse b.selector.source, b.strings⟩]⟩ := by
      rw [bindEntry, Tree.scalarText?, ofOption_some, ok_then, leaves_stringList, ok_then,
        bind_of_notMem _ hnew]
      rfl
    have hrest := ih (before ++ [⟨.parse b.selector.source, b.strings⟩]) (by simpa using h)
    rw [keyed, List.map_cons, List.foldlM_cons, hentry, ok_then, ← keyed, hrest]
    simp

/-- No two of the bindings that are written are read back under one selector. -/
theorem nodup_parse_lastBindings {s : Setting} (h : s.Canonical) :
    ((lastBindings s).map fun b => Selector.parse b.selector.source).Nodup := by
  have hsources : ((lastBindings s).map fun b => b.selector.source).Nodup := nodup_lastBy _
  have hback : ((lastBindings s).map fun b => Selector.parse b.selector.source).map Selector.source =
      (lastBindings s).map fun b => b.selector.source := by
    rw [List.map_map]
    refine List.map_congr_left fun b hb => ?_
    exact Selector.source_parse_source (h.selectors b (mem_of_mem_lastBy hb))
  exact List.Nodup.of_map Selector.source (hback ▸ hsources)

theorem settled_plain (name : String) (strings : List String) :
    (Setting.plain name strings).settled = .plain name strings := by
  have hparse : Selector.parse (Selector.source .fallback) = .fallback := by decide
  simp [Setting.settled, Setting.plain, lastBindings, lastBy, replaceBy, hparse]

theorem eq_plain {s : Setting} {strings : List String} (h : s.unconditional? = some strings) :
    s = .plain s.name strings := by
  obtain ⟨name, bindings⟩ := s
  rw [Setting.unconditional?] at h
  split at h
  · rename_i heq
    cases h
    simp only at heq
    rw [heq]
    rfl
  · cases h

/-- A setting is read back from its tree. -/
theorem setting_setting (path : String) {s : Setting} (h : s.Canonical) :
    setting s.name path (Normal.setting s) = ok s.settled := by
  rw [setting_eq]
  cases hs : s.unconditional? with
  | some strings =>
    have hplain := eq_plain hs
    rw [hplain, settled_plain]
    simp only [setting, stringList]
    rw [← stringList, leaves_stringList]
    rfl
  | none =>
    have hfold := foldlM_bindEntry path s.name (lastBindings s) []
      (by simpa using nodup_parse_lastBindings h)
    simpa [setting, Setting.settled] using hfold

private theorem phaseEntry_tools (phase : Phase) (sectionName : String) (tools : List String) :
    phaseEntry phase "tools" sectionName (stringList tools) =
      ok (some { phase with tools := tools }) := by
  simp only [phaseEntry]
  rw [strings_stringList, ok_then]
  rfl

private theorem phaseEntry_hooks (phase : Phase) (sectionName : String) (hooks : List String) :
    phaseEntry phase "hwaf-call" sectionName (stringList hooks) =
      ok (some { phase with hooks := hooks }) := by
  simp only [phaseEntry]
  rw [strings_stringList, ok_then]
  rfl

section Phases

variable {σ : Type} {step : σ → Tree × Tree → Checked σ} (sectionName : String)
  (read : σ → Phase) (write : σ → Phase → σ)

private theorem foldlM_phase (p : Phase) (s : σ) (hread : read s = {}) (hsame : write s {} = s)
    (hwrite : ∀ p, read (write s p) = p ∧ ∀ q, write (write s p) q = write s q)
    (hstep : ∀ s name value p, phaseEntry (read s) name sectionName value = ok (some p) →
      step s (.text name, value) = ok (write s p)) :
    (phase p).foldlM step s = ok (write s p) := by
  rw [phase_eq]
  refine foldlM_append (t := write s { tools := p.tools }) (foldlM_part ?_ ?_)
    (foldlM_part ?_ ?_)
  · intro hempty
    rw [List.isEmpty_iff.mp hempty, hsame]
  · refine hstep s _ _ _ ?_
    rw [phaseEntry_tools, hread]
  · intro hempty
    rw [← List.isEmpty_iff.mp hempty]
  · have hhooks := hstep (write s { tools := p.tools }) "hwaf-call" (stringList p.hooks) p (by
      rw [phaseEntry_hooks, (hwrite _).1])
    rwa [(hwrite _).2] at hhooks

end Phases

private theorem options_phase (p : Phase) : options (phase p) = ok p := by
  refine foldlM_phase "options" id (fun _ p => p) p {} rfl rfl (fun p => ⟨rfl, fun q => rfl⟩) ?_
  intro s name value p h
  rw [optionsEntry, keyText_text, ok_then]
  simp only [id] at h
  rw [h, ok_then]
  rfl

private theorem envEntries_envEntry (statements : List Statement)
    (h : ∀ s ∈ statements, s.envPair?.isSome = true) :
    envEntries ((statements.filterMap Statement.envPair?).map envEntry) = ok statements := by
  induction statements with
  | nil => rfl
  | cons s rest ih =>
    obtain ⟨e, he⟩ := Option.isSome_iff_exists.mp (h s List.mem_cons_self)
    have hstatement := Statement.envStatement_of_envPair? he
    rw [List.filterMap_cons_some he, List.map_cons, envEntry, envEntries, keyText_text, ok_then,
      Tree.string?_text, ofOption_some, ok_then, ih fun t ht => h t (List.mem_cons_of_mem s ht), ok_then, hstatement]
    rfl

private theorem tagDeclarations_tagItem (tags : List (String × List String))
    (before : List Statement) (index : Nat)
    (h : (before.filterMap Statement.declaredTag? ++ tags.map Prod.fst).Nodup) :
    tagDeclarations before index (tags.map tagItem) =
      ok (before ++ tags.map fun t => Statement.declareTag t.1 t.2) := by
  induction tags generalizing before index with
  | nil =>
    rw [List.map_nil, List.map_nil, List.append_nil]
    rfl
  | cons t rest ih =>
    have hnew : before.any (·.declaredTag? = some t.1) = false := by
      rw [List.any_eq_false]
      intro s hs hname
      have hmem : t.1 ∈ before.filterMap Statement.declaredTag? :=
        List.mem_filterMap.mpr ⟨s, hs, by simpa using hname⟩
      exact (List.nodup_append.mp h).2.2 _ hmem _ List.mem_cons_self rfl
    have hrest := ih (before ++ [Statement.declareTag t.1 t.2]) (index + 1)
      (by simpa [Statement.declaredTag?] using h)
    rw [List.map_cons, tagItem, tagDeclarations, singleEntry, ok_then]
    simp only
    rw [keyText_text, ok_then, oneOrMore_stringList, ok_then, hnew, if_neg (by simp), hrest]
    simp

private theorem changeItems_changeItem (changes : List (Change × Setting)) (index : Nat)
    (h : ∀ c ∈ changes, c.2.Canonical) :
    changeItems index (changes.map Normal.changeItem) =
      ok (changes.map fun c => .change c.1 c.2.settled) := by
  induction changes generalizing index with
  | nil => rfl
  | cons c rest ih =>
    have hkeyword : Change.ofKeyword? c.1.keyword = some c.1 := by
      cases c.1 <;> decide
    have hitem : changeItem index (Normal.changeItem c) = ok (.change c.1 c.2.settled) := by
      rw [changeItem, Normal.changeItem, singleEntry, ok_then]
      simp only
      rw [keyText_text, ok_then, singleEntry, ok_then]
      simp only
      rw [keyText_text, ok_then, setting_setting _ (h c List.mem_cons_self), ok_then, hkeyword]
      rfl
    rw [List.map_cons, changeItems, hitem, ok_then,
      ih (index + 1) fun d hd => h d (List.mem_cons_of_mem c hd)]
    rfl

/-- Statements that the environment takes are plain, so they come back as they are. -/
theorem settled_of_envPair? {s : Statement} (h : s.envPair?.isSome = true) :
    s.settled = s := by
  obtain ⟨e, he⟩ := Option.isSome_iff_exists.mp h
  obtain ⟨how, strings, rfl⟩ := change_of_envStatement (Statement.envStatement_of_envPair? he)
  rw [Statement.settled, settled_plain]

/-- The statements that come back are those of the four groups, one group after another. -/
theorem settled_regrouped (l : List Statement) :
    (Statement.regrouped l).map Statement.settled =
      picked Statement.startsVariable [] l ++ l.filter (·.declaredTag?.isSome) ++
        l.filter (·.appliedTag?.isSome) ++
        (groups l).changes.map fun c => Statement.change c.1 c.2.settled := by
  have henv : ∀ s ∈ picked Statement.startsVariable [] l, s.settled = s :=
    fun s hs => settled_of_envPair? (Statement.envPair?_of_mem_picked hs)
  have hdeclared : ∀ s ∈ l.filter (·.declaredTag?.isSome), s.settled = s := by
    intro s hs
    cases s with
    | declareTag name content => rfl
    | _ => simp [Statement.declaredTag?] at hs
  have happlied : ∀ s ∈ l.filter (·.appliedTag?.isSome), s.settled = s := by
    intro s hs
    cases s with
    | applyTag name => rfl
    | _ => simp [Statement.appliedTag?] at hs
  rw [Statement.regrouped, List.map_append, List.map_append, List.map_append,
    List.map_congr_left henv, List.map_congr_left hdeclared, List.map_congr_left happlied,
    List.map_id', List.map_id', List.map_id', ← changes_groups, List.map_map]
  rfl

section Entries

variable (c : Configuration)

private theorem configureEntry_env {entries : Tree.Entries} {more : List Statement}
    (h : envEntries entries = ok more) :
    configureEntry c (.text "env", .map entries) =
      ok { c with statements := c.statements ++ more } := by
  rw [configureEntry, keyText_text, ok_then]
  simp only [phaseEntry]
  rw [env, h, ok_then]
  rfl

private theorem configureEntry_declareTags {items : List Tree} {after : List Statement}
    (h : tagDeclarations c.statements 0 items = ok after) :
    configureEntry c (.text "declare-tags", .list items) = ok { c with statements := after } := by
  rw [configureEntry, keyText_text, ok_then]
  simp only [phaseEntry]
  rw [declareTags, h, ok_then]
  rfl

private theorem configureEntry_applyTags (names : List String) :
    configureEntry c (.text "apply-tags", stringList names) =
      ok { c with statements := c.statements ++ names.map .applyTag } := by
  rw [configureEntry, keyText_text, ok_then]
  simp only [phaseEntry]
  rw [oneOrMore_stringList, ok_then]
  rfl

private theorem configureEntry_statements {items : List Tree} {more : List Statement}
    (h : changeItems 0 items = ok more) :
    configureEntry c (.text "statements", .list items) =
      ok { c with statements := c.statements ++ more } := by
  rw [configureEntry, keyText_text, ok_then]
  simp only [phaseEntry]
  rw [changes, h, ok_then]
  rfl

end Entries

private theorem nodup_declaredTags {l : List Statement}
    (h : (l.filterMap Statement.declaredTag?).Nodup) :
    ((picked Statement.startsVariable [] l).filterMap Statement.declaredTag? ++
      (groups l).declaredTags.map Prod.fst).Nodup := by
  have hpicked : (picked Statement.startsVariable [] l).filterMap Statement.declaredTag? = [] := by
    rw [List.filterMap_eq_nil_iff]
    intro s hs
    cases s with
    | declareTag name content =>
      have := Statement.envPair?_of_mem_picked hs
      simp [Statement.envPair?] at this
    | _ => rfl
  have hnames : (groups l).declaredTags.map Prod.fst = l.filterMap Statement.declaredTag? := by
    have hdeclared := congrArg (List.filterMap Statement.declaredTag?) (declaredTags_groups l)
    rw [List.filterMap_map] at hdeclared
    have hfst : Statement.declaredTag? ∘ (fun t : String × List String => .declareTag t.1 t.2) =
        some ∘ Prod.fst := rfl
    rw [hfst, List.filterMap_eq_map] at hdeclared
    rw [hdeclared, List.filterMap_filter]
    refine List.filterMap_congr fun s _ => ?_
    cases s <;> rfl
  rw [hpicked, hnames]
  exact h

theorem change_of_mem_groups {l : List Statement} {c : Change × Setting}
    (h : c ∈ (groups l).changes) : .change c.1 c.2 ∈ l := by
  have hmem : Statement.change c.1 c.2 ∈
      (groups l).changes.map fun c => Statement.change c.1 c.2 :=
    List.mem_map.mpr ⟨c, h, rfl⟩
  rw [changes_groups] at hmem
  exact (picked_sublist [] l).mem hmem

/-- Configurations are read back with their statements in groups. -/
theorem configure_configure {c : Configuration} (h : Statement.Coherent c.statements) :
    configure (Normal.configure c) =
      ok { c with statements := (Statement.regrouped c.statements).map Statement.settled } := by
  have hphase : (phase c.phase).foldlM configureEntry {} = ok { phase := c.phase } := by
    refine foldlM_phase "configure" Configuration.phase (fun d p => { d with phase := p })
      c.phase {} rfl rfl (fun p => ⟨rfl, fun q => rfl⟩) fun d name value p hp => ?_
    rw [configureEntry, keyText_text, ok_then]
    simp only
    rw [hp, ok_then]
    rfl
  have henv := envEntries_envEntry (picked Statement.startsVariable [] c.statements)
    fun s hs => Statement.envPair?_of_mem_picked hs
  have hdeclared := tagDeclarations_tagItem (groups c.statements).declaredTags
    (picked Statement.startsVariable [] c.statements) 0 (nodup_declaredTags h.tags)
  have hchanges := changeItems_changeItem (groups c.statements).changes 0
    fun g hg => h.settings g.1 g.2 (change_of_mem_groups hg)
  rw [← env_groups] at henv
  rw [declaredTags_groups] at hdeclared
  rw [settled_regrouped, ← appliedTags_groups, configure, configure_eq]
  generalize picked Statement.startsVariable [] c.statements = taken at henv hdeclared ⊢
  generalize c.statements.filter (·.declaredTag?.isSome) = declared at hdeclared ⊢
  generalize groups c.statements = g at henv hdeclared hchanges ⊢
  refine foldlM_append (t := ⟨c.phase, taken ++ declared ++ g.appliedTags.map .applyTag⟩)
    (foldlM_append (t := ⟨c.phase, taken ++ declared⟩)
      (foldlM_append (t := ⟨c.phase, taken⟩)
        (foldlM_append hphase (foldlM_part ?_ ?_)) (foldlM_part ?_ ?_))
      (foldlM_part ?_ ?_)) (foldlM_part ?_ ?_)
  · intro hempty
    rw [List.isEmpty_iff.mp hempty] at henv
    cases henv
    rfl
  · exact configureEntry_env { phase := c.phase } henv
  · intro hempty
    rw [List.isEmpty_iff.mp hempty] at hdeclared
    injection congrArg Checked.outcome hdeclared with hdeclared
    rw [← hdeclared]
  · exact configureEntry_declareTags ⟨c.phase, taken⟩ hdeclared
  · intro hempty
    rw [List.isEmpty_iff.mp hempty, List.map_nil, List.append_nil]
  · exact configureEntry_applyTags ⟨c.phase, taken ++ declared⟩ g.appliedTags
  · intro hempty
    rw [List.map_eq_nil_iff.mp (List.isEmpty_iff.mp hempty), List.map_nil, List.append_nil]
  · exact configureEntry_statements ⟨c.phase, _⟩ hchanges

private theorem flatMap_words {features : List String} (h : ∀ w ∈ features, Text.IsWord w) :
    features.flatMap Text.words = features := by
  induction features with
  | nil => rfl
  | cons w rest ih =>
    rw [List.flatMap_cons, Text.words_of_isWord (h w List.mem_cons_self),
      ih fun v hv => h v (List.mem_cons_of_mem w hv)]
    rfl

private theorem targetField_setting (t : Target) {s : Setting} (h : s.Canonical)
    (hname : s.name ∉ Target.reservedKeys) :
    targetField t (.text s.name, Normal.setting s) =
      ok (if (KnownField.ofKey? s.name).isSome then { t with fields := t.fields ++ [s.settled] }
        else { t with extensions := t.extensions ++ [s.settled] }) := by
  simp only [Target.reservedKeys, List.mem_cons, not_or] at hname
  unfold targetField
  rw [Tree.string?_text, ofOption_some, ok_then]
  split
  · exact absurd ‹_› hname.1
  · exact absurd ‹_› hname.2.1
  · exact absurd ‹_› hname.2.2.1
  · simp only
    rw [setting_setting _ h, ok_then]
    split <;> rfl

private theorem foldlM_settings (t : Target) (settings : List Setting)
    (h : ∀ s ∈ settings, s.name ∉ Target.reservedKeys ∧ s.Canonical) :
    (keyed Setting.name Normal.setting settings).foldlM targetField t =
      ok { t with
        fields := t.fields ++
          (settings.filter fun s => (KnownField.ofKey? s.name).isSome).map Setting.settled
        extensions := t.extensions ++
          (settings.filter fun s => (KnownField.ofKey? s.name).isNone).map Setting.settled } := by
  induction settings generalizing t with
  | nil => simp [keyed, ok]
  | cons s rest ih =>
    obtain ⟨hname, hs⟩ := h s List.mem_cons_self
    rw [keyed, List.map_cons, List.foldlM_cons, targetField_setting t hs hname, ok_then, ← keyed,
      ih _ fun u hu => h u (List.mem_cons_of_mem s hu)]
    cases hknown : KnownField.ofKey? s.name <;> simp [hknown]

private theorem target_target {t : Target} (h : t.Canonical) :
    target t.name (Normal.target t) = ok t.settled := by
  have hfields : ∀ s ∈ lastSettings t.fields, (KnownField.ofKey? s.name).isSome = true :=
    fun s hs => (h.fields s (mem_of_mem_lastBy hs)).1
  have hextensions : ∀ s ∈ lastSettings t.extensions, KnownField.ofKey? s.name = none :=
    fun s hs => by simpa using (h.extensions s (mem_of_mem_lastBy hs)).1
  have hsettings : ∀ s ∈ lastSettings t.fields ++ lastSettings t.extensions,
      s.name ∉ Target.reservedKeys ∧ s.Canonical := by
    refine List.forall_mem_append.mpr ⟨fun s hs => ?_, fun s hs => ?_⟩
    · have hmem : s ∈ t.fields := mem_of_mem_lastBy hs
      exact ⟨settingName_notMem h (List.mem_append_left _ hmem), (h.fields s hmem).2⟩
    · exact (h.extensions s (mem_of_mem_lastBy hs)).2
  rw [target, target_eq h]
  refine foldlM_append
    (t := { name := t.name, outputName := t.outputName, features := t.features })
    (foldlM_append (t := { name := t.name, outputName := t.outputName }) ?_ (foldlM_part ?_ ?_)) ?_
  · cases t.outputName <;> rfl
  · intro hempty
    rw [List.isEmpty_iff.mp hempty]
  · unfold targetField
    rw [Tree.string?_text, ofOption_some, ok_then]
    simp only
    rw [leaves_stringList, ok_then, flatMap_words h.features]
    rfl
  · have hnotKnown : (lastSettings t.extensions).filter
        (fun s => (KnownField.ofKey? s.name).isSome) = [] :=
      List.filter_eq_nil_iff.mpr fun s hs => by simp [hextensions s hs]
    have hnotExtension : (lastSettings t.fields).filter
        (fun s => (KnownField.ofKey? s.name).isNone) = [] :=
      List.filter_eq_nil_iff.mpr fun s hs => by simp [Option.ne_none_iff_isSome.mpr (hfields s hs)]
    rw [foldlM_settings _ _ hsettings, List.filter_append, List.filter_append, hnotKnown,
      hnotExtension, List.filter_eq_self.mpr hfields,
      List.filter_eq_self.mpr fun s hs => by simp [hextensions s hs]]
    simp [Target.settled]

private theorem foldlM_targets (targets : List Target) (b : Build)
    (htargets : ∀ t ∈ targets, t.Canonical)
    (houtputs : ((b.targets ++ targets).map Target.output).Nodup) :
    (keyed Target.name (fun t => .map (Normal.target t)) targets).foldlM buildEntry b =
      ok { b with targets := b.targets ++ targets.map Target.settled } := by
  induction targets generalizing b with
  | nil => simp [keyed, ok]
  | cons t rest ih =>
    have ht := htargets t List.mem_cons_self
    have hreserved := ht.name
    simp only [Build.reservedKeys, List.mem_cons, not_or] at hreserved
    have hphase : phaseEntry b.phase t.name "build" (.map (Normal.target t)) = ok none := by
      unfold phaseEntry
      split
      · exact absurd ‹_› hreserved.1
      · exact absurd ‹_› hreserved.2.1
      · rfl
    have hnew : b.targets.find? (·.output = t.settled.output) = none := by
      rw [List.find?_eq_none]
      intro u hu hsame
      rw [List.map_append, List.map_cons] at houtputs
      exact (List.nodup_append.mp houtputs).2.2 _ (List.mem_map_of_mem hu) _ List.mem_cons_self
        (of_decide_eq_true hsame)
    have hentry : buildEntry b (.text t.name, .map (Normal.target t)) =
        ok { b with targets := b.targets ++ [t.settled] } := by
      rw [buildEntry, keyText_text, ok_then, hphase, ok_then]
      simp only
      rw [if_neg hreserved.2.2.1, Tree.entries?_map, ofOption_some, ok_then, target_target ht, ok_then,
        addTarget, hnew]
    have hrest := ih { b with targets := b.targets ++ [t.settled] }
      (fun u hu => htargets u (List.mem_cons_of_mem t hu)) (by simpa using houtputs)
    rw [keyed, List.map_cons, List.foldlM_cons, hentry, ok_then, ← keyed, hrest]
    simp

/-- The build comes back, each target once. -/
theorem build_build {b : Build} (h : b.Canonical) :
    build (Normal.build b) =
      ok { b with targets := (lastBy Target.name b.targets).map Target.settled } := by
  have houtputs : ((lastBy Target.name b.targets).map Target.output).Nodup := by
    refine List.Nodup.map_on (fun t ht u hu hsame => ?_) (nodup_lastBy b.targets).of_map
    exact List.inj_on_of_nodup_map h.outputs (mem_of_mem_lastBy ht) (mem_of_mem_lastBy hu) hsame
  have hphase : (phase b.phase).foldlM buildEntry {} = ok { phase := b.phase } := by
    refine foldlM_phase "build" Build.phase (fun d p => { d with phase := p })
      b.phase {} rfl rfl (fun p => ⟨rfl, fun q => rfl⟩) fun d name value p hp => ?_
    rw [buildEntry, keyText_text, ok_then]
    simp only
    rw [hp, ok_then]
    rfl
  rw [build, build_eq h]
  exact foldlM_append hphase (foldlM_targets _ _
    (fun t ht => h.targets t (mem_of_mem_lastBy ht)) (by simpa using houtputs))

private theorem dependencies_dependencies {deps : List Dependency}
    (h : Dependency.Classified deps) :
    dependencies (.map (Normal.dependencies deps)) = ok deps := by
  have hentries : (Normal.dependencies deps).foldlM dependencyEntry {} =
      ok { publicly := visibleSources (·.isPublic) deps
           privately := visibleSources (·.isPrivate) deps
           atRuntime := visibleSources (·.isRuntime) deps } := by
    rw [dependencies_eq]
    refine foldlM_append (t := { publicly := visibleSources (·.isPublic) deps
                                 privately := visibleSources (·.isPrivate) deps })
      (foldlM_append (t := { publicly := visibleSources (·.isPublic) deps })
        (foldlM_part ?_ ?_) (foldlM_part ?_ ?_)) (foldlM_part ?_ ?_)
    all_goals
      first
      | intro hempty; rw [List.isEmpty_iff.mp hempty]
      | simp only [dependencyEntry]; rw [keyText_text, ok_then]; simp only
        rw [strings_stringList]; rfl
  rw [dependencies, hentries, ok_then]
  exact congrArg ok (Dependency.classify_sources h)

private theorem packageName_package (p : Package) (htrim : Text.trim p.name = p.name)
    (hnamed : p.name.isEmpty = false) : packageName (Normal.package p) = ok p.name := by
  have hlookup : Tree.lookup? "name" (Normal.package p) = some (.text p.name) := by
    rw [package_eq]
    rfl
  rw [packageName, hlookup]
  simp [htrim, hnamed]

private theorem package_package {p : Package} (htrim : Text.trim p.name = p.name)
    (hnamed : p.name.isEmpty = false) (hdeps : Dependency.Classified p.deps) :
    package (.map (Normal.package p)) = ok p := by
  rw [package, Tree.entries?_map, ofOption_some, ok_then, packageName_package p htrim hnamed, ok_then,
    package_eq]
  have hname : [(Tree.text "name", Tree.text p.name)].foldlM packageEntry { name := p.name } =
      ok { name := p.name } := rfl
  refine foldlM_append (t := ⟨p.name, p.authors, p.managers, p.version, []⟩)
    (foldlM_append (t := ⟨p.name, p.authors, p.managers, none, []⟩)
      (foldlM_append (t := ⟨p.name, p.authors, [], none, []⟩)
        (foldlM_append hname (foldlM_part ?_ ?_)) (foldlM_part ?_ ?_)) ?_) (foldlM_part ?_ ?_)
  · intro hempty
    rw [List.isEmpty_iff.mp hempty]
  · simp only [packageEntry]
    rw [keyText_text, ok_then]
    simp only
    rw [oneOrMore_stringList]
    rfl
  · intro hempty
    rw [List.isEmpty_iff.mp hempty]
  · simp only [packageEntry]
    rw [keyText_text, ok_then]
    simp only
    rw [oneOrMore_stringList]
    rfl
  · cases p.version <;> rfl
  · intro hempty
    have hread := dependencies_dependencies hdeps
    rw [List.isEmpty_iff.mp hempty] at hread
    injection congrArg Checked.outcome hread with hnone
    exact congrArg (fun deps => { p with deps }) hnone
  · simp only [packageEntry]
    rw [keyText_text, ok_then]
    simp only
    rw [dependencies_dependencies hdeps]
    rfl

section Sections

variable {name : String} {value : Tree} {isEmpty : Bool}

/-- A part of a map is found under its name, if it is written. -/
theorem lookup?_part (other : String) (rest : Tree.Entries) :
    Tree.lookup? name (part other value isEmpty ++ rest) =
      if other = name ∧ isEmpty = false then some value else Tree.lookup? name rest := by
  cases isEmpty <;> simp [part, Tree.lookup?]

private theorem checkSectionNames_part (h : name ∈ sectionNames) (rest : Tree.Entries) :
    checkSectionNames (part name value isEmpty ++ rest) = checkSectionNames rest := by
  cases isEmpty with
  | true => rfl
  | false =>
    rw [part, if_neg (by simp), List.singleton_append, checkSectionNames, keyText_text, ok_then,
      if_pos h]

variable (d : Descriptor)

private theorem sections_eq :
    sections d = (.text "package", .map (Normal.package d.package)) ::
      (part "options" (.map (Normal.phase d.options)) (Normal.phase d.options).isEmpty ++
        (part "configure" (.map (Normal.configure d.configuration))
            (Normal.configure d.configuration).isEmpty ++
          (part "build" (.map (Normal.build d.build)) (Normal.build d.build).isEmpty ++ []))) := by
  simp [sections]

private theorem lookup?_options :
    Tree.lookup? "options" (sections d) =
      if (Normal.phase d.options).isEmpty = false then some (.map (Normal.phase d.options))
      else none := by
  rw [sections_eq]
  simp [Tree.lookup?, lookup?_part, -List.append_nil]

theorem lookup?_configure :
    Tree.lookup? "configure" (sections d) =
      if (Normal.configure d.configuration).isEmpty = false then
        some (.map (Normal.configure d.configuration))
      else none := by
  rw [sections_eq]
  simp [Tree.lookup?, lookup?_part, -List.append_nil]

theorem lookup?_build :
    Tree.lookup? "build" (sections d) =
      if (Normal.build d.build).isEmpty = false then some (.map (Normal.build d.build))
      else none := by
  rw [sections_eq]
  simp [Tree.lookup?, lookup?_part, -List.append_nil]

private theorem checkSectionNames_sections : checkSectionNames (sections d) = ok () := by
  rw [sections_eq, checkSectionNames, keyText_text, ok_then, if_pos (by decide),
    checkSectionNames_part (by decide), checkSectionNames_part (by decide),
    checkSectionNames_part (by decide)]
  rfl

end Sections

/-- A section is read back, also if it was left out because it has no entries. -/
theorem readSection_part {α : Type} {root entries : Tree.Entries} {name : String} {default a : α}
    {read : Tree.Entries → Checked α} (hdefault : read [] = ok default)
    (hlookup : Tree.lookup? name root =
      if entries.isEmpty = false then some (.map entries) else none)
    (hread : read entries = ok a) : readSection root name default read = ok a := by
  rw [readSection, hlookup]
  cases entries with
  | nil => exact hdefault.symm.trans hread
  | cons e rest => exact hread

/-- Every canonical descriptor is read back from its tree, settled. -/
theorem descriptor_descriptor {d : Descriptor} (h : d.Canonical) :
    descriptor (Normal.descriptor d) = ok d.settled := by
  have hpackage : Tree.lookup? "package" (sections d) = some (.map (Normal.package d.package)) := rfl
  have hoptions : readSection (sections d) "options" {} options = ok d.options :=
    readSection_part rfl (lookup?_options d) (options_phase d.options)
  have hconfigure : readSection (sections d) "configure" {} configure =
      ok d.settled.configuration :=
    readSection_part rfl (lookup?_configure d) (configure_configure h.statements)
  have hbuild : readSection (sections d) "build" {} build = ok d.settled.build :=
    readSection_part rfl (lookup?_build d) (build_build h.build)
  rw [descriptor, descriptor_eq, Tree.entries?_map, ofOption_some, ok_then, checkSectionNames_sections,
    ok_then, hpackage, ofOption_some, ok_then, package_package h.name h.named h.deps, ok_then,
    hoptions, ok_then, hconfigure, ok_then, hbuild, ok_then]
  rfl

end Reading

end PackageScript
