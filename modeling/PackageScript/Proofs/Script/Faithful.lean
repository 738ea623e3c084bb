import PackageScript.Output
import PackageScript.Proofs.Reading.Origin
import PackageScript.Proofs.Script.Meaning
/-! The script of a descriptor is read as what the descriptor says. -/
namespace PackageScript
open Script

/-- The name of the fallback, or the tags with ampersands between them. -/
def Selector.text : Selector → String
  | .fallback => "default"
  | .all tags => "&".intercalate tags

/-- The bindings of a setting in their order, each a selector with its strings. -/
def Setting.value (s : Setting) : Value :=
  .tuple (s.bindings.map fun b =>
    .tuple [.string b.selector.text, .list (b.strings.map .string)])

/-- The engine's name for a change: that of the descriptor, with underscores. -/
def Change.method (c : Change) : String :=
  String.ofList ("hwaf_".toList ++ c.keyword.toList.map fun d => if d = '-' then '_' else d)

def Statement.effect : Statement → Effect
  | .change how s => ⟨how.method, [.string s.name, s.value], []⟩
  | .declareTag name content =>
    ⟨"hwaf_declare_tag", [.string name], [("content", .list (content.map .string))]⟩
  | .applyTag name => ⟨"hwaf_apply_tag", [.string name], []⟩

/-- A target says its name, what it builds and its features, and then each of its settings. -/
def Target.effect (t : Target) : Effect where
  method := "hwaf_target"
  values := []
  named :=
    [("name", .string t.name), ("target", .string (t.outputName.getD t.name)),
      ("features", .string (" ".intercalate t.features))] ++
      (t.fields ++ t.extensions).map fun s => (s.name, s.value)

def Phase.effects (p : Phase) (name : String) : List Effect :=
  p.tools.map (fun tool => ⟨"load", [.string tool], []⟩) ++
    p.hooks.map fun hook =>
      ⟨"hwaf_load_fct", [.element "PACKAGE" "name", .string name, .string hook], []⟩

def Visibility.flags (v : Visibility) : List (String × Value) :=
  ([("public", v.isPublic), ("private", v.isPrivate), ("runtime", v.isRuntime)].filter
    Prod.snd).map fun flag => (flag.1, .yes)

def Dependency.effect (d : Dependency) : Effect where
  method := "use_pkg"
  values := [.string d.name]
  named := (d.version.toList.map fun v => ("version", .string v)) ++ d.visibility.flags

/-- Public dependencies, then the other private ones, then those at runtime only. -/
def Dependency.inGroups (deps : List Dependency) : List Dependency :=
  deps.filter (·.visibility.isPublic) ++
    deps.filter (fun d => d.visibility.isPrivate && !d.visibility.isPublic) ++
    deps.filter (·.visibility = .atRuntime)

def Package.entries (p : Package) : List (String × Value) :=
  [("name", .string p.name), ("authors", .list (p.authors.map .string)),
    ("managers", .list (p.managers.map .string))] ++
    p.version.toList.map fun v => ("version", .string v)

/-- What a descriptor says to the build engine. -/
def Descriptor.program (d : Descriptor) : Script.Program where
  tables := [("PACKAGE", .table d.package.entries)]
  routines :=
    [⟨"pkg_deps", "ctx", (Dependency.inGroups d.package.deps).map Dependency.effect, true⟩,
      ⟨"options", "ctx", d.options.effects "options", true⟩,
      ⟨"configure", "ctx", d.configuration.phase.effects "configure" ++
        d.configuration.statements.map Statement.effect, true⟩,
      ⟨"build", "ctx", d.build.phase.effects "build" ++ d.build.targets.map Target.effect, true⟩]

/-- Whether no setting of a target has the name that is an identifier and no keyword, but nothing can
be bound to it. -/
def Target.Bindable (t : Target) : Prop :=
  ∀ s ∈ t.fields ++ t.extensions, s.name ≠ "__debug__"

def Descriptor.Bindable (d : Descriptor) : Prop :=
  ∀ t ∈ d.build.targets, t.Bindable

namespace Script

/-- A call whose line is read as an effect on the parameter. -/
structure Call.Performs (c : Call) (e : Effect) : Prop where
  identified : c.Identified
  instruction : c.line.instruction? = some (.perform "ctx" e.method e.values e.named)

private theorem compact_eq_text (s : Selector) : s.compact = s.text := by
  cases s with
  | fallback => rfl
  | all tags => exact Text.joinWith_eq_intercalate "&" tags

private theorem value_choices (s : Setting) : (choices s).value = s.value := by
  simp [choices, Expression.value, Setting.value, choiceValue, stringList, compact_eq_text]

private theorem performs_call {c : Call} (plain : List Expression) (more : List Argument)
    {entries : List (String × Value)} (hf : isIdentifier c.function = true)
    (hc : c.arguments = plain.map .plain ++ more) (hid : ∀ a ∈ more, a.Identified ∧ a.Bindable)
    (hmore : more.map Argument.passed? = entries.map some) (hn : (entries.map Prod.fst).Nodup) :
    c.Performs ⟨c.function, plain.map Expression.value, entries⟩ := by
  have harguments : ∀ a ∈ c.arguments, a.Identified ∧ a.Bindable := by
    rw [hc]
    refine List.forall_mem_append.mpr ⟨fun a ha => ?_, hid⟩
    obtain ⟨e, -, rfl⟩ := List.mem_map.mp ha
    exact ⟨trivial, trivial⟩
  exact ⟨⟨hf, fun a ha => (harguments a ha).1⟩,
    instruction_call (Reader.not_keyword_of_isIdentifier hf) (fun a ha => (harguments a ha).2)
      hc hmore hn⟩

private theorem performs_plain {function : String} (hf : isIdentifier function = true)
    (plain : List Expression) :
    Call.Performs { function, arguments := plain.map .plain }
      ⟨function, plain.map Expression.value, []⟩ :=
  performs_call plain [] hf (List.append_nil _).symm (by simp) rfl List.nodup_nil

private theorem performs_statement (s : Statement) : (statementCall s).Performs s.effect := by
  cases s with
  | change how s =>
    have hf : isIdentifier (changeFunction how) = true := by cases how <;> decide
    have hmethod : how.method = changeFunction how := by cases how <;> decide
    have hcall := performs_plain hf [.text s.name, choices s]
    rw [← hmethod] at hcall
    rw [statementCall, Statement.effect, ← hmethod, ← value_choices]
    exact hcall
  | declareTag name content =>
    have hf : isIdentifier "hwaf_declare_tag" = true := by decide
    have hcontent : isIdentifier "content" = true ∧ "content" ∉ unbindable := by decide
    exact performs_call [.text name] [.named "content" (.texts content)] hf rfl
      (List.forall_mem_singleton.mpr hcontent) rfl (List.nodup_singleton _)
  | applyTag name =>
    have hf : isIdentifier "hwaf_apply_tag" = true := by decide
    exact performs_plain hf [.text name]

private theorem not_known_of_reserved :
    ∀ key ∈ Target.reservedKeys, (KnownField.ofKey? key).isSome = false := by
  decide

private theorem nodup_names {t : Target} (h : t.Canonical) (hd : t.Distinct) :
    (["name", "target", "features"] ++ (t.fields ++ t.extensions).map Setting.name).Nodup := by
  have hreserved : ∀ key ∈ ["name", "target", "features"], key ∈ Target.reservedKeys := by decide
  have hnew : ∀ s ∈ t.fields ++ t.extensions, s.name ∉ Target.reservedKeys := by
    refine List.forall_mem_append.mpr ⟨fun s hs hr => ?_, fun s hs => (h.extensions s hs).2.1⟩
    have hknown := (h.fields s hs).1
    rw [not_known_of_reserved _ hr] at hknown
    cases hknown
  refine List.nodup_append.mpr ⟨by decide, ?_, ?_⟩
  · rw [List.map_append]
    refine List.nodup_append.mpr ⟨hd.fields, hd.extensions, ?_⟩
    intro field hfield extension hextension heq
    obtain ⟨s, hs, rfl⟩ := List.mem_map.mp hfield
    obtain ⟨u, hu, rfl⟩ := List.mem_map.mp hextension
    have hknown := (h.fields s hs).1
    rw [heq, (h.extensions u hu).1] at hknown
    cases hknown
  · intro key hkey name hname heq
    obtain ⟨s, hs, rfl⟩ := List.mem_map.mp hname
    exact hnew s hs (heq ▸ hreserved key hkey)

private theorem isIdentifier_target : isIdentifier "hwaf_target" = true := by decide

private theorem bindable_setting (s : Setting) :
    (settingArgument s).Bindable ↔ s.name ≠ "__debug__" := by
  rw [settingArgument]
  split
  · have hk := Reader.not_keyword_of_isIdentifier ‹isIdentifier s.name = true›
    simp [Argument.Bindable, unbindable, hk]
  · have hdebug : isIdentifier "__debug__" = true := by decide
    refine iff_of_true trivial fun hname => ?_
    rw [← hname] at hdebug
    contradiction

private def leadingArguments (t : Target) : List Argument :=
  [.named "name" (.text t.name), .named "target" (.text t.output),
    .named "features" (.text (Text.joinWith " " t.features))]

private theorem leading_passable (t : Target) :
    ∀ a ∈ leadingArguments t, a.Identified ∧ a.Bindable := by
  have hkeys : ∀ key ∈ ["name", "target", "features"],
      isIdentifier key = true ∧ key ∉ unbindable := by decide
  simpa [leadingArguments, Argument.Identified, Argument.Bindable] using hkeys

private theorem identified_setting (s : Setting) : (settingArgument s).Identified := by
  rw [settingArgument]
  split
  · assumption
  · trivial

private theorem identified_target (t : Target) : (targetCall t).Identified where
  function := isIdentifier_target
  arguments := List.forall_mem_append.mpr ⟨fun a ha => (leading_passable t a ha).1,
    List.forall_mem_map.mpr fun s _ => identified_setting s⟩

private theorem passed_target (t : Target) :
    (targetCall t).arguments.map Argument.passed? = t.effect.named.map some := by
  have hsetting : ∀ s : Setting, (settingArgument s).passed? = some (s.name, s.value) := by
    intro s
    rw [settingArgument, ← value_choices]
    split <;> rfl
  have hsettings : ((t.fields ++ t.extensions).map settingArgument).map Argument.passed? =
      ((t.fields ++ t.extensions).map fun s => (s.name, s.value)).map some := by
    rw [List.map_map, List.map_map]
    exact List.map_congr_left fun s _ => hsetting s
  rw [targetCall, List.map_append, hsettings, Target.effect, List.map_append,
    ← Text.joinWith_eq_intercalate]
  rfl

private theorem nodup_target {t : Target} (h : t.Canonical) (hd : t.Distinct) :
    (t.effect.named.map Prod.fst).Nodup := by
  have hnames := nodup_names h hd
  rw [Target.effect, List.map_append, List.map_map]
  exact hnames

private theorem performs_target {t : Target} (h : t.Canonical) (hd : t.Distinct)
    (hb : t.Bindable) : (targetCall t).Performs t.effect := by
  have hsettings : ∀ s ∈ t.fields ++ t.extensions,
      (settingArgument s).Identified ∧ (settingArgument s).Bindable :=
    fun s hs => ⟨identified_setting s, (bindable_setting s).mpr (hb s hs)⟩
  exact performs_call [] (targetCall t).arguments isIdentifier_target rfl
    (List.forall_mem_append.mpr ⟨leading_passable t, List.forall_mem_map.mpr hsettings⟩)
    (passed_target t) (nodup_target h hd)

private theorem instruction_target_unbindable {t : Target} (h : t.Canonical) (hd : t.Distinct)
    (hb : ¬ t.Bindable) : (targetCall t).line.instruction? = none := by
  have hargument : ∃ a ∈ (targetCall t).arguments, ¬ a.Bindable := by
    simp only [Target.Bindable, not_forall] at hb
    obtain ⟨s, hs, hname⟩ := hb
    exact ⟨settingArgument s, List.mem_append_right _ (List.mem_map_of_mem hs),
      fun hbindable => hname ((bindable_setting s).mp hbindable)⟩
  have hcall : (targetCall t).arguments =
      ([] : List Expression).map .plain ++ (targetCall t).arguments := rfl
  exact instruction_call_unbindable rfl (Reader.not_keyword_of_isIdentifier isIdentifier_target)
    hargument hcall (passed_target t) (nodup_target h hd)

private theorem entries_flags (v : Visibility) :
    (v.names.map fun name => Argument.named name .yes).map Argument.passed? = v.flags.map some := by
  obtain ⟨isPublic, isPrivate, isRuntime⟩ := v
  cases isPublic <;> cases isPrivate <;> cases isRuntime <;> rfl

private theorem performs_dependency (d : Dependency) : (dependencyCall d).Performs d.effect := by
  have hf : isIdentifier "use_pkg" = true := by decide
  have hversion : isIdentifier "version" = true ∧ "version" ∉ unbindable := by decide
  have hflags : ∀ name ∈ d.visibility.names, isIdentifier name = true ∧ name ∉ unbindable := by
    obtain ⟨isPublic, isPrivate, isRuntime⟩ := d.visibility
    cases isPublic <;> cases isPrivate <;> cases isRuntime <;> decide
  have hnames : ("version" :: d.visibility.flags.map Prod.fst).Nodup := by
    obtain ⟨isPublic, isPrivate, isRuntime⟩ := d.visibility
    cases isPublic <;> cases isPrivate <;> cases isRuntime <;> decide
  refine performs_call [.text d.name]
    ((d.version.toList.map fun v => Argument.named "version" (.text v)) ++
      d.visibility.names.map fun name => Argument.named name .yes) hf rfl ?_ ?_ ?_
  · refine List.forall_mem_append.mpr ⟨List.forall_mem_map.mpr fun _ _ => hversion,
      List.forall_mem_map.mpr hflags⟩
  · rw [List.map_append, List.map_append, entries_flags]
    cases d.version <;> rfl
  · cases d.version with
    | none => exact hnames.of_cons
    | some v => exact hnames

private theorem performs_map {α : Type} {call : α → Call} {effect : α → Effect} {xs : List α}
    (h : ∀ a ∈ xs, (call a).Performs (effect a)) :
    List.Forall₂ Call.Performs (xs.map call) (xs.map effect) :=
  List.forall₂_map_left_iff.mpr (List.forall₂_map_right_iff.mpr (List.forall₂_same.mpr h))

private theorem identified_of_performs {calls : List Call} {effects : List Effect}
    (h : List.Forall₂ Call.Performs calls effects) : ∀ c ∈ calls, c.Identified := by
  induction h with
  | nil => simp
  | cons hc _ ih => exact List.forall_mem_cons.mpr ⟨hc.identified, ih⟩

private theorem performs_phase (name : String) (p : Phase) :
    List.Forall₂ Call.Performs (phaseCalls name p) (p.effects name) := by
  have hload : isIdentifier "load" = true := by decide
  have hhook : isIdentifier "hwaf_load_fct" = true := by decide
  exact List.rel_append (performs_map fun tool _ => performs_plain hload [.text tool])
    (performs_map fun hook _ => performs_plain hhook [.packageName, .text name, .text hook])

private theorem performs_configuration (c : Configuration) :
    List.Forall₂ Call.Performs (phaseCalls "configure" c.phase ++ c.statements.map statementCall)
      (c.phase.effects "configure" ++ c.statements.map Statement.effect) :=
  List.rel_append (performs_phase "configure" c.phase)
    (performs_map fun s _ => performs_statement s)

private theorem performs_build {b : Build} (h : b.Canonical) (hd : b.Distinct)
    (hb : ∀ t ∈ b.targets, t.Bindable) :
    List.Forall₂ Call.Performs (phaseCalls "build" b.phase ++ b.targets.map targetCall)
      (b.phase.effects "build" ++ b.targets.map Target.effect) :=
  List.rel_append (performs_phase "build" b.phase)
    (performs_map fun t ht => performs_target (h.targets t ht) (hd.targets t ht) (hb t ht))

private theorem identified_build (b : Build) :
    ∀ c ∈ phaseCalls "build" b.phase ++ b.targets.map targetCall, c.Identified :=
  List.forall_mem_append.mpr ⟨identified_of_performs (performs_phase "build" b.phase),
    List.forall_mem_map.mpr fun t _ => identified_target t⟩

private theorem calls_dependencies {deps : List Dependency} (h : Dependency.Classified deps) :
    (["public", "private", "runtime"].map (dependencyGroup deps)).flatMap Prod.snd =
      (Dependency.inGroups deps).map dependencyCall := by
  have hpublic : ∀ v, decide (group v = "public") = v.isPublic := by
    rintro ⟨isPublic, isPrivate, isRuntime⟩
    cases isPublic <;> cases isPrivate <;> rfl
  have hprivate : ∀ v, decide (group v = "private") = (v.isPrivate && !v.isPublic) := by
    rintro ⟨isPublic, isPrivate, isRuntime⟩
    cases isPublic <;> cases isPrivate <;> rfl
  have hruntime : ∀ d ∈ deps, decide (group d.visibility = "runtime") =
      decide (d.visibility = .atRuntime) := by
    intro d hd
    have hvisible := h.visible d hd
    revert hvisible
    obtain ⟨isPublic, isPrivate, isRuntime⟩ := d.visibility
    cases isPublic <;> cases isPrivate <;> cases isRuntime <;> decide
  simp [dependencyGroup, Dependency.inGroups, hpublic, hprivate, List.filter_congr hruntime]

private theorem performs_dependencies {deps : List Dependency}
    (h : Dependency.Classified deps) :
    List.Forall₂ Call.Performs
      ((["public", "private", "runtime"].map (dependencyGroup deps)).flatMap Prod.snd)
      ((Dependency.inGroups deps).map Dependency.effect) := by
  rw [calls_dependencies h]
  exact performs_map fun d _ => performs_dependency d

section Programs

variable {tables : List (String × Value)} {before : List Routine}

private theorem line_call {f : Routine} {c : Call} {e : Effect} (h : c.Performs e)
    (hf : f.returned = false) (hp : f.parameter = "ctx") :
    Program.line ⟨tables, before ++ [f]⟩ c.line =
      some ⟨tables, before ++ [{ f with effects := f.effects ++ [e] }]⟩ := by
  have hindent : c.line.indent = 4 := rfl
  simp [Program.line, hindent, h.instruction, Routine.extend, hf, hp]

private theorem lines_calls {name : String} {calls : List Call} {effects : List Effect}
    (h : List.Forall₂ Call.Performs calls effects) (front : List Effect) :
    (calls.map Call.line).foldlM Program.line ⟨tables, before ++ [⟨name, "ctx", front, false⟩]⟩ =
      some ⟨tables, before ++ [⟨name, "ctx", front ++ effects, false⟩]⟩ := by
  induction h generalizing front with
  | nil => simp
  | cons hc _ ih =>
    rw [List.map_cons, List.foldlM_cons, line_call hc rfl rfl, Option.bind_eq_bind,
      Option.bind_some, ih, List.append_assoc]
    rfl

end Programs

private theorem lines_append {p q : Program} {front : List Line}
    (h : front.foldlM Program.line p = some q) (rest : List Line) :
    (front ++ rest).foldlM Program.line p = rest.foldlM Program.line q := by
  rw [List.foldlM_append, h]
  rfl

private theorem lines_function (p : Program) {name : String} {calls : List Call}
    {effects : List Effect} (hname : name ∈ "pkg_deps" :: phaseNames)
    (h : List.Forall₂ Call.Performs calls effects) (hnew : p.defines name = false)
    (hreturned : p.routines.all (·.returned) = true) :
    (functionLines name calls).foldlM Program.line p =
      some ⟨p.tables, p.routines ++ [⟨name, "ctx", effects, true⟩]⟩ := by
  have hbindable : ∀ name ∈ "pkg_deps" :: phaseNames, name ∉ unbindable := by decide
  have hdefine : (headerLine name).instruction? =
      if name ∈ unbindable ∨ "ctx" ∈ unbindable then none else some (.define name "ctx") := rfl
  have hfree : ¬ (name ∈ unbindable ∨ "ctx" ∈ unbindable) :=
    not_or.mpr ⟨hbindable name hname, by decide⟩
  rw [if_neg hfree] at hdefine
  have hheader : Program.line p (headerLine name) =
      some ⟨p.tables, p.routines ++ [⟨name, "ctx", [], false⟩]⟩ := by
    have hindent : (headerLine name).indent = 0 := rfl
    simp [Program.line, hindent, hdefine, hnew, hreturned]
  have hreturn : Program.line ⟨p.tables, p.routines ++ [⟨name, "ctx", effects, false⟩]⟩ returnLine =
      some ⟨p.tables, p.routines ++ [⟨name, "ctx", effects, true⟩]⟩ := by
    have hleave : returnLine.instruction? = some .leave := rfl
    have hindent : returnLine.indent = 4 := rfl
    simp [Program.line, hindent, hleave, Routine.extend]
  rw [functionLines, List.cons_append, List.foldlM_cons, hheader, Option.bind_eq_bind,
    Option.bind_some, lines_append (lines_calls h []), List.nil_append, List.foldlM_cons, hreturn]
  rfl

private theorem lines?_render {d : Descriptor} (h : d.Canonical) :
    Scanner.lines? (d.render .script) = some (ofDescriptor d).lines := by
  have hdependencies := identified_of_performs (performs_dependencies h.deps)
  apply lines?_source
  · intro g hg
    refine ⟨?_, fun c hc => hdependencies c (List.mem_flatMap.mpr ⟨g, hg, hc⟩)⟩
    obtain ⟨name, hname, rfl⟩ := List.mem_map.mp hg
    exact hname
  · refine List.forall_mem_cons.mpr ⟨⟨by simp [phaseNames], ?_⟩, List.forall_mem_cons.mpr
      ⟨⟨by simp [phaseNames], ?_⟩, List.forall_mem_singleton.mpr ⟨by simp [phaseNames], ?_⟩⟩⟩
    · exact identified_of_performs (performs_phase "options" d.options)
    · exact identified_of_performs (performs_configuration d.configuration)
    · exact identified_build d.build

private theorem program_lines {d : Descriptor} (h : d.Canonical) (hd : d.build.Distinct)
    (hb : d.Bindable) : (ofDescriptor d).lines.foldlM Program.line {} = some d.program := by
  have hkeys : ((packageTable d.package).map Prod.fst).Nodup := by
    cases hversion : d.package.version <;> simp [packageTable, hversion]
  have hentries : ((packageTable d.package).map fun e => (e.1, e.2.value)) = d.package.entries := by
    cases hversion : d.package.version <;>
      simp [packageTable, Package.entries, hversion, Expression.value, stringList]
  have hassign := instruction_metadata hkeys
  rw [hentries] at hassign
  have hmetadata : [metadataLine (packageTable d.package)].foldlM Program.line {} =
      some ⟨d.program.tables, []⟩ := by
    have hindent : (metadataLine (packageTable d.package)).indent = 0 := rfl
    simp [Program.line, hindent, hassign, Program.defines, Descriptor.program]
  have hnames : ∀ name ∈ phaseNames, name ∈ "pkg_deps" :: phaseNames :=
    fun _ => List.mem_cons_of_mem _
  have hdependencies := lines_function ⟨d.program.tables, []⟩ List.mem_cons_self
    (performs_dependencies h.deps) rfl rfl
  have hoptions := lines_function ⟨d.program.tables, d.program.routines.take 1⟩
    (hnames "options" (by decide)) (performs_phase "options" d.options) rfl rfl
  have hconfigure := lines_function ⟨d.program.tables, d.program.routines.take 2⟩
    (hnames "configure" (by decide)) (performs_configuration d.configuration) rfl rfl
  have hbuild := lines_function ⟨d.program.tables, d.program.routines.take 3⟩
    (hnames "build" (by decide)) (performs_build h.build hd hb) rfl rfl
  exact (lines_append hmetadata _).trans ((lines_append hdependencies _).trans
    ((lines_append hoptions _).trans ((lines_append hconfigure _).trans (lines_append hbuild []))))

private theorem lines_unread {l : Line} {ls : List Line} (hl : l ∈ ls)
    (h : l.instruction? = none) (p : Program) : ls.foldlM Program.line p = none := by
  have hline : ∀ p : Program, p.line l = none := fun p => by simp [Program.line, h]
  induction ls generalizing p with
  | nil => cases hl
  | cons first rest ih =>
    rw [List.foldlM_cons]
    rcases List.mem_cons.mp hl with rfl | hrest
    · rw [hline]
      rfl
    · exact Option.bind_eq_none_iff.mpr fun q _ => ih hrest q

private theorem program_lines_unbindable {d : Descriptor} (h : d.Canonical) (hd : d.build.Distinct)
    (hb : ¬ d.Bindable) : (ofDescriptor d).lines.foldlM Program.line {} = none := by
  simp only [Descriptor.Bindable, not_forall] at hb
  obtain ⟨t, ht, htarget⟩ := hb
  have hcall : targetCall t ∈ phaseCalls "build" d.build.phase ++ d.build.targets.map targetCall :=
    List.mem_append_right _ (List.mem_map_of_mem ht)
  have hline : (targetCall t).line ∈ (ofDescriptor d).lines :=
    List.mem_append_right _ (List.mem_flatMap.mpr ⟨("build", _), by simp [ofDescriptor],
      List.mem_append_left _ (List.mem_cons_of_mem _ (List.mem_map_of_mem hcall))⟩)
  exact lines_unread hline
    (instruction_target_unbindable (h.build.targets t ht) (hd.targets t ht) htarget) _

end Script

/-- Each dependency is in one of the groups. -/
theorem Dependency.perm_inGroups {deps : List Dependency} (h : Classified deps) :
    (inGroups deps).Perm deps := by
  have hrest : ∀ d ∈ deps, (!d.visibility.isPrivate && !d.visibility.isPublic) =
      decide (d.visibility = .atRuntime) := by
    intro d hd
    have hvisible := h.visible d hd
    revert hvisible
    obtain ⟨isPublic, isPrivate, isRuntime⟩ := d.visibility
    cases isPublic <;> cases isPrivate <;> cases isRuntime <;> decide
  have hpublic := List.filter_append_perm (fun d : Dependency => d.visibility.isPublic) deps
  have hprivate := List.filter_append_perm (fun d : Dependency => d.visibility.isPrivate)
    (deps.filter fun d => !d.visibility.isPublic)
  rw [List.filter_filter, List.filter_filter] at hprivate
  rw [inGroups, List.append_assoc, ← List.filter_congr hrest]
  exact List.Perm.trans (hprivate.append_left _) hpublic

private theorem read?_render {d : Descriptor} (h : d.Canonical) :
    Script.Program.read? (d.render .script) =
      ((Script.ofDescriptor d).lines.foldlM Script.Program.line {}).bind fun p =>
        if p.routines.all (·.returned) then some p else none := by
  rw [Script.Program.read?, Script.lines?_render h]
  rfl

private theorem not_read_of_not_bindable {d : Descriptor} (h : d.Canonical)
    (hd : d.build.Distinct) (hb : ¬ d.Bindable) :
    Script.Program.read? (d.render .script) = none := by
  rw [read?_render h, Script.program_lines_unbindable h hd hb]
  rfl

/-- The script of an accepted descriptor is read as what the descriptor says, with one call for each
dependency, if its settings are bindable. If not, the script is not read at all. -/
theorem program_of_render {t : Yaml.Tree} {d : Descriptor}
    (hdistinct : t.EveryMap Yaml.Tree.DistinctKeys) (huntagged : t.EveryMap Yaml.Tree.UntaggedKeys)
    (h : (Reading.descriptor t).outcome = .ok d) :
    (d.Bindable → Script.Program.read? (d.render .script) = some d.program) ∧
      (¬ d.Bindable → Script.Program.read? (d.render .script) = none) ∧
      (Dependency.inGroups d.package.deps).Perm d.package.deps := by
  have hcanonical := Reading.canonical_descriptor h
  have hd := Reading.distinct_descriptor hdistinct huntagged h
  refine ⟨fun hb => ?_, not_read_of_not_bindable hcanonical hd,
    Dependency.perm_inGroups hcanonical.deps⟩
  rw [read?_render hcanonical, Script.program_lines hcanonical hd hb]
  rfl

/-- Quotes, a line feed and a backslash in texts, and settings whose names are no identifiers. -/
def quotedTree : Yaml.Tree :=
  .map [(.text "package", .map [(.text "name", .text "p"),
      (.text "authors", .list [.text "\"A\" \\\nB"])]),
    (.text "build", .map [(.text "lib", .map [(.text "class", .text "x"),
      (.text "my-flag", .map [(.text "dbg & linux", .text "-g")]),
      (.text "source", .list [.text "a.cxx"])])])]

def quotedTarget : Target where
  name := "lib"
  fields := [.plain "source" ["a.cxx"]]
  extensions := [.plain "class" ["x"], ⟨"my-flag", [⟨.all ["dbg", "linux"], ["-g"]⟩]⟩]

/-- The script of that tree has one call in its last function, with all of the target in it. -/
theorem program_of_render_quoted :
    ∃ p, Script.Program.read?
          (Descriptor.render ⟨{ name := "p", authors := ["\"A\" \\\nB"] }, {}, {},
            { targets := [quotedTarget] }⟩ .script) = some p ∧
      p.routines.getLast? = some ⟨"build", "ctx", [quotedTarget.effect], true⟩ := by
  have hdistinct : quotedTree.EveryMap Yaml.Tree.DistinctKeys := by
    simp [quotedTree, Yaml.Tree.DistinctKeys, Yaml.Tree.same]
  have huntagged : quotedTree.EveryMap Yaml.Tree.UntaggedKeys := by
    simp [quotedTree, Yaml.Tree.UntaggedKeys]
  have hbindable : Descriptor.Bindable ⟨{ name := "p", authors := ["\"A\" \\\nB"] }, {}, {},
      { targets := [quotedTarget] }⟩ := by
    simp [Descriptor.Bindable, Target.Bindable, quotedTarget, Setting.plain]
  exact ⟨_, (program_of_render hdistinct huntagged rfl).1 hbindable, rfl⟩

/-- An extension with a name that is an identifier and no keyword. -/
def debugTree : Yaml.Tree :=
  .map [(.text "package", .map [(.text "name", .text "p")]),
    (.text "build", .map [(.text "t", .map [(.text "__debug__", .text "x")])])]

def debugDescriptor : Descriptor where
  package := { name := "p" }
  build := { targets := [{ name := "t", extensions := [.plain "__debug__" ["x"]] }] }

/-- A constant's name is taken for that of an argument, and the script is not read. -/
theorem debug_not_read :
    debugTree.EveryMap Yaml.Tree.DistinctKeys ∧ debugTree.EveryMap Yaml.Tree.UntaggedKeys ∧
      (Reading.descriptor debugTree).outcome = .ok debugDescriptor ∧
      Script.Program.read? (debugDescriptor.render .script) = none := by
  have hdistinct : debugTree.EveryMap Yaml.Tree.DistinctKeys := by
    simp [debugTree, Yaml.Tree.DistinctKeys, Yaml.Tree.same]
  have huntagged : debugTree.EveryMap Yaml.Tree.UntaggedKeys := by
    simp [debugTree, Yaml.Tree.UntaggedKeys]
  have haccepted : (Reading.descriptor debugTree).outcome = .ok debugDescriptor := rfl
  have hbindable : ¬ debugDescriptor.Bindable := by
    simp [Descriptor.Bindable, Target.Bindable, debugDescriptor, Setting.plain]
  exact ⟨hdistinct, huntagged, haccepted,
    not_read_of_not_bindable (Reading.canonical_descriptor haccepted)
      (Reading.distinct_descriptor hdistinct huntagged haccepted) hbindable⟩

end PackageScript
