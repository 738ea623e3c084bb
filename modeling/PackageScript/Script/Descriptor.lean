import PackageScript.Script.Basic
import PackageScript.Descriptor
/-! The script of a descriptor. -/
namespace PackageScript.Script

def phaseCalls (name : String) (phase : Phase) : List Call :=
  phase.tools.map (fun tool => { function := "load", arguments := [.plain (.text tool)] }) ++
    phase.hooks.map (fun hook =>
      { function := "hwaf_load_fct"
        arguments := [.plain .packageName, .plain (.text name), .plain (.text hook)] })

def choices (s : Setting) : Expression :=
  .choices (s.bindings.map fun b => (b.selector.compact, b.strings))

def changeFunction : Change → String
  | .declarePath => "hwaf_declare_path"
  | .appendPath => "hwaf_path_append"
  | .prependPath => "hwaf_path_prepend"
  | .removePath => "hwaf_path_remove"
  | .declareMacro => "hwaf_declare_macro"
  | .appendMacro => "hwaf_macro_append"
  | .removeMacro => "hwaf_macro_remove"

def statementCall : Statement → Call
  | .change how s =>
    { function := changeFunction how, arguments := [.plain (.text s.name), .plain (choices s)] }
  | .declareTag name content =>
    { function := "hwaf_declare_tag"
      arguments := [.plain (.text name), .named "content" (.texts content)] }
  | .applyTag name => { function := "hwaf_apply_tag", arguments := [.plain (.text name)] }

/-- A setting as an argument, by name where its name is an identifier. -/
def settingArgument (s : Setting) : Argument :=
  if isIdentifier s.name then .named s.name (choices s) else .keyed s.name (choices s)

def targetCall (t : Target) : Call where
  function := "hwaf_target"
  arguments :=
    [.named "name" (.text t.name), .named "target" (.text t.output),
      .named "features" (.text (Text.joinWith " " t.features))] ++
      (t.fields ++ t.extensions).map settingArgument
  spread := true

/-- The group that lists a dependency: that of its strongest visibility. -/
def group (v : Visibility) : String :=
  if v.isPublic then "public" else if v.isPrivate then "private" else "runtime"

def dependencyCall (d : Dependency) : Call where
  function := "use_pkg"
  arguments :=
    [.plain (.text d.name)] ++ (d.version.toList.map fun v => .named "version" (.text v)) ++
      d.visibility.names.map fun name => .named name .yes

def dependencyGroup (deps : List Dependency) (name : String) : String × List Call :=
  (name, (deps.filter fun d => group d.visibility = name).map dependencyCall)

def packageTable (p : Package) : List (String × Expression) :=
  [("name", .text p.name), ("authors", .texts p.authors), ("managers", .texts p.managers)] ++
    p.version.toList.map fun v => ("version", .text v)

def ofDescriptor (d : Descriptor) : Script where
  metadata := packageTable d.package
  dependencies := ["public", "private", "runtime"].map (dependencyGroup d.package.deps)
  phases :=
    [("options", phaseCalls "options" d.options),
      ("configure", phaseCalls "configure" d.configuration.phase ++
        d.configuration.statements.map statementCall),
      ("build", phaseCalls "build" d.build.phase ++ d.build.targets.map targetCall)]

end PackageScript.Script
