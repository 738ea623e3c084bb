import PackageScript.Setting
import PackageScript.Dependency
/-! Package descriptors: what a package needs, what it sets and what it builds. -/
namespace PackageScript

structure Package where
  name : String
  authors : List String := []
  managers : List String := []
  version : Option String := none
  deps : List Dependency := []
  deriving DecidableEq, Repr

/-- What a phase loads and calls before anything else. -/
structure Phase where
  tools : List String := []
  hooks : List String := []
  deriving DecidableEq, Repr

/-- The ways to change a path variable or a macro. -/
inductive Change where
  | declarePath
  | appendPath
  | prependPath
  | removePath
  | declareMacro
  | appendMacro
  | removeMacro
  deriving DecidableEq, Repr

namespace Change

/-- All changes, in the order in which messages list them. -/
def all : List Change :=
  [.declarePath, .appendPath, .prependPath, .removePath, .declareMacro, .appendMacro, .removeMacro]

def keyword : Change → String
  | .declarePath => "declare-path"
  | .appendPath => "path-append"
  | .prependPath => "path-prepend"
  | .removePath => "path-remove"
  | .declareMacro => "declare-macro"
  | .appendMacro => "macro-append"
  | .removeMacro => "macro-remove"

def ofKeyword? (keyword : String) : Option Change :=
  all.find? (fun c => c.keyword = keyword)

end Change

/-- A configure-time effect. -/
inductive Statement where
  | change (how : Change) (setting : Setting)
  | declareTag (name : String) (content : List String)
  | applyTag (name : String)
  deriving DecidableEq, Repr

namespace Statement

def declaredTag? : Statement → Option String
  | .declareTag name _ => some name
  | _ => none

def appliedTag? : Statement → Option String
  | .applyTag name => some name
  | _ => none

end Statement

structure Configuration where
  phase : Phase := {}
  statements : List Statement := []
  deriving DecidableEq, Repr

def Configuration.appliedTags (c : Configuration) : List String :=
  c.statements.filterMap Statement.appliedTag?

/-- The target fields with a meaning of their own. -/
inductive KnownField where
  | source
  | use
  | defines
  | cFlags
  | cxxFlags
  | linkFlags
  | sharedLibFlags
  | staticLibFlags
  | runtimePath
  | includes
  | exportIncludes
  | installPath
  deriving DecidableEq, Repr

namespace KnownField

def all : List KnownField :=
  [.source, .use, .defines, .cFlags, .cxxFlags, .linkFlags, .sharedLibFlags, .staticLibFlags,
    .runtimePath, .includes, .exportIncludes, .installPath]

def key : KnownField → String
  | .source => "source"
  | .use => "use"
  | .defines => "defines"
  | .cFlags => "cflags"
  | .cxxFlags => "cxxflags"
  | .linkFlags => "linkflags"
  | .sharedLibFlags => "shlibflags"
  | .staticLibFlags => "stlibflags"
  | .runtimePath => "rpath"
  | .includes => "includes"
  | .exportIncludes => "export_includes"
  | .installPath => "install_path"

def ofKey? (key : String) : Option KnownField :=
  all.find? (fun f => f.key = key)

end KnownField

/-- Something to build. Fields are settings named by a known key; all other keys are extensions. -/
structure Target where
  name : String
  outputName : Option String := none
  features : List String := []
  fields : List Setting := []
  extensions : List Setting := []
  deriving DecidableEq, Repr

def Target.output (t : Target) : String :=
  t.outputName.getD t.name

structure Build where
  phase : Phase := {}
  targets : List Target := []
  deriving DecidableEq, Repr

structure Descriptor where
  package : Package
  options : Phase := {}
  configuration : Configuration := {}
  build : Build := {}
  deriving DecidableEq, Repr

end PackageScript
