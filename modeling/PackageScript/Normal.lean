import PackageScript.Reading.Statement
/-! The normal form of a descriptor: a tree of maps, lists and strings without empty parts. -/
namespace PackageScript.Normal
open Yaml

def stringList (items : List String) : Tree :=
  .list (items.map .text)

/-- The entries with a list of strings under a key, unless the list is empty. -/
def withList (key : String) (items : List String) (entries : Tree.Entries) : Tree.Entries :=
  if items.isEmpty then entries else Tree.insert (.text key) (stringList items) entries

def withItems (key : String) (items : List Tree) (entries : Tree.Entries) : Tree.Entries :=
  if items.isEmpty then entries else Tree.insert (.text key) (.list items) entries

def withMap (key : String) (inner entries : Tree.Entries) : Tree.Entries :=
  if inner.isEmpty then entries else Tree.insert (.text key) (.map inner) entries

def visibleSources (visible : Visibility → Bool) (deps : List Dependency) : List String :=
  (deps.filter fun d => visible d.visibility).map Dependency.source

def dependencies (deps : List Dependency) : Tree.Entries :=
  withList "runtime" (visibleSources (·.isRuntime) deps)
    (withList "private" (visibleSources (·.isPrivate) deps)
      (withList "public" (visibleSources (·.isPublic) deps) []))

def withVersion (version : Option String) (entries : Tree.Entries) : Tree.Entries :=
  match version with
  | some v => Tree.insert (.text "version") (.text v) entries
  | none => entries

def package (p : Package) : Tree.Entries :=
  withMap "deps" (dependencies p.deps)
    (withVersion p.version
      (withList "managers" p.managers
        (withList "authors" p.authors [(.text "name", .text p.name)])))

def phase (p : Phase) : Tree.Entries :=
  withList "hwaf-call" p.hooks (withList "tools" p.tools [])

/-- A setting: the list of its only fallback, or a map from its selectors. -/
def setting (s : Setting) : Tree :=
  match s.unconditional? with
  | some strings => stringList strings
  | none =>
    .map (s.bindings.foldl
      (fun entries b => Tree.insert (.text b.selector.source) (stringList b.strings) entries) [])

/-- The text that has the effect of a change when it is given to the variable. -/
def envText? (how : Change) (s : Setting) : Option String :=
  match s.unconditional? with
  | some [value] =>
    let self := Reading.selfReference s.name
    let text? := match how with
      | .appendPath => some (self ++ ":" ++ value)
      | .prependPath => some (value ++ ":" ++ self)
      | .declareMacro => some value
      | _ => none
    text?.filter fun text => Reading.envStatement s.name text = some (.change how s)
  | _ => none

/-- The statements in their groups. -/
structure Groups where
  env : List (String × String) := []
  declaredTags : List (String × List String) := []
  appliedTags : List String := []
  changes : List (Change × Setting) := []

/-- Adds a statement to its group. The first text for a variable goes to the environment;
all other changes keep their own list. -/
def Groups.add (g : Groups) : Statement → Groups
  | .declareTag name content => { g with declaredTags := g.declaredTags ++ [(name, content)] }
  | .applyTag name => { g with appliedTags := g.appliedTags ++ [name] }
  | .change how s =>
    match envText? how s with
    | some text =>
      if g.env.any (·.1 = s.name) then { g with changes := g.changes ++ [(how, s)] }
      else { g with env := g.env ++ [(s.name, text)] }
    | none => { g with changes := g.changes ++ [(how, s)] }

def groups (statements : List Statement) : Groups :=
  statements.foldl Groups.add {}

def envEntry (e : String × String) : Tree × Tree :=
  (.text e.1, .text e.2)

def tagItem (t : String × List String) : Tree :=
  .map [(.text t.1, stringList t.2)]

def changeItem (c : Change × Setting) : Tree :=
  .map [(.text c.1.keyword, .map [(.text c.2.name, setting c.2)])]

def configure (c : Configuration) : Tree.Entries :=
  let g := groups c.statements
  withItems "statements" (g.changes.map changeItem)
    (withList "apply-tags" g.appliedTags
      (withItems "declare-tags" (g.declaredTags.map tagItem)
        (withMap "env" (g.env.map envEntry) (phase c.phase))))

def withSettings (settings : List Setting) (entries : Tree.Entries) : Tree.Entries :=
  settings.foldl (fun entries s => Tree.insert (.text s.name) (setting s) entries) entries

def target (t : Target) : Tree.Entries :=
  let output : Tree.Entries := match t.outputName with
    | some name => [(.text "target", .text name)]
    | none => []
  withSettings (t.fields ++ t.extensions) (withList "features" t.features output)

def build (b : Build) : Tree.Entries :=
  b.targets.foldl (fun entries t => Tree.insert (.text t.name) (.map (target t)) entries)
    (phase b.phase)

def descriptor (d : Descriptor) : Tree :=
  .map
    (withMap "build" (build d.build)
      (withMap "configure" (configure d.configuration)
        (withMap "options" (phase d.options)
          [(.text "package", .map (package d.package))])))

end PackageScript.Normal
