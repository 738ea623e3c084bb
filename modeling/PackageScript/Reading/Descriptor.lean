import PackageScript.Reading.Statement
/-! Descriptors from document trees. -/
namespace PackageScript.Reading
open Yaml

def sectionNames : List String := ["package", "options", "configure", "build"]

def dependencyLists : List String := ["public", "private", "runtime"]

structure DependencyEntries where
  publicly : List String := []
  privately : List String := []
  atRuntime : List String := []

def dependencyEntry (lists : DependencyEntries) (entry : Tree × Tree) :
    Checked DependencyEntries := do
  let key ← keyText "package.deps" entry.1
  let path := "package.deps." ++ key
  match key with
  | "public" => return { lists with publicly := ← strings path entry.2 }
  | "private" => return { lists with privately := ← strings path entry.2 }
  | "runtime" => return { lists with atRuntime := ← strings path entry.2 }
  | _ => .fail (.schema (unknownName "dependency list" key dependencyLists))

def dependencies : Tree → Checked (List Dependency)
  | .null => .ok []
  | .map entries => do
    let lists ← entries.foldlM dependencyEntry {}
    return Dependency.classify lists.publicly lists.privately lists.atRuntime
  | t => .fail (misshapen "package.deps" "a map" t)

def ignoringKey (path : String) : Checked Unit :=
  .warn ("ignoring unknown key '" ++ path ++ "'")

/-- The name that a package must have. -/
def packageName (entries : Tree.Entries) : Checked String :=
  match Tree.lookup? "name" entries with
  | none | some .null => .fail (.schema "missing mandatory 'name' in package section")
  | some (.text s) =>
    if (Text.trim s).isEmpty then .fail (.schema "package name must not be empty")
    else .ok (Text.trim s)
  | some t => .fail (misshapen "package.name" "a string" t)

def version (path : String) : Tree → Checked (Option String)
  | .null => .ok none
  | t => do return some (← .ofOption (misshapen path "a string" t) t.scalarText?)

def packageEntry (p : Package) (entry : Tree × Tree) : Checked Package := do
  let key ← keyText "package" entry.1
  let path := "package." ++ key
  match key with
  | "name" => return p
  | "authors" => return { p with authors := ← oneOrMore path entry.2 }
  | "managers" => return { p with managers := ← oneOrMore path entry.2 }
  | "version" => return { p with version := ← version path entry.2 }
  | "deps" => return { p with deps := ← dependencies entry.2 }
  | _ =>
    ignoringKey path
    return p

def package (t : Tree) : Checked Package := do
  let entries ← .ofOption (misshapen "package" "a map" t) t.entries?
  let name ← packageName entries
  entries.foldlM packageEntry { name := name }

/-- The phase after an entry that all phases have, or nothing for any other key. -/
def phaseEntry (phase : Phase) (key sectionName : String) (value : Tree) :
    Checked (Option Phase) := do
  match key with
  | "tools" => return some { phase with tools := ← strings (sectionName ++ ".tools") value }
  | "hwaf-call" => return some { phase with hooks := ← strings (sectionName ++ ".hwaf-call") value }
  | _ => return none

def optionsEntry (phase : Phase) (entry : Tree × Tree) : Checked Phase := do
  let key ← keyText "options" entry.1
  match ← phaseEntry phase key "options" entry.2 with
  | some phase => return phase
  | none =>
    ignoringKey ("options." ++ key)
    return phase

def options (entries : Tree.Entries) : Checked Phase :=
  entries.foldlM optionsEntry {}

def configureEntry (c : Configuration) (entry : Tree × Tree) : Checked Configuration := do
  let key ← keyText "configure" entry.1
  match ← phaseEntry c.phase key "configure" entry.2 with
  | some phase => return { c with phase := phase }
  | none =>
    match key with
    | "env" =>
      let more ← env entry.2
      return { c with statements := c.statements ++ more }
    | "declare-tags" => return { c with statements := ← declareTags c.statements entry.2 }
    | "apply-tags" =>
      let names ← oneOrMore "configure.apply-tags" entry.2
      return { c with statements := c.statements ++ names.map .applyTag }
    | "statements" =>
      let more ← changes entry.2
      return { c with statements := c.statements ++ more }
    | _ =>
      ignoringKey ("configure." ++ key)
      return c

def configure (entries : Tree.Entries) : Checked Configuration :=
  entries.foldlM configureEntry {}

/-- The build with one more target, whose output must be new. -/
def addTarget (b : Build) (t : Target) : Checked Build :=
  match b.targets.find? (·.output = t.output) with
  | some other => .fail (.contradiction
      ("targets '" ++ other.name ++ "' and '" ++ t.name ++ "' both produce '" ++ t.output ++ "'"))
  | none => .ok { b with targets := b.targets ++ [t] }

def buildEntry (b : Build) (entry : Tree × Tree) : Checked Build := do
  let key ← keyText "build" entry.1
  match ← phaseEntry b.phase key "build" entry.2 with
  | some phase => return { b with phase := phase }
  | none =>
    if key = "env" then
      Checked.warn "ignoring 'build.env': environment belongs to the configure section"
      return b
    else
      let fields ← .ofOption
        (misshapen ("build." ++ key) "a map of target fields" entry.2) entry.2.entries?
      addTarget b (← target key fields)

def build (entries : Tree.Entries) : Checked Build :=
  entries.foldlM buildEntry {}

/-- The section of this name, read by `read`. Without it, or with nothing in it, the default. -/
def readSection {α : Type} (root : Tree.Entries) (name : String) (default : α)
    (read : Tree.Entries → Checked α) : Checked α :=
  match Tree.lookup? name root with
  | none | some .null => .ok default
  | some (.map entries) => read entries
  | some t => .fail (misshapen name "a map" t)

def checkSectionNames : Tree.Entries → Checked Unit
  | [] => .ok ()
  | (key, _) :: rest => do
    let name ← keyText "<document>" key
    if name ∈ sectionNames then checkSectionNames rest
    else .fail (.schema (unknownName "top-level section" name sectionNames))

def descriptor (t : Tree) : Checked Descriptor := do
  let root ← .ofOption (misshapen "<document>" "a map of sections" t) t.entries?
  checkSectionNames root
  let packageTree ← .ofOption (.schema "missing mandatory package section")
    (Tree.lookup? "package" root)
  let package ← package packageTree
  let options ← readSection root "options" {} options
  let configuration ← readSection root "configure" {} configure
  let build ← readSection root "build" {} build
  return { package, options, configuration, build }

end PackageScript.Reading
