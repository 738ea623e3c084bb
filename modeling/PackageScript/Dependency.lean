import PackageScript.Text.Blank
/-! Dependencies on other packages, and who can see them. -/
namespace PackageScript

/-- The set of ways in which a dependency is visible. -/
structure Visibility where
  isPublic : Bool := false
  isPrivate : Bool := false
  isRuntime : Bool := false
  deriving DecidableEq, Repr

namespace Visibility

def hidden : Visibility := {}
def atPublic : Visibility := { isPublic := true }
def atPrivate : Visibility := { isPrivate := true }
def atRuntime : Visibility := { isRuntime := true }

def union (a b : Visibility) : Visibility where
  isPublic := a.isPublic || b.isPublic
  isPrivate := a.isPrivate || b.isPrivate
  isRuntime := a.isRuntime || b.isRuntime

/-- Whether the first set has all of the second one, which must not be empty. -/
def contains (a b : Visibility) : Bool :=
  a.union b == a && b != hidden

def names (v : Visibility) : List String :=
  (if v.isPublic then ["public"] else []) ++ (if v.isPrivate then ["private"] else []) ++
    (if v.isRuntime then ["runtime"] else [])

def text (v : Visibility) : String :=
  match v.names with
  | [] => "none"
  | names => Text.joinWith "|" names

end Visibility

/-- A package that is needed, in some version. -/
structure Dependency where
  name : String
  version : Option String
  visibility : Visibility
  deriving DecidableEq, Repr

namespace Dependency

/-- Reads a name, or a name and what follows it as the version. -/
def parse (entry : String) (visibility : Visibility) : Dependency :=
  let cs := Text.strip entry.toList
  let whole : Dependency := ⟨String.ofList cs, none, visibility⟩
  match Text.splitFirst? Text.isBlank cs with
  | none => whole
  | some (name, rest) =>
    match Text.strip rest with
    | [] => whole
    | version => ⟨String.ofList name, some (String.ofList version), visibility⟩

def source (d : Dependency) : String :=
  match d.version with
  | some version => d.name ++ " " ++ version
  | none => d.name

/-- A need at runtime goes to the first record of the name, and fills in its version if it has
none; without such a record it becomes one at the end. -/
def needAtRuntime (d : Dependency) : List Dependency → List Dependency
  | [] => [d]
  | e :: rest =>
    if e.name = d.name then
      ⟨e.name, e.version.or d.version, e.visibility.union .atRuntime⟩ :: rest
    else e :: needAtRuntime d rest

/-- One list from the three that a package declares: a record for each public entry,
then one for each private entry, then the needs at runtime. -/
def classify (publicly privately atRuntime : List String) : List Dependency :=
  let declared := publicly.map (parse · .atPublic) ++ privately.map (parse · .atPrivate)
  atRuntime.foldl (fun deps entry => needAtRuntime (parse entry .atRuntime) deps) declared

end Dependency

end PackageScript
