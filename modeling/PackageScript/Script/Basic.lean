import PackageScript.Script.Literal
import PackageScript.Marker
/-! Build-engine scripts: a metadata table and functions that make calls, and their text. -/
namespace PackageScript

namespace Script

/-- The value of an argument. Choices are pairs of a selector and the strings that it selects. -/
inductive Expression where
  | text (s : String)
  | yes
  | packageName
  | texts (items : List String)
  | choices (pairs : List (String × List String))
  deriving DecidableEq, Repr

namespace Expression

def pairSource (pair : String × List String) : String :=
  "(" ++ quote pair.1 ++ ", " ++ quoteList pair.2 ++ "),"

def source : Expression → String
  | .text s => quote s
  | .yes => "True"
  | .packageName => "PACKAGE[" ++ quote "name" ++ "]"
  | .texts items => quoteList items
  | .choices pairs => "(" ++ String.join (pairs.map pairSource) ++ ")"

end Expression

/-- An argument by position, by name, or under a key that need not be an identifier. -/
inductive Argument where
  | plain (value : Expression)
  | named (name : String) (value : Expression)
  | keyed (key : String) (value : Expression)
  deriving DecidableEq, Repr

def Argument.source : Argument → String
  | .plain value => value.source
  | .named name value => name ++ "=" ++ value.source
  | .keyed key value => "**\x7b" ++ quote key ++ ": " ++ value.source ++ "\x7d"

/-- A call of an engine function, on one line or with a line for each argument. -/
structure Call where
  function : String
  arguments : List Argument
  spread : Bool := false
  deriving DecidableEq, Repr

def indent : String := "    "

def Call.source (c : Call) : String :=
  if c.spread then
    "\n" ++ indent ++ "ctx." ++ c.function ++ "(\n" ++
      String.join (c.arguments.map fun a => indent ++ indent ++ a.source ++ ",\n") ++
      indent ++ ")\n"
  else
    indent ++ "ctx." ++ c.function ++ "(" ++
      Text.joinWith ", " (c.arguments.map Argument.source) ++ ")\n"

def separator : String :=
  "### ---------------------------------------------------------------------------"

end Script

/-- A script: package metadata, the calls that declare dependencies in their groups,
and the calls of each phase. -/
structure Script where
  metadata : List (String × Script.Expression)
  dependencies : List (String × List Script.Call)
  phases : List (String × List Script.Call)
  deriving DecidableEq, Repr

namespace Script

def callsSource (calls : List Call) : String :=
  String.join (calls.map Call.source)

def metadataSource (entries : List (String × Expression)) : String :=
  "\n## -- package metadata --\nPACKAGE = \x7b\n" ++
    String.join (entries.map fun e => indent ++ quote e.1 ++ ": " ++ e.2.source ++ ",\n") ++
    "\x7d\n"

def groupSource (group : String × List Call) : String :=
  "\n" ++ indent ++ "## " ++ group.1 ++ " dependencies\n" ++ callsSource group.2

def dependenciesSource (groups : List (String × List Call)) : String :=
  "\n" ++ separator ++ "\ndef pkg_deps(ctx):\n" ++ String.join (groups.map groupSource) ++
    "\n" ++ indent ++ "return # pkg_deps\n"

def phaseSource (phase : String × List Call) : String :=
  "\n\n" ++ separator ++ "\ndef " ++ phase.1 ++ "(ctx):\n\n" ++ callsSource phase.2 ++
    "\n" ++ indent ++ "return # " ++ phase.1 ++ "\n"

def source (s : Script) : String :=
  "# -*- python -*-\n" ++ generatedMarker ++ "\n" ++ metadataSource s.metadata ++
    dependenciesSource s.dependencies ++ String.join (s.phases.map phaseSource)

end Script

end PackageScript
