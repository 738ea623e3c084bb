import PackageScript.Reading.Target
/-! The entries of the configure section that become statements. -/
namespace PackageScript.Reading
open Yaml

/-- The text that stands for the present value of a variable. -/
def selfReference (name : String) : String :=
  "$\x7b" ++ name ++ "\x7d"

/-- The effect of giving a variable a text: what follows its present value is appended to it, what
precedes it prepended, and any other text declares it. Its present value alone has no effect. -/
def envStatement (name text : String) : Option Statement :=
  let self := selfReference name
  if text = self then none
  else match Text.dropLead? (self ++ ":") text with
  | some suffix => some (.change .appendPath (.plain name [suffix]))
  | none =>
    match Text.dropTail? (":" ++ self) text with
    | some lead => some (.change .prependPath (.plain name [lead]))
    | none => some (.change .declareMacro (.plain name [text]))

def envEntries : Tree.Entries → Checked (List Statement)
  | [] => .ok []
  | (key, value) :: rest => do
    let name ← keyText "configure.env" key
    let text ← .ofOption (misshapen ("configure.env." ++ name) "a string" value) value.string?
    let more ← envEntries rest
    return (envStatement name text).toList ++ more

def env : Tree → Checked (List Statement)
  | .null => .ok []
  | .map entries => envEntries entries
  | t => .fail (misshapen "configure.env" "a map" t)

def itemPath (path : String) (index : Nat) : String :=
  path ++ "[" ++ toString index ++ "]"

/-- The tag declarations from the one with this index on, after those already made. -/
def tagDeclarations (before : List Statement) : Nat → List Tree → Checked (List Statement)
  | _, [] => .ok before
  | index, item :: rest => do
    let path := itemPath "configure.declare-tags" index
    let (key, value) ← singleEntry path item
    let name ← keyText path key
    let content ← oneOrMore (path ++ "." ++ name) value
    if before.any (·.declaredTag? = some name) then
      .fail (.contradiction
        ("tag '" ++ name ++ "' is declared more than once in configure.declare-tags"))
    else tagDeclarations (before ++ [.declareTag name content]) (index + 1) rest

def declareTags (before : List Statement) : Tree → Checked (List Statement)
  | .null => .ok before
  | .list items => tagDeclarations before 0 items
  | t => .fail (misshapen "configure.declare-tags" "a list of single-key maps" t)

def changeItem (index : Nat) (item : Tree) : Checked Statement := do
  let path := itemPath "configure.statements" index
  let (key, body) ← singleEntry path item
  let keyword ← keyText path key
  let (key, value) ← singleEntry (path ++ "." ++ keyword) body
  let name ← keyText path key
  let s ← setting name (path ++ "." ++ keyword ++ "." ++ name) value
  let how ← .ofOption
    (.schema (unknownName "statement kind" keyword (Change.all.map Change.keyword)))
    (Change.ofKeyword? keyword)
  return .change how s

def changeItems : Nat → List Tree → Checked (List Statement)
  | _, [] => .ok []
  | index, item :: rest => do
    let first ← changeItem index item
    let more ← changeItems (index + 1) rest
    return first :: more

def changes : Tree → Checked (List Statement)
  | .null => .ok []
  | .list items => changeItems 0 items
  | t => .fail (misshapen "configure.statements" "a list of single-key maps" t)

end PackageScript.Reading
