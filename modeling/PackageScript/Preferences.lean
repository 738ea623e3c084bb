import PackageScript.Output
import PackageScript.Path
import PackageScript.Toml.Document
/-! A user's preferences: names of files, and the format of what is generated. -/
namespace PackageScript

structure Preferences where
  /-- The name of the document in a package directory. -/
  documentName : String := "hscript.yml"
  /-- The name of the generated script next to it. -/
  scriptName : String := "wscript"
  format : OutputFormat := .script
  /-- What is appended to the name of a hand-written script that is moved aside. -/
  backupSuffix : String := ".hscript-orig"
  deriving DecidableEq, Repr

namespace Preferences

def fault? (p : Preferences) : Option Problem :=
  let notPlain (key value : String) : Problem :=
    .configuration ("'" ++ key ++ "' must be a plain file name, got '" ++ value ++ "'")
  if !Path.isPlainName p.documentName then some (notPlain "document_name" p.documentName)
  else if !Path.isPlainName p.scriptName then some (notPlain "script_name" p.scriptName)
  else if p.documentName = p.scriptName then
    some (.configuration
      ("'document_name' and 'script_name' are both '" ++ p.scriptName ++ "'"))
  else if p.backupSuffix = "" || p.backupSuffix.toList.any (fun c => c == '/' || c == '\\') then
    some (.configuration ("invalid 'backup_suffix' '" ++ p.backupSuffix ++ "'"))
  else none

def scriptPath (p : Preferences) (package : Path) : Path :=
  package.join p.scriptName

def backupPath (p : Preferences) (script : Path) : Path :=
  ⟨script.text ++ p.backupSuffix⟩

/-- The format that a value stands for: by its name, or by that name over nothing. -/
def formatOf? : Toml.Value → Option OutputFormat
  | .text name | .table [(name, .emptyList)] | .table [(name, .table [])] =>
    OutputFormat.ofName? name
  | _ => none

def assign? (p : Preferences) : String × Toml.Value → Option Preferences
  | ("document_name", .text name) => some { p with documentName := name }
  | ("script_name", .text name) => some { p with scriptName := name }
  | ("format", v) => (formatOf? v).map fun format => { p with format }
  | ("backup_suffix", .text suffix) => some { p with backupSuffix := suffix }
  | _ => none

/-- The preferences in a file, which may hold no other keys. -/
def ofText? (s : String) : Option Preferences := do
  (← Toml.read? s).foldlM assign? {}

end Preferences

end PackageScript
