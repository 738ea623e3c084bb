import PackageScript.Files.Replacement
import PackageScript.Files.Backup
import PackageScript.Preferences
/-! Documents compiled from files and into files. -/
namespace PackageScript

namespace Files

def compile (document : Path) (format : OutputFormat) : Job String := do
  let text ← Job.readText ("Failed to read " ++ document.text) document
  Job.within ("Failed to compile " ++ document.text)
    (Job.ofChecked (compileText text document.text format))

/-- Compiles a document into a file, which stays as it was after a failure. -/
def compileTo (document output : Path) (format : OutputFormat) : Job Unit := do
  let text ← compile document format
  replace output (Text.Utf8.encode text)

/-- The directory of the package that a document describes. -/
def packageOf (document : Path) : Path :=
  document.parent?.getD ⟨"."⟩

/-- A script written for a document, and whether a hand-written one made room for it. -/
structure Written where
  script : Path
  movedAside : Bool
  deriving DecidableEq, Repr

/-- Writes a generated script in its package. A hand-written script that was moved aside for it
is moved back after a failure. -/
def writeScript (preferences : Preferences) (package : Path) (text : String) (keep : Bool) :
    Job Written := do
  let script := preferences.scriptPath package
  let backup := preferences.backupPath script
  let outcome ← if keep then moveAside script backup else pure .absent
  let movedAside := decide (outcome = .movedAside)
  tryCatch (replace script (Text.Utf8.encode text)) fun failure => do
    if movedAside then restore script backup
    throw failure
  return { script, movedAside }

def compilePackage (preferences : Preferences) (document : Path) (format : OutputFormat)
    (keep : Bool) : Job Written := do
  let text ← compile document format
  writeScript preferences (packageOf document) text keep

end Files

end PackageScript
