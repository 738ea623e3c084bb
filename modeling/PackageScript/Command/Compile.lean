import PackageScript.Command.Arguments
import PackageScript.Command.Transcript
import PackageScript.Files.Compilation
import PackageScript.Files.Discovery
/-! The command that generates scripts. -/
namespace PackageScript.Command

/-- What comes of one document: a text to print, or a script that is written. -/
inductive Product where
  | text (generated : String)
  | script (w : Files.Written)
  deriving DecidableEq, Repr

namespace Product

def make (i : Invocation) (preferences : Preferences) (format : OutputFormat) (document : Path) :
    Job Product :=
  Job.within ("Failed to compile " ++ document.text)
    (if i.has .toOutput then Product.text <$> Files.compile document format
    else Product.script <$>
      Files.compilePackage preferences document format (!i.has .noBackup))

/-- What is printed of a product. Texts of several documents get headings. -/
def report (several : Bool) (document : Path) : Product → String
  | .text generated => (if several then "# ==> " ++ document.text ++ " <==\n" else "") ++ generated
  | .script w =>
    "✓ " ++ document.text ++ " -> " ++ w.script.text ++ "\n" ++
      (if w.movedAside then "  note: hand-written script moved aside\n" else "")

end Product

abbrev Attempt := Path × Except Failure Product

namespace Attempt

def failed (a : Attempt) : Bool :=
  match a.2 with
  | .ok _ => false
  | .error _ => true

def liesInDocument (a : Attempt) : Bool :=
  match a.2 with
  | .ok _ => false
  | .error f => f.liesInDocument

def report (several : Bool) (a : Attempt) : Transcript :=
  match a.2 with
  | .ok product => .ofOutput (product.report several a.1)
  | .error f => { errors := f.report.printed }

end Attempt

def compileSummary (attempts : List Attempt) : Option Failure :=
  let failed := (attempts.filter Attempt.failed).length
  let elsewhere := failed - (attempts.filter Attempt.liesInDocument).length
  let counts := toString failed ++ " of " ++ toString attempts.length ++
    " document(s) failed to compile"
  if failed = 0 then none
  else if elsewhere = 0 then some (.ofText counts)
  else some (.ofText
    (counts ++ " (" ++ toString elsewhere ++ " not caused by document content)"))

/-- Compiles the documents one after another. A failure of one does not stop the others. -/
def attemptAll (i : Invocation) (preferences : Preferences) (format : OutputFormat)
    (documents : List Path) : Program (List Attempt) :=
  documents.mapM fun document => do
    return (document, ← (Product.make i preferences format document).run)

def compile (i : Invocation) (preferences : Preferences) : Job Transcript := do
  let documents ←
    Files.findDocuments preferences.documentName (i.has .recursive) i.paths
  let format := i.format.getD preferences.format
  if documents.isEmpty then return .ofOutput "No hscript documents found\n"
  match i.output, documents with
  | some output, [document] =>
    Files.compileTo document output format
    return .ofOutput ("✓ " ++ document.text ++ " -> " ++ output.text ++ "\n")
  | some _, _ =>
    throw (.ofText ("--output requires exactly one document, found " ++
      toString documents.length))
  | none, _ =>
    let attempts ← ExceptT.lift (attemptAll i preferences format documents)
    return .followedBy (.concat (attempts.map (·.report (1 < documents.length))))
      { failure := compileSummary attempts }

end PackageScript.Command
