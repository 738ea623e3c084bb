import PackageScript.Command.Arguments
import PackageScript.Command.Transcript
import PackageScript.Files.Compilation
import PackageScript.Files.Discovery
/-! The command that removes generated scripts. -/
namespace PackageScript.Command

def cleanReport (script : Path) (c : CleanOutcome) : String :=
  (if c.removed then "✓ removed " ++ script.text ++ "\n" else "") ++
    (if c.restored then "  restored hand-written " ++ script.text ++ "\n" else "") ++
    (if c.droppedBackup then "  note: dropped backup of " ++ script.text ++ "\n" else "")

def cleanPackage (preferences : Preferences) (drop : Bool) (document : Path) :
    Job Transcript := do
  let script := preferences.scriptPath (Files.packageOf document)
  let outcome ← Files.clean script (preferences.backupPath script) drop
  return .ofOutput (cleanReport script outcome)

/-- Cleans up after the documents one after another, up to the first failure. -/
def cleanAll (preferences : Preferences) (drop : Bool) : List Path → Program Transcript
  | [] => return {}
  | document :: rest => do
    match ← (cleanPackage preferences drop document).run with
    | .ok done => return done.followedBy (← cleanAll preferences drop rest)
    | .error failure => return .ofFailure failure

def clean (i : Invocation) (preferences : Preferences) : Job Transcript := do
  let documents ←
    Files.findDocuments preferences.documentName (i.has .recursive) i.paths
  ExceptT.lift (cleanAll preferences (i.has .dropBackup) documents)

end PackageScript.Command
