import PackageScript.Files.Program
import PackageScript.Preferences
/-! Preferences kept in a file. -/
namespace PackageScript

/-- The preferences in a file, or the defaults where no file is. Messages call the file by the
given name. -/
def Preferences.load (file : Path) (called : String) : Job Preferences := do
  if (← Job.ask (.look file)).isNone then return {}
  let text ← Job.readText ("Failed to read config from " ++ called) file
  match Preferences.ofText? text with
  | none =>
    throw ((Failure.ofProblem (.toml Problem.unspecified)).within
      ("Failed to parse config from " ++ called))
  | some preferences =>
    match preferences.fault? with
    | some problem => throw (.ofProblem problem)
    | none => return preferences

end PackageScript
