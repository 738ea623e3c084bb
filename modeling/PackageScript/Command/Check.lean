import PackageScript.Command.Arguments
import PackageScript.Command.Json
import PackageScript.Command.Transcript
import PackageScript.Files.Discovery
/-! The command that reads documents without writing anything. -/
namespace PackageScript.Command

def readDescriptor (document : Path) : Job Descriptor := do
  let text ← Job.readText ("Failed to read " ++ document.text) document
  Job.within ("Failed to check " ++ document.text)
    (Job.ofChecked (Descriptor.read text document.text))

structure Finding where
  document : Path
  result : Except Failure Descriptor

namespace Finding

def failed (f : Finding) : Bool :=
  match f.result with
  | .ok _ => false
  | .error _ => true

def report (f : Finding) : Transcript :=
  match f.result with
  | .ok d =>
    .ofOutput ("✓ " ++ f.document.text ++ ": " ++ d.package.name ++ " (" ++
      toString d.package.deps.length ++ " dependencies, " ++
      toString d.build.targets.length ++ " targets)\n")
  | .error failure =>
    { output := "✗ " ++ f.document.text ++ "\n", errors := failure.report.printed }

def summary (f : Finding) : Json :=
  let fields (package version : List (String × Json)) (dependencies statements : Nat)
      (targets tags : List String) (error : List (String × Json)) : Json :=
    .object ([("path", .text f.document.text)] ++ package ++ version ++
      [("dependencies", .nat dependencies), ("targets", .list (targets.map .text)),
        ("statements", .nat statements), ("applied_tags", .list (tags.map .text))] ++ error)
  match f.result with
  | .ok d =>
    fields [("package", .text d.package.name)]
      (d.package.version.toList.map fun v => ("version", .text v))
      d.package.deps.length d.configuration.statements.length
      (d.build.targets.map Target.name) d.configuration.appliedTags []
  | .error failure => fields [] [] 0 0 [] [] [("error", .text failure.line)]

end Finding

def jsonReport (findings : List Finding) : String :=
  Json.render "" (.object
    [("valid", .bool (!findings.any Finding.failed)),
      ("documents", .list (findings.map Finding.summary))]) ++ "\n"

def checkSummary (findings : List Finding) : Option Failure :=
  let failed := (findings.filter Finding.failed).length
  if failed = 0 then none
  else some (.ofText (toString failed ++ " of " ++ toString findings.length ++
    " document(s) are invalid"))

def examineAll (documents : List Path) : Program (List Finding) :=
  documents.mapM fun document => do
    return ⟨document, ← (readDescriptor document).run⟩

def check (i : Invocation) (preferences : Preferences) : Job Transcript := do
  let documents ←
    Files.findDocuments preferences.documentName (i.has .recursive) i.paths
  let findings ← ExceptT.lift (examineAll documents)
  let report :=
    if i.has .json then .ofOutput (jsonReport findings)
    else .concat (findings.map Finding.report)
  return .followedBy report { failure := checkSummary findings }

end PackageScript.Command
