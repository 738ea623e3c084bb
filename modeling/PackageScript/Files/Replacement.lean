import PackageScript.Files.Program
/-! Files replaced as a whole: a reader finds the old content or the new one, nothing between. -/
namespace PackageScript

/-- The hidden file next to a path that its new content is written to first. -/
def Path.temporary (p : Path) : Path :=
  p.withFileName ("." ++ p.fileName?.getD "" ++ ".tmp")

def WriteStep.context (temporary : Path) : WriteStep → String
  | .opening => "Failed to create temp file: " ++ temporary.text
  | .writing => "Failed to write to temp file: " ++ temporary.text
  | .syncing => "Failed to sync file to disk"

namespace Files

def isDirectory (p : Path) : Program Bool :=
  return (← Program.ofCall (.look p)) = some .directory

/-- Makes a directory that may have come into being by now. -/
def ensureDirectory (p : Path) : Program (Except Fault Unit) := do
  match ← Program.ofCall (.createDirectory p) with
  | .ok _ => return .ok ()
  | .error f => return if ← isDirectory p then .ok () else .error f

/-- Makes a directory with those above it that are missing. The first path is the directory, and
each one is followed by its parent. -/
def ensureDirectories : List Path → Program (Except Fault Unit)
  | [] => return .error ⟨.other, "failed to create whole tree"⟩
  | p :: above => do
    if p.text = "" then return .ok ()
    match ← Program.ofCall (.createDirectory p) with
    | .ok _ => return .ok ()
    | .error f =>
      if f.kind = .notFound then
        match ← ensureDirectories above with
        | .ok _ => ensureDirectory p
        | .error g => return .error g
      else return if ← isDirectory p then .ok () else .error f

def putInPlace (p : Path) (content : Bytes) : Job Unit := do
  match ← Job.ask (.write p.temporary content) with
  | .error (step, f) => throw ((Failure.ofFault f).within (step.context p.temporary))
  | .ok _ =>
    Job.expect ("Failed to rename temp file to: " ++ p.text)
      (← Job.ask (.rename p.temporary p))

/-- Replaces a file, or makes it with the directories above it. After a failure
the temporary file is removed. -/
def replace (p : Path) (content : Bytes) : Job Unit := do
  if let some directory := p.parent? then
    if directory.text ≠ "" then
      Job.expect ("Failed to create directory: " ++ directory.text)
        (← ExceptT.lift (ensureDirectories directory.ancestors))
  tryCatch (putInPlace p content) fun failure => do
    let _ ← Job.ask (.remove p.temporary)
    throw failure

end Files

end PackageScript
