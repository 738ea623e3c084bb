import PackageScript.Files.Program
import PackageScript.Marker
/-! Hand-written scripts moved aside before a generated one takes their place, and moved back. -/
namespace PackageScript

inductive BackupOutcome where
  | absent
  | generated
  | movedAside
  deriving DecidableEq, Repr

structure CleanOutcome where
  removed : Bool := false
  restored : Bool := false
  droppedBackup : Bool := false
  deriving DecidableEq, Repr

namespace Files

def isPresent (p : Path) : Job Bool :=
  return (← Job.ask (.look p)).isSome

def readGenerated (p : Path) : Job Bool := do
  let bytes ← Job.expect ("Failed to read " ++ p.text) (← Job.ask (.read p))
  return isGenerated (Text.Utf8.decodeLossy bytes)

/-- Moves a hand-written script aside. Where a backup is there already, one of the two would
be lost, so this fails. -/
def moveAside (script backup : Path) : Job BackupOutcome := do
  if !(← isPresent script) then return .absent
  if ← readGenerated script then return .generated
  if ← isPresent backup then
    throw (.ofText ("Refusing to overwrite hand-written " ++ script.text ++ ": backup " ++
      backup.text ++ " already exists"))
  Job.expect ("Failed to back up " ++ script.text ++ " to " ++ backup.text)
    (← Job.ask (.rename script backup))
  return .movedAside

def restore (script backup : Path) : Job Unit := do
  Job.expect ("Failed to restore " ++ script.text ++ " from " ++ backup.text)
    (← Job.ask (.rename backup script))

def removeFile (p : Path) : Job Unit := do
  Job.expect ("Failed to remove " ++ p.text) (← Job.ask (.remove p))

/-- Restores or drops the backup of a script that is gone. -/
def settleBackup (script backup : Path) (drop removed : Bool) : Job CleanOutcome := do
  if !(← isPresent backup) then return { removed }
  if drop then
    removeFile backup
    return { removed, droppedBackup := true }
  else
    restore script backup
    return { removed, restored := true }

/-- Removes a generated script, then restores its backup or drops it. A hand-written script
stays as it is, and so does its backup. -/
def clean (script backup : Path) (drop : Bool) : Job CleanOutcome := do
  if ← isPresent script then
    if ← readGenerated script then
      removeFile script
      settleBackup script backup drop true
    else
      Job.ask (.warn (script.text ++ " is not generated by hscript, leaving it"))
      return {}
  else settleBackup script backup drop false

end Files

end PackageScript
