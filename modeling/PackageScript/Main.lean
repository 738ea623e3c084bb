import PackageScript.Command.Session
import PackageScript.Command.Usage
/-! The program on a real disk: answers calls, prints the transcript and sets the exit code. -/
namespace PackageScript.Command

def systemError : IO.Error → Nat × String
  | .alreadyExists _ code details | .invalidArgument _ code details
  | .permissionDenied _ code details | .resourceExhausted _ code details
  | .inappropriateType _ code details | .noSuchThing _ code details
  | .noFileOrDirectory _ code details | .interrupted _ code details
  | .otherError code details | .resourceBusy code details | .resourceVanished code details
  | .unsupportedOperation code details | .hardwareFault code details
  | .unsatisfiedConstraints code details | .illegalOperation code details
  | .protocolError code details | .timeExpired code details =>
    (min code.toNat ((1 <<< 32) - code.toNat), details)
  | e => (0, toString e)

def faultOf (e : IO.Error) : Fault :=
  match systemError e with
  | (2, _) => .notFound
  | (13, _) => .permissionDenied
  | (16, _) => .busy
  | (17, _) => .alreadyExists
  | (20, _) => .notADirectory
  | (21, _) => .isADirectory
  | (22, _) => .invalidArgument
  | (36, _) => .nameTooLong
  | (39, _) => .directoryNotEmpty
  | (0, details) => ⟨.other, details⟩
  | (code, details) => ⟨.other, details ++ " (os error " ++ toString code ++ ")"⟩

def attempt {α : Type} (paths : List Path) (action : IO α) : IO (Except Fault α) := do
  if paths.any Path.hasNul then return .error .nulInName
  try return .ok (← action) catch e => return .error (faultOf e)

def kindOf (p : Path) : IO (Option EntryKind) := do
  try
    match (← (← IO.FS.realPath p.text).metadata).type with
    | .file => return some .file
    | .dir => return some .directory
    | _ => return some .other
  catch _ => return none

/-- The entries of a directory. Links are left out. -/
partial def entriesOf (listed : Array IO.FS.DirEntry) : IO (Directory Unit) := do
  let mut found := []
  for entry in listed do
    match (← entry.path.symlinkMetadata).type with
    | .file => found := (entry.fileName, .file ()) :: found
    | .dir =>
      found := (entry.fileName, .directory (← entriesOf (← entry.path.readDir))) :: found
    | _ => pure ()
  return found

def writeFile (p : Path) (content : Bytes) : IO (Except (WriteStep × Fault) Unit) := do
  match ← attempt [p] (IO.FS.Handle.mk p.text .write) with
  | .error fault => return .error (.opening, fault)
  | .ok handle =>
    match ← attempt [] (handle.write ⟨content.toArray⟩) with
    | .error fault => return .error (.writing, fault)
    | .ok _ => return (← attempt [] handle.flush).mapError (WriteStep.syncing, ·)

def removeFile (p : Path) : IO (Except Fault Unit) := do
  if (← kindOf p) = some .directory then return .error .isADirectory
  attempt [p] (IO.FS.removeFile p.text)

def answer (quiet : Bool) : (call : Call) → IO call.Reply
  | .look p => kindOf p
  | .read p => attempt [p] (return (← IO.FS.readBinFile p.text).data.toList)
  | .write p content => writeFile p content
  | .createDirectory p => attempt [p] (IO.FS.createDir p.text)
  | .rename source target => attempt [source, target] (IO.FS.rename source.text target.text)
  | .remove p => removeFile p
  | .survey p => attempt [p] do entriesOf (← (← IO.FS.realPath p.text).readDir)
  | .warn message => if quiet then return () else IO.eprintln (" WARN " ++ message)

def interpret {α : Type} (quiet : Bool) : Program α → IO α
  | .done a => return a
  | .ask call next => do interpret quiet (next (← answer quiet call))

def wantsQuiet (words : List String) : Bool :=
  match Invocation.ofWords words with
  | .ok i => i.has .quiet
  | .error _ => false

def runProgram (words : List String) : IO UInt32 := do
  let standard := (← IO.getEnv "HOME").map fun home => Standard.ofHome ⟨home⟩
  match ← interpret (wantsQuiet words) (respond standard words) with
  | .notice n =>
    if n.code = 0 then IO.println n.text else IO.eprintln n.text
    return n.code.toUInt32
  | .finished code output errors =>
    IO.print output
    IO.eprint errors
    return code.toUInt32

end PackageScript.Command

def main (words : List String) : IO UInt32 :=
  PackageScript.Command.runProgram words
