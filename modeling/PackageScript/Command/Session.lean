import PackageScript.Command.Compile
import PackageScript.Command.Check
import PackageScript.Command.Clean
import PackageScript.Files.Preferences
/-! A whole run of the program, from its arguments to its exit code. -/
namespace PackageScript.Command

/-- What the program answers: a notice on its use, or what it printed and its exit code. -/
inductive Response where
  | notice (n : Notice)
  | finished (code : Nat) (output errors : String)
  deriving DecidableEq, Repr

/-- Where preferences are kept if the arguments do not say, and what messages call that file. -/
structure Standard where
  file : Path
  called : String

def Standard.ofHome (home : Path) : Standard :=
  let file := (home.join ".hscript").join "config.toml"
  ⟨file, file.text⟩

/-- The preferences of a run: those of the file that is named, or else of the standard place. -/
def preferencesOf (standard : Option Standard) : Option Path → Job Preferences
  | some file => Preferences.load file file.text
  | none =>
    match standard with
    | some place => Preferences.load place.file place.called
    | none => return {}

def perform (standard : Option Standard) (i : Invocation) : Job Transcript := do
  let preferences ← preferencesOf standard i.preferences
  match i.verb with
  | .compile => compile i preferences
  | .check => check i preferences
  | .clean => clean i preferences

/-- The answer to a transcript. A failure is reported after all else. -/
def Response.ofTranscript (t : Transcript) : Response :=
  match t.failure with
  | none => .finished 0 t.output t.errors
  | some f => .finished 1 t.output (t.errors ++ f.report.printed)

def respond (standard : Option Standard) (words : List String) : Program Response := do
  match Invocation.ofWords words with
  | .error n => return .notice n
  | .ok i =>
    match ← (perform standard i).run with
    | .ok t => return .ofTranscript t
    | .error f => return .ofTranscript (.ofFailure f)

end PackageScript.Command
