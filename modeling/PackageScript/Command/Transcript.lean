import PackageScript.Failure
/-! What a command prints, and whether it fails in the end. -/
namespace PackageScript.Command

structure Transcript where
  output : String := ""
  errors : String := ""
  failure : Option Failure := none
  deriving DecidableEq, Repr

namespace Transcript

def ofOutput (text : String) : Transcript := { output := text }

def ofFailure (f : Failure) : Transcript := { failure := some f }

/-- One after another. The first failure is the failure of both. -/
def followedBy (first second : Transcript) : Transcript where
  output := first.output ++ second.output
  errors := first.errors ++ second.errors
  failure := first.failure.or second.failure

def concat (ts : List Transcript) : Transcript :=
  ts.foldr followedBy {}

end Transcript

end PackageScript.Command
