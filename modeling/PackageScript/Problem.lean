/-! What can go wrong, and the words for it. -/
namespace PackageScript

inductive FaultKind where
  | notFound
  | permissionDenied
  | alreadyExists
  | isADirectory
  | notADirectory
  | directoryNotEmpty
  | invalidData
  | invalidInput
  | invalidFilename
  | resourceBusy
  | other
  deriving DecidableEq, Repr

/-- A failure of the file system, in its own words. -/
structure Fault where
  kind : FaultKind
  message : String
  deriving DecidableEq, Repr

namespace Fault

def permissionDenied : Fault := ⟨.permissionDenied, "Permission denied (os error 13)"⟩

def notFound : Fault := ⟨.notFound, "No such file or directory (os error 2)"⟩

def alreadyExists : Fault := ⟨.alreadyExists, "File exists (os error 17)"⟩

def isADirectory : Fault := ⟨.isADirectory, "Is a directory (os error 21)"⟩

def notADirectory : Fault := ⟨.notADirectory, "Not a directory (os error 20)"⟩

def directoryNotEmpty : Fault := ⟨.directoryNotEmpty, "Directory not empty (os error 39)"⟩

def invalidArgument : Fault := ⟨.invalidInput, "Invalid argument (os error 22)"⟩

def busy : Fault := ⟨.resourceBusy, "Device or resource busy (os error 16)"⟩

/-- The fault of a path that has too many bytes, in all or in one name. -/
def nameTooLong : Fault := ⟨.invalidFilename, "File name too long (os error 36)"⟩

def nulInName : Fault := ⟨.invalidInput, "file name contained an unexpected NUL byte"⟩

def notText : Fault := ⟨.invalidData, "stream did not contain valid UTF-8"⟩

end Fault

/-- The causes of failure. The first four lie in the content of one document. -/
inductive Problem where
  | malformed (file reason : String)
  | schema (reason : String)
  | wrongShape (path expected found : String)
  | contradiction (reason : String)
  | noDocument (path : String)
  | configuration (message : String)
  | inputOutput (fault : Fault)
  | toml (reason : String)
  | other (message : String)
  deriving DecidableEq, Repr

namespace Problem

def unspecified : String := "<reason>"

def message : Problem → String
  | .malformed file reason => "Invalid hscript syntax in " ++ file ++ ": " ++ reason
  | .schema reason => "Schema error: " ++ reason
  | .wrongShape path expected found =>
    "Type error at '" ++ path ++ "': expected " ++ expected ++ ", found " ++ found
  | .contradiction reason => "Consistency error: " ++ reason
  | .noDocument path => "No hscript document found at " ++ path
  | .configuration message => "Configuration error: " ++ message
  | .inputOutput fault => "IO error: " ++ fault.message
  | .toml reason => "TOML parsing error: " ++ reason
  | .other message => message

def liesInDocument : Problem → Bool
  | .malformed .. | .schema _ | .wrongShape .. | .contradiction _ => true
  | _ => false

end Problem

end PackageScript
