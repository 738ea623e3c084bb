import PackageScript.Problem
import PackageScript.Text.Blank
/-! Failures on the way through the program, and how they are reported to a user. -/
namespace PackageScript

/-- What a failure comes from in the end. -/
inductive Cause where
  | problem (p : Problem)
  | fault (f : Fault)
  | text (message : String)
  deriving DecidableEq, Repr

def Cause.message : Cause → String
  | .problem p => p.message
  | .fault f => f.message
  | .text message => message

/-- The message of a cause, and that of the error inside it, if it wraps one. -/
def Cause.messages : Cause → List String
  | .problem (.inputOutput f) => [Problem.message (.inputOutput f), f.message]
  | .problem (.toml reason) => [Problem.message (.toml reason), reason]
  | c => [c.message]

/-- A cause with what was being done at the time, the widest context first. -/
structure Failure where
  contexts : List String := []
  cause : Cause
  deriving DecidableEq, Repr

namespace Failure

def ofProblem (p : Problem) : Failure := { cause := .problem p }

def ofFault (f : Fault) : Failure := { cause := .fault f }

def ofText (message : String) : Failure := { cause := .text message }

def within (context : String) (f : Failure) : Failure :=
  { f with contexts := context :: f.contexts }

def outermost (f : Failure) : String :=
  f.contexts.headD f.cause.message

def chain (f : Failure) : List String :=
  f.contexts ++ f.cause.messages

def line (f : Failure) : String :=
  Text.joinWith ": " f.chain

def liesInDocument (f : Failure) : Bool :=
  match f.cause with
  | .problem p => p.liesInDocument
  | _ => false

end Failure

/-- What a user is told: the problem, more about it, and what to do. -/
structure Report where
  problem : Problem
  details : Option String := none
  suggestion : Option String := none
  deriving DecidableEq, Repr

/-- The problem as a report tells it. Faults and table syntax are retold in their words only. -/
def Problem.retold : Problem → Problem
  | .inputOutput fault => .other ("IO error: " ++ fault.message)
  | .toml reason => .other ("TOML parsing error: " ++ reason)
  | p => p

def Problem.report (p : Problem) : Report :=
  match p with
  | .malformed .. =>
    { problem := p
      details := some ("hscript documents are YAML; flow style (\x7b...\x7d and [...]) and block " ++
        "style may be mixed")
      suggestion := some ("Check the YAML syntax: indentation, unmatched brackets or braces, " ++
        "and unquoted ':' inside values") }
  | .schema reason =>
    { problem := p
      suggestion := some (
        if Text.occursIn "package".toList reason.toList then
          "Every hscript document needs a 'package' section with at least a 'name'"
        else "Valid top-level sections are: package, options, configure, build") }
  | .wrongShape _ expected _ =>
    { problem := p, suggestion := some ("Change the field so that it holds " ++ expected) }
  | .contradiction _ =>
    { problem := p
      details := some ("A target's 'name' must equal its key under 'build', and tag names and " ++
        "target outputs must be unique")
      suggestion := some "Remove one of the conflicting declarations" }
  | .noDocument _ =>
    { problem := p
      details := some "Use --recursive to search a whole work area"
      suggestion := some ("Pass the path of an hscript.yml file, or a package directory that " ++
        "contains one") }
  | .configuration _ | .toml _ =>
    { problem := p
      suggestion := some "Check ~/.hscript/config.toml (or the file given with --config)" }
  | .inputOutput _ | .other _ => { problem := p }

namespace Report

def text (r : Report) : String :=
  r.problem.message ++ (r.details.map ("\nDetails: " ++ ·)).getD "" ++
    (r.suggestion.map ("\nSuggestion: " ++ ·)).getD ""

def printed (r : Report) : String :=
  "error: " ++ r.problem.message ++ "\n" ++
    (r.details.map fun d => "details: " ++ d ++ "\n").getD "" ++
    (r.suggestion.map fun s => "suggestion: " ++ s ++ "\n").getD ""

end Report

namespace Failure

def numbered : Nat → List String → String
  | _, [] => ""
  | n, message :: rest => "\n  " ++ toString n ++ ": " ++ message ++ numbered (n + 1) rest

def chainText (f : Failure) : String :=
  match f.chain.drop 1 with
  | [] => f.outermost
  | causes => f.outermost ++ "\n\nCaused by:" ++ numbered 1 causes

/-- The report of a problem in its context, which becomes the first of the details. -/
def problemReport (f : Failure) (p : Problem) : Report :=
  let r := p.retold.report
  if f.outermost = p.message then r
  else { r with details := some (match r.details with
    | some details => f.outermost ++ "\n" ++ details
    | none => f.outermost) }

def report (f : Failure) : Report :=
  match f.cause with
  | .problem p => f.problemReport p
  | .fault ⟨.permissionDenied, message⟩ =>
    { problem := .other ("Permission denied: " ++ message)
      details := some
        "hscript needs to read hscript.yml and write the generated script next to it"
      suggestion := some "Check ownership and permissions of the package directory" }
  | .fault ⟨.notFound, message⟩ =>
    { problem := .other ("File not found: " ++ message)
      suggestion := some "Check that the file or directory exists and the path is correct" }
  | _ => { problem := .other f.chainText }

end Failure

end PackageScript
