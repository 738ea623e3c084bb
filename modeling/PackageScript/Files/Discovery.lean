import PackageScript.Files.Program
/-! The documents that the paths of a command stand for. -/
namespace PackageScript

namespace Files

/-- The directories that a search does not enter. -/
def skippedDirectories : List String := [".git", ".svn", "__pycache__"]

def inNameOrder (found : List (String × List Path)) : List Path :=
  (found.mergeSort (fun a b => decide (a.1 ≤ b.1))).flatMap Prod.snd

mutual

/-- The files of a name at and below a path that was reached by an entry. -/
def documentsFrom (name : String) (here : Path) (entry : String) : FileTree Unit → List Path
  | .file _ => if entry = name then [here] else []
  | .directory inner =>
    if skippedDirectories.contains entry then []
    else inNameOrder (documentsBelow name here inner)

/-- The files of a name below a directory, under the names of its entries. -/
def documentsBelow (name : String) (here : Path) : Directory Unit → List (String × List Path)
  | [] => []
  | (entry, t) :: rest =>
    (entry, documentsFrom name (here.join entry) entry t) :: documentsBelow name here rest

end

/-- All documents below a directory: those of an entry before those of the next one. -/
def searchTree (name : String) (root : Path) (entries : Directory Unit) : List Path :=
  inNameOrder (documentsBelow name root entries)

/-- The documents that one path stands for: the file itself, or the document of a package
directory, or all documents below a directory. -/
def documentsAt (name : String) (recursive : Bool) (p : Path) : Job (List Path) := do
  match ← Job.ask (.look p) with
  | some .file => return [p]
  | some .directory =>
    if recursive then
      let entries ← Job.expect ("Failed to search " ++ p.text) (← Job.ask (.survey p))
      return searchTree name p entries
    else
      let document := p.join name
      if (← Job.ask (.look document)) = some .file then return [document]
      else throw (.ofProblem (.noDocument document.text))
  | _ => throw (.ofProblem (.noDocument p.text))

/-- The paths without those that have the components of an earlier one. -/
def distinctAfter (earlier : List Path) : List Path → List Path
  | [] => []
  | p :: rest =>
    if earlier.any (·.same p) then distinctAfter earlier rest
    else p :: distinctAfter (p :: earlier) rest

/-- The documents that some paths stand for, in order, each one once. -/
def findDocuments (name : String) (recursive : Bool) (paths : List Path) : Job (List Path) :=
  return distinctAfter [] (← paths.mapM (documentsAt name recursive)).flatten

end Files

end PackageScript
