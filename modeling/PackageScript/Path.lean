import PackageScript.Text.Blank
/-! Paths as they are written, and the components that they name. -/
namespace PackageScript

/-- A path as it is written. Equal components may be written in different ways. -/
structure Path where
  text : String
  deriving DecidableEq, Repr

namespace Path

/-- Whether a NUL character is in the path. No file has such a name. -/
def hasNul (p : Path) : Bool :=
  p.text.toList.contains '\x00'

/-- What a path names from left to right. -/
inductive Component where
  | root
  | current
  | parent
  | name (text : String)
  deriving DecidableEq, Repr

/-- The pieces of a text between slashes, empty ones included. -/
def slashPieces (cs : List Char) : List String :=
  (Text.pieces (· == '/') cs).map String.ofList

/-- The pieces between the slashes of a path. An empty one stands where two slashes meet,
and at the ends of a path that starts or ends with one. -/
def segments (p : Path) : List String :=
  slashPieces p.text.toList

def isIdle (segment : String) : Bool :=
  segment == "" || segment == "."

/-- The start of a path that is a component of its own: the root, or a leading dot. -/
def lead (p : Path) : String :=
  match p.segments with
  | "" :: _ :: _ => "/"
  | "." :: _ => "."
  | _ => ""

def body (p : Path) : List String :=
  slashPieces (p.text.toList.drop p.lead.length)

/-- The segments after the lead, up to the last one that is not idle. -/
def core (p : Path) : List String :=
  Text.dropEndWhile isIdle p.body

/-- The components. Doubled slashes and inner dots do not count. -/
def components (p : Path) : List Component :=
  (match p.lead with
    | "/" => [.root]
    | "." => [.current]
    | _ => []) ++
  (p.body.filter (!isIdle ·)).map fun s => if s = ".." then .parent else .name s

def same (p q : Path) : Bool :=
  p.components == q.components

/-- The path without its last component. The root and the empty path have none. -/
def parent? (p : Path) : Option Path :=
  match p.core with
  | [] => if p.lead = "." then some ⟨""⟩ else none
  | core => some ⟨p.lead ++ Text.joinWith "/" (Text.dropEndWhile isIdle core.dropLast)⟩

/-- The last component, where it is a name. -/
def fileName? (p : Path) : Option String :=
  match p.core.getLast? with
  | some name => if name = ".." then none else some name
  | none => none

/-- A path taken from another one. An absolute path stays as it is. -/
def join (p : Path) (name : String) : Path :=
  if ['/'].isPrefixOf name.toList then ⟨name⟩
  else if p.text = "" || ['/'].isSuffixOf p.text.toList then ⟨p.text ++ name⟩
  else ⟨p.text ++ "/" ++ name⟩

/-- The path with another name in place of its last component. -/
def withFileName (p : Path) (name : String) : Path :=
  match p.fileName?, p.parent? with
  | some _, some parent => parent.join name
  | _, _ => p.join name

/-- A path with its parent, the parent of that, and so on. -/
def upwards : Nat → Path → List Path
  | 0, p => [p]
  | n + 1, p =>
    match p.parent? with
    | some parent => p :: upwards n parent
    | none => [p]

/-- The path and all paths above it, the nearest first. -/
def ancestors (p : Path) : List Path :=
  upwards p.components.length p

/-- Whether a name stays in the directory that it is joined to. -/
def isPlainName (name : String) : Bool :=
  name != "" && !name.toList.any (fun c => c == '/' || c == '\\') && name != "." && name != ".."

end Path

end PackageScript
