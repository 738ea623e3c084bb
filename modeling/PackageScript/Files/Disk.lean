import PackageScript.Files.Tree
import PackageScript.Path
import PackageScript.Problem
/-! A disk without links: what paths lead to, and the changes that one call makes.
A call that fails leaves the disk as it was. -/
namespace PackageScript

abbrev Bytes := List UInt8

inductive EntryKind where
  | file
  | directory
  /-- Something else, such as a device. No disk of this model holds one. -/
  | other
  deriving DecidableEq, Repr

def FileTree.kind {α : Type} : FileTree α → EntryKind
  | .file _ => .file
  | .directory _ => .directory

/-- All files and directories, and the directory that relative paths start from. Absolute ones
start from the top. -/
structure Disk where
  top : Directory Bytes
  current : Location := []

namespace Disk

def at? (d : Disk) (l : Location) : Option (FileTree Bytes) :=
  (FileTree.directory d.top).at? l

/-- The disk with something else, or nothing, at a location below the top. -/
def setAt (d : Disk) (l : Location) (t : Option (FileTree Bytes)) : Disk :=
  { d with top := d.top.setAt l t }

def here (d : Disk) : Directory Bytes :=
  match d.at? d.current with
  | some (.directory entries) => entries
  | _ => []

def startOf (d : Disk) (p : Path) : Location :=
  if p.lead = "/" then [] else d.current

def nameLimit : Nat := 255

def pathLimit : Nat := 4095

def checkName (name : String) : Except Fault Unit :=
  if nameLimit < name.utf8ByteSize then throw .nameTooLong else return ()

/-- Refuses a path that leads nowhere on any disk. -/
def checkPath (p : Path) : Except Fault Unit :=
  if p.hasNul then throw .nulInName
  else if p.text = "" then throw .notFound
  else if pathLimit < p.text.utf8ByteSize then throw .nameTooLong
  else return ()

/-- The location reached from a directory by one segment of a path. -/
def stepTo (here : Location) (segment : String) : Except Fault Location :=
  if Path.isIdle segment then return here
  else if segment = ".." then return here.dropLast
  else do
    checkName segment
    return here ++ [segment]

/-- The location reached from a directory by the segments of a path. Only the last one may lead
to where nothing is. -/
def follow (d : Disk) : Location → List String → Except Fault Location
  | here, [] => .ok here
  | here, segment :: rest =>
    match d.at? here with
    | none => .error .notFound
    | some (.file _) => .error .notADirectory
    | some (.directory _) => do d.follow (← stepTo here segment) rest

def locate (d : Disk) (p : Path) : Except Fault Location := do
  checkPath p
  d.follow (d.startOf p) p.segments

def find? (d : Disk) (p : Path) : Option (FileTree Bytes) :=
  match d.locate p with
  | .ok l => d.at? l
  | .error _ => none

def kind? (d : Disk) (p : Path) : Option EntryKind :=
  (d.find? p).map FileTree.kind

def read (d : Disk) (p : Path) : Except Fault Bytes := do
  match d.at? (← d.locate p) with
  | some (.file content) => return content
  | some (.directory _) => throw .isADirectory
  | none => throw .notFound

/-- Writes a file, in place of one that is there already. -/
def write (d : Disk) (p : Path) (content : Bytes) : Except Fault Disk := do
  let l ← d.locate p
  match d.at? l with
  | some (.directory _) => throw .isADirectory
  | _ => return d.setAt l (some (.file content))

def remove (d : Disk) (p : Path) : Except Fault Disk := do
  let l ← d.locate p
  match d.at? l with
  | some (.file _) => return d.setAt l none
  | some (.directory _) => throw .isADirectory
  | none => throw .notFound

/-- The segments of a path without the slashes at its end. -/
def unslashed (p : Path) : List String :=
  Text.dropEndWhile (· == "") p.segments

def createDirectory (d : Disk) (p : Path) : Except Fault Disk := do
  checkPath p
  let l ← d.follow (d.startOf p) (unslashed p)
  match d.at? l with
  | some _ => throw .alreadyExists
  | none => return d.setAt l (some (.directory []))

/-- A name in a directory, and whether slashes follow it. -/
structure Slot where
  directory : Location
  name : Option String
  slashed : Bool

/-- The last name of a path and the directory that holds it. -/
def slot (d : Disk) (p : Path) : Except Fault Slot := do
  checkPath p
  let segments := unslashed p
  return {
    directory := ← d.follow (d.startOf p) (segments.dropLast ++ [""])
    name := segments.getLast?.filter (fun s => !Path.isIdle s && s != "..")
    slashed := segments.length < p.segments.length }

def below (inner outer : Location) : Bool :=
  outer.isPrefixOf inner && outer != inner

/-- Moves a file or a directory, in place of a file or an empty directory of the same kind. -/
def rename (d : Disk) (source target : Path) : Except Fault Disk := do
  if source.hasNul || target.hasNul then throw .nulInName
  let s ← d.slot source
  let t ← d.slot target
  match s.name, t.name with
  | some sourceName, some targetName =>
    let start := s.directory ++ [sourceName]
    let goal := t.directory ++ [targetName]
    checkName sourceName
    match d.at? start with
    | none => throw .notFound
    | some moved =>
      checkName targetName
      if moved.kind = .file ∧ (s.slashed ∨ t.slashed) then throw .notADirectory
      else if below goal start then throw .invalidArgument
      else if below start goal then throw .directoryNotEmpty
      else if start = goal then return d
      else match moved, d.at? goal with
        | .file _, some (.directory _) => throw .isADirectory
        | .directory _, some (.file _) => throw .notADirectory
        | .directory _, some (.directory (_ :: _)) => throw .directoryNotEmpty
        | _, _ => return (d.setAt start none).setAt goal (some moved)
  | _, _ => throw .busy

def survey (d : Disk) (p : Path) : Except Fault (Directory Unit) := do
  match d.at? (← d.locate p) with
  | some (.directory entries) => return FileTree.outlines entries
  | some (.file _) => throw .notADirectory
  | none => throw .notFound

end Disk

end PackageScript
