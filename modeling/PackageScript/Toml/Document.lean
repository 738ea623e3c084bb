import PackageScript.Toml.Table
import PackageScript.Toml.Text
/-! Documents in the notation of TOML 1.1. Values other than texts, tables and empty lists are
refused. -/
namespace PackageScript.Toml

/-- A step that reads on in a document, or refuses what is there. -/
abbrev Read := StateT (List Char) Option

namespace Read

/-- The next character, which stays. -/
def next? : Read (Option Char) :=
  return (← get).head?

def pass (c : Char) : Read Unit := do
  match ← get with
  | d :: rest => if c = d then set rest else failure
  | [] => failure

def skipSpaces : Read Unit :=
  modify (·.dropWhile isSpace)

def afterGap : Nat → List Char → List Char
  | 0, cs => cs
  | fuel + 1, cs =>
    match cs.dropWhile isSpace with
    | '#' :: rest => afterGap fuel (rest.dropWhile isPrintable)
    | cs =>
      match afterBreak? cs with
      | some rest => afterGap fuel rest
      | none => cs

def skipGap : Read Unit :=
  modify fun cs => afterGap (cs.length + 1) cs

/-- Passes the end of the line, where nothing but blanks and a comment precede it. -/
def lineEnd : Read Unit := do
  skipSpaces
  if (← next?) = some '#' then modify (·.dropWhile isPrintable)
  match ← get with
  | [] => return ()
  | cs =>
    match afterBreak? cs with
    | some rest => set rest
    | none => failure

def text : Read String := fun cs =>
  (text? cs).map fun (text, rest) => (String.ofList text, rest)

def key : Read String := fun cs =>
  (key? cs).map fun (key, rest) => (String.ofList key, rest)

def keyPath : Nat → Read KeyPath
  | 0 => failure
  | fuel + 1 => do
    let first ← key
    skipSpaces
    if (← next?) = some '.' then
      pass '.'
      skipSpaces
      return first :: (← keyPath fuel)
    else return [first]

mutual

def value : Nat → Read Value
  | 0 => failure
  | fuel + 1 => do
    match ← next? with
    | some '[' =>
      pass '['
      skipGap
      pass ']'
      return .emptyList
    | some '\x7b' =>
      pass '\x7b'
      skipGap
      let entries ← inlineEntries fuel
      return .table (← StateT.lift (Table.ofSections? [{ header := [], entries }]))
    | _ => return .text (← text)

def entry : Nat → Read (KeyPath × Value)
  | 0 => failure
  | fuel + 1 => do
    let path ← keyPath fuel
    pass '='
    skipSpaces
    return (path, ← value fuel)

/-- Reads entries with commas between them, up to the brace that ends them. A comma may stand
before the brace too. -/
def inlineEntries : Nat → Read (List (KeyPath × Value))
  | 0 => failure
  | fuel + 1 => do
    if (← next?) = some '\x7d' then
      pass '\x7d'
      return []
    let first ← entry fuel
    skipGap
    if (← next?) = some ',' then
      pass ','
      skipGap
      return first :: (← inlineEntries fuel)
    else
      pass '\x7d'
      return [first]

end

def header (fuel : Nat) : Read KeyPath := do
  pass '['
  skipSpaces
  let path ← keyPath fuel
  pass ']'
  return path

/-- Reads the lines that are left, in a section that has begun. -/
def sections : Nat → Section → Read (List Section)
  | 0, _ => failure
  | fuel + 1, current => do
    skipSpaces
    match ← next? with
    | none => return [current]
    | some '#' | some '\n' | some '\r' =>
      lineEnd
      sections fuel current
    | some '[' =>
      let header ← header fuel
      lineEnd
      return current :: (← sections fuel { header })
    | some _ =>
      let e ← entry fuel
      lineEnd
      sections fuel { current with entries := current.entries ++ [e] }

end Read

/-- The table that a document defines. A byte-order mark in front does not count. -/
def read? (s : String) : Option Table := do
  let cs := match s.toList with
    | '\ufeff' :: rest => rest
    | cs => cs
  let (found, _) ← (Read.sections (cs.length + 2) { header := [] }).run cs
  Table.ofSections? found

end PackageScript.Toml
