import PackageScript.Text.Utf8
import PackageScript.Yaml.Character
/-! Places in a document, and the gaps between the words of a scalar. -/
namespace PackageScript.Yaml

/-- The text that is left, with its place. Lines and columns count from zero, columns in
characters. The index counts the bytes before it. -/
structure Cursor where
  rest : List Char
  line : Nat := 0
  column : Nat := 0
  index : Nat := 0

namespace Cursor

def skip (c : Cursor) (n : Nat) : Cursor :=
  { c with
    rest := c.rest.drop n
    column := c.column + n
    index := c.index + Text.Utf8.size (c.rest.take n) }

def skipWhile (p : Char → Bool) (c : Cursor) : Cursor :=
  c.skip (c.rest.takeWhile p).length

/-- Passes a line break. A carriage return and a line feed are one break. -/
def skipBreak (c : Cursor) : Cursor :=
  let nextLine (n : Nat) : Cursor :=
    { rest := c.rest.drop n, line := c.line + 1, column := 0,
      index := c.index + Text.Utf8.size (c.rest.take n) }
  match c.rest with
  | '\r' :: '\n' :: _ => nextLine 2
  | b :: _ => if isBreak b then nextLine 1 else c
  | [] => c

/-- What a scalar keeps of the line break here: a line feed, or a separator as it is. -/
def breakText (c : Cursor) : List Char :=
  match c.rest with
  | b :: _ => if b == '\u2028' || b == '\u2029' then [b] else if isBreak b then ['\n'] else []
  | [] => []

def nextIs (c : Cursor) (p : Char → Bool) : Bool :=
  c.rest.head?.any p

def atLineEnd (c : Cursor) : Bool :=
  c.rest.head?.all isBreak

/-- Whether a gap or the end of the document comes after `n` more characters. -/
def gapAfter (c : Cursor) (n : Nat) : Bool :=
  (c.rest.drop n).head?.all isGap

/-- Whether a line starts here with this mark and a gap after it. -/
def atMark (c : Cursor) (mark : List Char) : Bool :=
  c.column == 0 && mark.isPrefixOf c.rest && c.gapAfter mark.length

def atDocumentStart (c : Cursor) : Bool :=
  c.atMark ['-', '-', '-']

def atDocumentEnd (c : Cursor) : Bool :=
  c.atMark ['.', '.', '.']

def atDocumentMark (c : Cursor) : Bool :=
  c.atDocumentStart || c.atDocumentEnd

end Cursor

/-- A step that reads on from a place, or refuses what is there. -/
abbrev Scan := StateT Cursor Option

namespace Scan

def require (b : Bool) : Scan Unit :=
  if b then pure () else failure

def skip (n : Nat) : Scan Unit :=
  modify (·.skip n)

def takeWhile (p : Char → Bool) : Scan (List Char) := do
  let taken := (← get).rest.takeWhile p
  skip taken.length
  return taken

def nextIs (p : Char → Bool) : Scan Bool :=
  return (← get).nextIs p

/-- Passes a line break, if one is here, and gives what a scalar keeps of it. -/
def lineBreak : Scan (List Char) := do
  let text := (← get).breakText
  modify Cursor.skipBreak
  return text

/-- Passes blanks, a comment and the end of the line. All else is refused. -/
def finishLine : Scan Unit := do
  let _ ← takeWhile isSpace
  if ← nextIs (· == '#') then
    let _ ← takeWhile (!isBreak ·)
  require (← get).atLineEnd
  modify Cursor.skipBreak

end Scan

/-- What stands between two words of a scalar: spaces on one line, or line breaks. -/
inductive Gap where
  | spaces (text : List Char)
  | breaks (first more : List Char)

namespace Gap

/-- What a scalar keeps of a gap. A single line feed becomes a space. -/
def text : Gap → List Char
  | .spaces text => text
  | .breaks ['\n'] [] => [' ']
  | .breaks ['\n'] more => more
  | .breaks first more => first ++ more

def hasBreak : Gap → Bool
  | .spaces _ => false
  | .breaks .. => true

/-- Passes the blanks at the start of a line. A tab before column `limit` is refused. -/
def indentation (limit : Nat) : Scan Unit := do
  let free := limit - (← get).column
  let blanks ← Scan.takeWhile isSpace
  Scan.require (!(blanks.take free).contains '\t')

/-- The breaks of all empty lines from here on. The last line's blanks are passed too. -/
def emptyLines (limit : Nat) : Nat → Scan (List Char)
  | 0 => return []
  | fuel + 1 => do
    indentation limit
    if ← Scan.nextIs isBreak then
      let text ← Scan.lineBreak
      return text ++ (← emptyLines limit fuel)
    else return []

def afterBreak (limit : Nat) (first : List Char) : Scan Gap :=
  return .breaks first (← emptyLines limit ((← get).rest.length + 1))

def read (limit : Nat) : Scan Gap := do
  let blanks ← Scan.takeWhile isSpace
  if ← Scan.nextIs isBreak then afterBreak limit (← Scan.lineBreak)
  else return .spaces blanks

end Gap

end PackageScript.Yaml
