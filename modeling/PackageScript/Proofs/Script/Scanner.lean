/-! How the script language reads characters: names, marks, double-quoted strings with escapes,
comments, and lines that go on inside brackets. Texts with anything else are not read. -/
namespace PackageScript.Script

/-- A word of the script language. -/
inductive Token where
  | name (text : String)
  | string (value : String)
  | mark (c : Char)
  | doubleStar
  deriving DecidableEq, Repr

/-- A line with the width of its indentation. Inside brackets it goes on over line feeds. -/
structure Line where
  indent : Nat
  tokens : List Token
  deriving DecidableEq, Repr

inductive Mode where
  | start (width : Nat)
  | between
  | comment
  | word (text : List Char)
  | star
  | quoted (text : List Char)
  | escaped (text : List Char)
  | octal (text : List Char) (left value : Nat)
  | code (text : List Char) (left value : Nat)
  deriving DecidableEq, Repr

/-- The lines so far, and the part of the present line that is read. -/
structure Scanner where
  mode : Mode := .start 0
  depth : Nat := 0
  indent : Nat := 0
  tokens : List Token := []
  lines : List Line := []
  deriving DecidableEq, Repr

def startsName (c : Char) : Bool :=
  c.isAlpha || c == '_'

def continuesName (c : Char) : Bool :=
  c.isAlphanum || c == '_'

/-- The characters that end a line or cannot be part of a text at all. -/
def breaksLine (c : Char) : Bool :=
  c == '\n' || c == '\r' || c == '\x00'

def hexValue? (c : Char) : Option Nat :=
  if '0' ≤ c ∧ c ≤ '9' then some (c.toNat - '0'.toNat)
  else if 'a' ≤ c ∧ c ≤ 'f' then some (c.toNat - 'a'.toNat + 10)
  else if 'A' ≤ c ∧ c ≤ 'F' then some (c.toNat - 'A'.toNat + 10)
  else none

def octalValue? (c : Char) : Option Nat :=
  if '0' ≤ c ∧ c ≤ '7' then some (c.toNat - '0'.toNat) else none

/-- The character that stands after a backslash for one other character. -/
def simpleEscape? : Char → Option Char
  | '\\' => some '\\'
  | '\'' => some '\''
  | '"' => some '"'
  | 'a' => some '\x07'
  | 'b' => some '\x08'
  | 't' => some '\t'
  | 'n' => some '\n'
  | 'v' => some '\x0b'
  | 'f' => some '\x0c'
  | 'r' => some '\r'
  | _ => none

def codeLength? : Char → Option Nat
  | 'x' => some 2
  | 'u' => some 4
  | 'U' => some 8
  | _ => none

namespace Scanner

def inMode (s : Scanner) (mode : Mode) : Scanner :=
  { s with mode }

def emit (s : Scanner) (t : Token) : Scanner :=
  { s with mode := .between, tokens := s.tokens ++ [t] }

/-- A line feed ends the line, unless it is inside brackets. A line without tokens does not count. -/
def endLine (s : Scanner) : Scanner :=
  if 0 < s.depth then s.inMode .between
  else if s.tokens.isEmpty then { lines := s.lines }
  else { lines := s.lines ++ [⟨s.indent, s.tokens⟩] }

def between (s : Scanner) (c : Char) : Option Scanner :=
  if c = ' ' ∨ c = '\t' then some (s.inMode .between)
  else if c = '\n' then some s.endLine
  else if c = '#' then some (s.inMode .comment)
  else if c = '"' then some (s.inMode (.quoted []))
  else if c = '*' then some (s.inMode .star)
  else if startsName c then some (s.inMode (.word [c]))
  else if c ∈ ['(', '[', '\x7b'] then some { s.emit (.mark c) with depth := s.depth + 1 }
  else if c ∈ [')', ']', '\x7d'] then
    if s.depth = 0 then none else some { s.emit (.mark c) with depth := s.depth - 1 }
  else if c ∈ [',', ':', '=', '.'] then some (s.emit (.mark c))
  else none

def inQuotes (s : Scanner) (text : List Char) (c : Char) : Option Scanner :=
  if c = '"' then some (s.emit (.string (String.ofList text)))
  else if c = '\\' then some (s.inMode (.escaped text))
  else if breaksLine c then none
  else some (s.inMode (.quoted (text ++ [c])))

/-- A character after a backslash. One that starts no escape keeps its backslash. -/
def afterBackslash (s : Scanner) (text : List Char) (c : Char) : Option Scanner :=
  if c = '\n' then some (s.inMode (.quoted text))
  else if breaksLine c ∨ c = 'N' then none
  else match simpleEscape? c, octalValue? c, codeLength? c with
    | some d, _, _ => some (s.inMode (.quoted (text ++ [d])))
    | none, some value, _ => some (s.inMode (.octal text 2 value))
    | none, none, some left => some (s.inMode (.code text left 0))
    | none, none, none => some (s.inMode (.quoted (text ++ ['\\', c])))

/-- A character after a backslash and an octal digit. Up to two more digits belong to the code. -/
def inOctal (s : Scanner) (text : List Char) (left value : Nat) (c : Char) : Option Scanner :=
  match left, octalValue? c with
  | left + 1, some digit => some (s.inMode (.octal text left (8 * value + digit)))
  | _, _ => s.inQuotes (text ++ [Char.ofNat value]) c

def inCode (s : Scanner) (text : List Char) (left value : Nat) (c : Char) : Option Scanner :=
  match hexValue? c with
  | none => none
  | some digit =>
    let value := 16 * value + digit
    if 1 < left then some (s.inMode (.code text (left - 1) value))
    else if value.isValidChar then some (s.inMode (.quoted (text ++ [Char.ofNat value])))
    else none

def step (s : Scanner) (c : Char) : Option Scanner :=
  match s.mode with
  | .start width =>
    if c = ' ' then some (s.inMode (.start (width + 1)))
    else if c = '\t' then none
    else { s with indent := width }.between c
  | .between => s.between c
  | .comment =>
    if c = '\n' then some s.endLine else if breaksLine c then none else some s
  | .word text =>
    if continuesName c then some (s.inMode (.word (text ++ [c])))
    else (s.emit (.name (String.ofList text))).between c
  | .star => if c = '*' then some (s.emit .doubleStar) else none
  | .quoted text => s.inQuotes text c
  | .escaped text => s.afterBackslash text c
  | .octal text left value => s.inOctal text left value c
  | .code text left value => s.inCode text left value c

def scan (s : Scanner) (cs : List Char) : Option Scanner :=
  cs.foldlM step s

/-- The lines of a text, which must end at the start of a line. -/
def lines? (text : String) : Option (List Line) := do
  let s ← scan {} text.toList
  if s.mode = .start 0 then return s.lines else none

end Scanner

end PackageScript.Script
