import PackageScript.Yaml.Plain
import PackageScript.Yaml.Quoted
import PackageScript.Yaml.Literal
/-! The tokens of a document: blocks from indentation, and keys found only when their colon comes. -/
namespace PackageScript.Yaml

/-- A token that turns out to be a key if a colon follows it: where it stands, how many tokens
come before it, and whether nothing but a key may stand there. -/
structure Candidate where
  line : Nat
  column : Nat
  index : Nat
  position : Nat
  required : Bool

/-- The state between two tokens. Tokens are kept last first. There is one place for a candidate
on each level of flow collections, and one outside them. -/
structure Layout where
  cursor : Cursor
  tokens : List Token := []
  count : Nat := 0
  flow : Nat := 0
  indent : Option Nat := none
  outer : List (Option Nat) := []
  keyAllowed : Bool := true
  candidates : List (Option Candidate) := [none]

namespace Layout

def inFlow (l : Layout) : Bool :=
  l.flow != 0

def emit (token : Token) (l : Layout) : Layout :=
  { l with tokens := token :: l.tokens, count := l.count + 1 }

def emitAt (position : Nat) (token : Token) (l : Layout) : Layout :=
  let later := l.count - position
  { l with
    tokens := l.tokens.take later ++ token :: l.tokens.drop later
    count := l.count + 1 }

def scan {α : Type} (step : Scan α) (l : Layout) : Option (α × Layout) := do
  let (a, after) ← step.run l.cursor
  return (a, { l with cursor := after })

def skip (n : Nat) (l : Layout) : Layout :=
  { l with cursor := l.cursor.skip n }

def candidate? (l : Layout) : Option Candidate :=
  l.candidates.head?.join

def setCandidate (c : Option Candidate) (l : Layout) : Layout :=
  { l with candidates := c :: l.candidates.drop 1 }

/-- Gives up a candidate. One that is required is refused. -/
def dropCandidate? (l : Layout) : Option Layout :=
  if l.candidate?.any (·.required) then none else some (l.setCandidate none)

/-- Gives up the candidates on earlier lines and those more than 1024 bytes back. -/
def expire (c : Cursor) : List (Option Candidate) → Option (List (Option Candidate))
  | [] => some []
  | none :: rest => (expire c rest).map (none :: ·)
  | some k :: rest =>
    if k.line < c.line || k.index + 1024 < c.index then
      if k.required then none else (expire c rest).map (none :: ·)
    else (expire c rest).map (some k :: ·)

/-- Makes the next token a candidate where a key may start. -/
def saveCandidate? (l : Layout) : Option Layout :=
  if l.keyAllowed then do
    let l ← l.dropCandidate?
    let c := l.cursor
    return l.setCandidate (some
      { line := c.line, column := c.column, index := c.index, position := l.count
        required := !l.inFlow && l.indent == some c.column })
  else some l

def deeper (column : Nat) (indent : Option Nat) : Bool :=
  indent.all (· < column)

def openBlock (column position : Nat) (token : Token) (l : Layout) : Layout :=
  if l.inFlow || !deeper column l.indent then l
  else { l.emitAt position token with indent := some column, outer := l.indent :: l.outer }

/-- Ends the blocks from the innermost one outwards, as long as `ends` holds of their columns. -/
def closeBlocks (ends : Nat → Bool) : List (Option Nat) → Layout → Layout
  | next :: rest, l =>
    if l.indent.any ends then
      closeBlocks ends rest { l.emit .blockEnd with indent := next, outer := rest }
    else l
  | [], l => l

def closeTo (column : Nat) (l : Layout) : Layout :=
  if l.inFlow then l else closeBlocks (column < ·) l.outer l

def closeAll (l : Layout) : Layout :=
  if l.inFlow then l else closeBlocks (fun _ => true) l.outer l

/-- Passes a mark that starts a line and is allowed only there. -/
def lineMark (width : Nat) (token : Token) (l : Layout) : Option Layout := do
  let l ← l.closeAll.dropCandidate?
  return { (l.skip width).emit token with keyAllowed := false }

def directive (l : Layout) : Option Layout := do
  let l ← l.closeAll.dropCandidate?
  let (token, l) ← (l.skip 1).scan Token.directiveToken
  return { l.emit token with keyAllowed := false }

def openFlow (token : Token) (l : Layout) : Option Layout := do
  let l ← l.saveCandidate?
  return { (l.skip 1).emit token with
    flow := l.flow + 1
    candidates := none :: l.candidates
    keyAllowed := true }

def closeFlow (token : Token) (l : Layout) : Option Layout := do
  let l ← l.dropCandidate?
  let candidates := if l.inFlow then l.candidates.drop 1 else l.candidates
  return { (l.skip 1).emit token with
    flow := l.flow - 1
    candidates := candidates
    keyAllowed := false }

def separator (l : Layout) : Option Layout := do
  let l ← l.dropCandidate?
  return { (l.skip 1).emit .separator with keyAllowed := true }

/-- Opens a block for a mark at the present place, where one may start. -/
def openBlockHere? (token : Token) (l : Layout) : Option Layout :=
  if l.inFlow then some l
  else if l.keyAllowed then some (l.openBlock l.cursor.column l.count token)
  else none

def item (l : Layout) : Option Layout := do
  let l ← (← l.openBlockHere? .blockList).dropCandidate?
  return { (l.skip 1).emit .item with keyAllowed := true }

def key (l : Layout) : Option Layout := do
  let l ← (← l.openBlockHere? .blockMap).dropCandidate?
  return { (l.skip 1).emit .key with keyAllowed := !l.inFlow }

/-- A colon makes a key of the candidate, and opens a block there if it needs one. -/
def value (l : Layout) : Option Layout :=
  match l.candidate? with
  | some k =>
    let l := (l.emitAt k.position .key).openBlock k.column k.position .blockMap
    some { ((l.setCandidate none).skip 1).emit .value with keyAllowed := false }
  | none => do
    let l ← l.openBlockHere? .blockMap
    return { (l.skip 1).emit .value with keyAllowed := !l.inFlow }

def keyLike (step : Scan Token) (l : Layout) : Option Layout := do
  let l ← l.saveCandidate?
  let (token, l) ← l.scan step
  return { l.emit token with keyAllowed := false }

def literal (isFolded : Bool) (l : Layout) : Option Layout := do
  let l ← l.dropCandidate?
  let (text, l) ← l.scan (Literal.scan isFolded l.indent)
  return { l.emit (.scalar text false) with keyAllowed := true }

def plain (l : Layout) : Option Layout := do
  let l ← l.saveCandidate?
  let least := (l.indent.map (· + 1)).getD 0
  let ((text, broken), l) ← l.scan (Plain.scan l.inFlow least)
  return { l.emit (.scalar text true) with keyAllowed := broken }

/-- Passes what lies between tokens: blanks, comments, line breaks, and a byte order mark at the
start of a line. The mark takes a column. A tab may not stand where a key may start. -/
def skipToToken : Nat → Layout → Layout
  | 0, l => l
  | fuel + 1, l =>
    let c := l.cursor
    let c := if c.column == 0 && c.nextIs (· == '\ufeff') then c.skip 1 else c
    let c := c.skipWhile fun a => a == ' ' || (a == '\t' && (l.inFlow || !l.keyAllowed))
    let c := if c.nextIs (· == '#') then c.skipWhile (!isBreak ·) else c
    if c.nextIs isBreak then
      skipToToken fuel { l with cursor := c.skipBreak, keyAllowed := l.keyAllowed || !l.inFlow }
    else { l with cursor := c }

def startsPlain (inFlow : Bool) (c : Char) (rest : List Char) : Bool :=
  !(isGap c || "-?:,[]\x7b\x7d#&*!|>'\"%@\x60".toList.contains c) ||
    (c == '-' && !rest.head?.any isSpace) ||
    (!inFlow && (c == '?' || c == ':') && !rest.head?.all isGap)

def next (l : Layout) (c : Char) (rest : List Char) : Option Layout :=
  let gapNext : Bool := rest.head?.all isGap
  if l.cursor.column = 0 ∧ c = '%' then l.directive
  else if l.cursor.atDocumentStart then l.lineMark 3 .documentStart
  else if l.cursor.atDocumentEnd then l.lineMark 3 .documentEnd
  else if c = '[' then l.openFlow .listStart
  else if c = '\x7b' then l.openFlow .mapStart
  else if c = ']' then l.closeFlow .listEnd
  else if c = '\x7d' then l.closeFlow .mapEnd
  else if c = ',' then l.separator
  else if c = '-' ∧ gapNext then l.item
  else if c = '?' ∧ (l.inFlow ∨ gapNext) then l.key
  else if c = ':' ∧ (l.inFlow ∨ gapNext) then l.value
  else if c = '*' then l.keyLike do
    Scan.skip 1
    return .alias (← Token.anchorName)
  else if c = '&' then l.keyLike do
    Scan.skip 1
    return .anchor (← Token.anchorName)
  else if c = '!' then l.keyLike (Token.tagToken l.inFlow)
  else if (c = '|' ∨ c = '>') ∧ !l.inFlow then l.literal (c == '>')
  else if c = '\'' ∨ c = '"' then l.keyLike do
    return .scalar (← Quoted.scan (c == '"')) false
  else if startsPlain l.inFlow c rest then l.plain
  else none

def run : Nat → Layout → Option (List Token)
  | 0, _ => none
  | fuel + 1, l => do
    let l := skipToToken (l.cursor.rest.length + 1) l
    let candidates ← expire l.cursor l.candidates
    let l := { l with candidates }.closeTo l.cursor.column
    match l.cursor.rest with
    | [] => return (← l.closeAll.dropCandidate?).tokens.reverse
    | c :: rest => run fuel (← l.next c rest)

end Layout

/-- The tokens of a document's characters, which must all be allowed ones. -/
def Token.ofChars? (cs : List Char) : Option (List Token) :=
  if cs.all isAllowed then Layout.run (cs.length + 2) { cursor := { rest := cs } } else none

end PackageScript.Yaml
