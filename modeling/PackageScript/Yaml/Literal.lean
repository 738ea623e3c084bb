import PackageScript.Yaml.Token
/-! Scalars of indented lines, literal or folded. -/
namespace PackageScript.Yaml.Literal

/-- What becomes of the breaks at the end: none, one or all are kept. -/
inductive Ending where
  | strip
  | clip
  | keep
  deriving DecidableEq

def ending? : Scan (Option Ending) := do
  if ← Scan.nextIs (· == '+') then
    Scan.skip 1
    return some .keep
  else if ← Scan.nextIs (· == '-') then
    Scan.skip 1
    return some .strip
  else return none

/-- The indentation mark, if one is here. Zero is refused. -/
def increment? : Scan (Option Nat) := do
  match (← get).rest with
  | [] => return none
  | c :: _ =>
    if !c.isDigit then return none
    Scan.require (c != '0')
    Scan.skip 1
    return some (c.toNat - '0'.toNat)

def header : Scan (Ending × Option Nat) := do
  let first ← ending?
  let increment ← increment?
  let last ← if first.isNone && increment.isSome then ending? else pure none
  Scan.finishLine
  return ((first.or last).getD .clip, increment)

/-- The breaks of the empty lines here, and the greatest column that their spaces reach. The next
line is passed up to column `indent`, or up to its first character where none is known. -/
def emptyLines (indent : Option Nat) : Nat → Nat → Scan (List Char × Nat)
  | 0, widest => return ([], widest)
  | fuel + 1, widest => do
    let blanks := (← get).rest.takeWhile (· == ' ')
    let column := (← get).column
    Scan.skip (match indent with
      | some n => min blanks.length (n - column)
      | none => blanks.length)
    let c ← get
    let widest := max widest c.column
    Scan.require (!(c.nextIs (· == '\t') && indent.all (c.column < ·)))
    if c.nextIs isBreak then
      let text ← Scan.lineBreak
      let (more, widest) ← emptyLines indent fuel widest
      return (text ++ more, widest)
    else return ([], widest)

/-- What the break before a line and the empty lines after that break give. Folding turns a lone
line feed between two lines without leading blanks into a space. -/
def joint (folded : Bool) (first more : List Char) : List Char :=
  if folded && first == ['\n'] then if more.isEmpty then [' '] else more else first ++ more

/-- The text of the lines at column `indent`, after a break and empty lines. -/
def lines (isFolded : Bool) (ending : Ending) (indent : Nat) :
    Nat → Bool → List Char → List Char → Scan (List Char)
  | 0, _, _, _ => failure
  | fuel + 1, afterBlank, first, more => do
    let c ← get
    if c.column == indent && !c.rest.isEmpty then
      let blank := c.nextIs isSpace
      let line ← Scan.takeWhile (!isBreak ·)
      let next ← Scan.lineBreak
      let (empty, _) ← emptyLines (some indent) ((← get).rest.length + 1) 0
      let rest ← lines isFolded ending indent fuel blank next empty
      return joint (isFolded && !afterBlank && !blank) first more ++ line ++ rest
    else match ending with
      | .strip => return []
      | .clip => return first
      | .keep => return first ++ more

def scan (isFolded : Bool) (parent : Option Nat) : Scan (List Char) := do
  Scan.skip 1
  let (ending, increment) ← header
  let known := increment.map (parent.getD 0 + ·)
  let fuel := (← get).rest.length + 1
  let (empty, widest) ← emptyLines known fuel 0
  let least := max 1 ((parent.map (· + 1)).getD 0)
  lines isFolded ending (known.getD (max widest least)) fuel false [] empty

end PackageScript.Yaml.Literal
