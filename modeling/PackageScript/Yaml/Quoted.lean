import PackageScript.Yaml.Token
/-! Scalars in single or double quotes. -/
namespace PackageScript.Yaml.Quoted

def letterEscape? : Char → Option Char
  | '0' => some '\x00'
  | 'a' => some '\x07'
  | 'b' => some '\x08'
  | 't' => some '\t'
  | '\t' => some '\t'
  | 'n' => some '\n'
  | 'v' => some '\x0b'
  | 'f' => some '\x0c'
  | 'r' => some '\r'
  | 'e' => some '\x1b'
  | ' ' => some ' '
  | '"' => some '"'
  | '/' => some '/'
  | '\\' => some '\\'
  | 'N' => some '\u0085'
  | '_' => some '\u00a0'
  | 'L' => some '\u2028'
  | 'P' => some '\u2029'
  | _ => none

def escapeWidth? : Char → Option Nat
  | 'x' => some 2
  | 'u' => some 4
  | 'U' => some 8
  | _ => none

def escape : Scan Char := do
  match (← get).rest with
  | [] => failure
  | c :: _ =>
    Scan.skip 1
    match escapeWidth? c with
    | some width =>
      let n ← Token.hexNumber width
      Scan.require (decide n.isValidChar)
      return Char.ofNat n
    | none => StateT.lift (letterEscape? c)

/-- The characters up to a gap or the closing quote, and whether an escaped break ended them. -/
def word (double : Bool) : Nat → Scan (List Char × Bool)
  | 0 => return ([], false)
  | fuel + 1 => do
    match double, (← get).rest with
    | _, [] => return ([], false)
    | false, '\'' :: '\'' :: _ =>
      Scan.skip 2
      let (more, escaped) ← word double fuel
      return ('\'' :: more, escaped)
    | true, '\\' :: c :: _ =>
      Scan.skip 1
      if isBreak c then
        modify Cursor.skipBreak
        return ([], true)
      let char ← escape
      let (more, escaped) ← word double fuel
      return (char :: more, escaped)
    | _, c :: _ =>
      if isGap c || c == (if double then '"' else '\'') then return ([], false)
      Scan.skip 1
      let (more, escaped) ← word double fuel
      return (c :: more, escaped)

def scanFrom (double : Bool) : Nat → Scan (List Char)
  | 0 => failure
  | fuel + 1 => do
    let c ← get
    Scan.require (!c.atDocumentMark && !c.rest.isEmpty)
    let (first, escaped) ← word double (c.rest.length + 1)
    if ← Scan.nextIs (· == (if double then '"' else '\'')) then
      Scan.skip 1
      return first
    let gap ← if escaped then Gap.afterBreak 0 [] else Gap.read 0
    return first ++ gap.text ++ (← scanFrom double fuel)

def scan (double : Bool) : Scan (List Char) := do
  Scan.skip 1
  scanFrom double ((← get).rest.length + 1)

end PackageScript.Yaml.Quoted
