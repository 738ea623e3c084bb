import PackageScript.Yaml.Cursor
/-! Tokens of a document, and the spelling of tags, anchors and directives. -/
namespace PackageScript.Yaml

inductive Token where
  | versionDirective (major minor : Nat)
  | tagDirective (handle : List Char) (lead : List UInt8)
  | documentStart
  | documentEnd
  | blockList
  | blockMap
  | blockEnd
  | listStart
  | listEnd
  | mapStart
  | mapEnd
  | item
  | separator
  | key
  | value
  | alias (name : List Char)
  | anchor (name : List Char)
  | tag (handle : List Char) (suffix : List UInt8)
  | scalar (text : List Char) (isPlain : Bool)
  deriving DecidableEq, Repr

namespace Token

def hexDigit? (c : Char) : Option Nat :=
  if '0' ≤ c ∧ c ≤ '9' then some (c.toNat - '0'.toNat)
  else if 'a' ≤ c ∧ c ≤ 'f' then some (c.toNat - 'a'.toNat + 10)
  else if 'A' ≤ c ∧ c ≤ 'F' then some (c.toNat - 'A'.toNat + 10)
  else none

def hexNumber (n : Nat) : Scan Nat := do
  let digits := (← get).rest.take n
  Scan.require (digits.length == n)
  Scan.skip n
  StateT.lift (digits.foldlM (fun high c => (hexDigit? c).map (high * 16 + ·)) 0)

def anchorName : Scan (List Char) := do
  let name ← Scan.takeWhile isWordChar
  let ends := (← get).rest.head?.all fun c => isGap c || "?:,]\x7d%@\x60".toList.contains c
  Scan.require (!name.isEmpty && ends)
  return name

def bytesOwed? (b : Nat) : Option Nat :=
  if b < 0x80 then some 0
  else if 0xC0 ≤ b ∧ b < 0xE0 then some 1
  else if 0xE0 ≤ b ∧ b < 0xF0 then some 2
  else if 0xF0 ≤ b ∧ b < 0xF8 then some 3
  else none

/-- A byte written as a percent sign and two digits. -/
def escapedByte : Scan Nat := do
  Scan.require (← Scan.nextIs (· == '%'))
  Scan.skip 1
  hexNumber 2

/-- `n` further bytes of a character. -/
def tailBytes : Nat → Scan (List UInt8)
  | 0 => return []
  | n + 1 => do
    let b ← escapedByte
    Scan.require (0x80 ≤ b && b < 0xC0)
    return b.toUInt8 :: (← tailBytes n)

/-- The bytes of a character, all of them escaped. They need not be those of any character. -/
def escapedBytes : Scan (List UInt8) := do
  let b ← escapedByte
  let owed ← StateT.lift (bytesOwed? b)
  return b.toUInt8 :: (← tailBytes owed)

/-- The characters of a tag. Flow indicators belong to it only where `withFlow` says so. -/
def isTagChar (withFlow : Bool) (c : Char) : Bool :=
  isWordChar c || ";/?:@&=+$.!~*'()".toList.contains c || (withFlow && ",[]".toList.contains c)

def tagBytes (withFlow : Bool) : Nat → Scan (List UInt8)
  | 0 => return []
  | fuel + 1 => do
    match (← get).rest with
    | [] => return []
    | c :: _ =>
      if c = '%' then
        let bytes ← escapedBytes
        return bytes ++ (← tagBytes withFlow fuel)
      else if isTagChar withFlow c then
        Scan.skip 1
        return c.toNat.toUInt8 :: (← tagBytes withFlow fuel)
      else return []

/-- The bytes of a tag up to a zero byte. -/
def tagText (withFlow : Bool) : Scan (List UInt8) := do
  let bytes ← tagBytes withFlow ((← get).rest.length + 1)
  return bytes.takeWhile (· != 0)

def someTagText (withFlow : Bool) : Scan (List UInt8) := do
  let start := (← get).index
  let bytes ← tagText withFlow
  Scan.require (start < (← get).index)
  return bytes

/-- A handle: an exclamation mark, a word, and perhaps another mark. -/
def tagHandle : Scan (List Char) := do
  Scan.require (← Scan.nextIs (· == '!'))
  Scan.skip 1
  let word ← Scan.takeWhile isWordChar
  if ← Scan.nextIs (· == '!') then
    Scan.skip 1
    return '!' :: word ++ ['!']
  else return '!' :: word

/-- Whether a handle has its second mark. -/
def isClosedHandle (handle : List Char) : Bool :=
  1 < handle.length && handle.getLast? == some '!'

def verbatimTag : Scan Token := do
  Scan.skip 2
  let bytes ← someTagText true
  Scan.require (← Scan.nextIs (· == '>'))
  Scan.skip 1
  return .tag [] bytes

/-- A tag with a handle, or a local one. An exclamation mark alone is a tag in itself. -/
def shorthandTag : Scan Token := do
  let handle ← tagHandle
  if isClosedHandle handle then return .tag handle (← someTagText false)
  else
    let word := handle.drop 1
    let bytes ← tagText false
    match word.map (·.toNat.toUInt8) ++ bytes with
    | [] => return .tag [] ['!'.toNat.toUInt8]
    | suffix => return .tag ['!'] suffix

/-- A tag, which must be followed by a gap, or by a comma inside a flow collection. -/
def tagToken (inFlow : Bool) : Scan Token := do
  let token ← if ['!', '<'].isPrefixOf (← get).rest then verbatimTag else shorthandTag
  let c ← get
  Scan.require (c.gapAfter 0 || (inFlow && c.nextIs (· == ',')))
  return token

/-- A number of at most nine digits. -/
def versionNumber : Scan Nat := do
  let digits ← Scan.takeWhile Char.isDigit
  Scan.require (!digits.isEmpty && digits.length ≤ 9)
  return digits.foldl (fun n d => n * 10 + (d.toNat - '0'.toNat)) 0

def versionDirectiveToken : Scan Token := do
  let _ ← Scan.takeWhile isSpace
  let major ← versionNumber
  Scan.require (← Scan.nextIs (· == '.'))
  Scan.skip 1
  return .versionDirective major (← versionNumber)

def tagDirectiveToken : Scan Token := do
  let _ ← Scan.takeWhile isSpace
  let handle ← tagHandle
  Scan.require (isClosedHandle handle || handle == ['!'])
  Scan.require (← Scan.nextIs isSpace)
  let _ ← Scan.takeWhile isSpace
  let lead ← someTagText true
  Scan.require ((← get).gapAfter 0)
  return .tagDirective handle lead

/-- A directive with the rest of its line, after the percent sign. -/
def directiveToken : Scan Token := do
  let name ← Scan.takeWhile isWordChar
  Scan.require ((← get).gapAfter 0)
  let token ←
    if name = "YAML".toList then versionDirectiveToken
    else if name = "TAG".toList then tagDirectiveToken
    else failure
  Scan.finishLine
  return token

end Token

end PackageScript.Yaml
