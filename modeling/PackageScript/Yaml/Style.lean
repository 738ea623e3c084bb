import PackageScript.Yaml.Character
import PackageScript.Yaml.Scalar
/-! The four ways to write a string, and which of them a string gets. -/
namespace PackageScript.Yaml

inductive Style where
  | plain
  | single
  | double
  | literal
  deriving DecidableEq, Repr

namespace Style

/-- Whether two neighbours satisfy the two tests, in this order. -/
def hasNeighbours (p q : Char → Bool) : List Char → Bool
  | a :: b :: rest => (p a && q b) || hasNeighbours p q (b :: rest)
  | _ => false

def isLeadIndicator (c : Char) : Bool :=
  "#,[]\x7b\x7d&*!|>'\"%@\x60".toList.contains c

/-- Whether a gap or the end of the text follows. -/
def gapAhead : List Char → Bool
  | [] => true
  | c :: _ => isGap c

/-- A colon before a gap or the end, or a number sign after a gap. -/
def hasInnerIndicator : List Char → Bool
  | [] => false
  | c :: rest =>
    (c == ':' && gapAhead rest) || (isGap c && rest.head? == some '#') || hasInnerIndicator rest

/-- Whether the text would read as something else without quotes, or not to its end. -/
def hasIndicator (cs : List Char) : Bool :=
  ['-', '-', '-'].isPrefixOf cs || ['.', '.', '.'].isPrefixOf cs || hasInnerIndicator cs ||
    match cs with
    | [] => false
    | c :: rest => isLeadIndicator c || ("?:-".toList.contains c && gapAhead rest)

/-- A character that needs an escape, or a blank before a break. Only double quotes keep them. -/
def needsEscapes (cs : List Char) : Bool :=
  cs.any (!isPrintable ·) || hasNeighbours (· == ' ') isBreak cs

def allowsPlain (cs : List Char) : Bool :=
  let atEdge (c : Option Char) : Bool := c.any fun c => c == ' ' || isBreak c
  !atEdge cs.head? && !atEdge cs.getLast? && !cs.any isBreak && !needsEscapes cs &&
    !hasIndicator cs

def allowsSingle (cs : List Char) : Bool :=
  !needsEscapes cs && !hasNeighbours isBreak (· == ' ') cs

def allowsLiteral (cs : List Char) : Bool :=
  !needsEscapes cs && cs.getLast? != some ' '

/-- Whether a plain scalar of this text reads back as the text. -/
def readsAsText (cs : List Char) : Bool :=
  Scalar.meaning cs == .text && !Scalar.hasLeadingZero cs

/-- Literal for several lines and plain for all else, with quotes where these will not do. -/
def choose (cs : List Char) : Style :=
  if cs.contains '\n' then if allowsLiteral cs then .literal else .double
  else if readsAsText cs && allowsPlain cs then .plain
  else if allowsSingle cs then .single
  else .double

end Style

end PackageScript.Yaml
