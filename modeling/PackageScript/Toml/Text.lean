import PackageScript.Decimal.Numeral
/-! Texts in quotes, and keys, in the notation of TOML 1.1. -/
namespace PackageScript.Toml

def isSpace (c : Char) : Bool :=
  c == ' ' || c == '\t'

/-- Whether a character may stand for itself in a comment or a text. -/
def isPrintable (c : Char) : Bool :=
  c == '\t' || (' ' ≤ c && c != '\x7f')

def isBareKey (c : Char) : Bool :=
  c.isAlphanum || c == '_' || c == '-'

/-- What follows the line break here, if one is here. -/
def afterBreak? : List Char → Option (List Char)
  | '\n' :: rest => some rest
  | '\r' :: '\n' :: rest => some rest
  | _ => none

/-- Where the reader of a text stands: at a character, after a backslash, before the last digits of
a code, or after a backslash that hides the blanks up to the next character. -/
inductive Place where
  | inside
  | escape
  | code (more value : Nat)
  | folding (hasBreak : Bool)

namespace Place

def isBlank (c : Char) : Bool :=
  isSpace c || c == '\n' || c == '\r'

/-- The place before a character. Hidden blanks end with the first other character. -/
def before (c : Char) : Place → Place
  | .folding true => if isBlank c then .folding true else .inside
  | place => place

end Place

def letterEscape? : Char → Option Char
  | 'b' => some '\x08'
  | 't' => some '\t'
  | 'n' => some '\n'
  | 'f' => some '\x0c'
  | 'r' => some '\r'
  | 'e' => some '\x1b'
  | '"' => some '"'
  | '\\' => some '\\'
  | _ => none

/-- The end of a text of several lines, which may have up to two quotes right before it. -/
def closing? (quote : Char) : List Char → Option (List Char × List Char)
  | a :: b :: c :: d :: e :: rest =>
    if [a, b, c, d, e].all (· == quote) then some ([quote, quote], rest)
    else if [a, b, c, d].all (· == quote) then some ([quote], e :: rest)
    else if [a, b, c].all (· == quote) then some ([], d :: e :: rest)
    else none
  | [a, b, c, d] =>
    if [a, b, c, d].all (· == quote) then some ([quote], [])
    else if [a, b, c].all (· == quote) then some ([], [d])
    else none
  | [a, b, c] => if [a, b, c].all (· == quote) then some ([], []) else none
  | _ => none

/-- The text up to its closing quote, and what follows. Only double quotes admit escapes, and
only a text of several lines admits line breaks. -/
def textFrom? (quote : Char) (several : Bool) :
    Place → List Char → Option (List Char × List Char)
  | _, [] => none
  | place, c :: rest =>
    let more (taken : List Char) (next : Option (List Char × List Char)) :=
      next.map fun (text, after) => (taken ++ text, after)
    match place.before c with
    | .inside =>
      if c == quote then
        if several then
          match closing? quote (c :: rest) with
          | some ending => some ending
          | none => more [c] (textFrom? quote several .inside rest)
        else some ([], rest)
      else if c == '\\' && quote == '"' then textFrom? quote several .escape rest
      else if isPrintable c || (several && (c == '\n' || (c == '\r' && rest.head? == some '\n'))) then
        more [c] (textFrom? quote several .inside rest)
      else none
    | .escape =>
      if c == 'x' then textFrom? quote several (.code 1 0) rest
      else if c == 'u' then textFrom? quote several (.code 3 0) rest
      else if c == 'U' then textFrom? quote several (.code 7 0) rest
      else if several && (isSpace c || (afterBreak? (c :: rest)).isSome) then
        textFrom? quote several (.folding (c == '\n')) rest
      else match letterEscape? c with
        | some char => more [char] (textFrom? quote several .inside rest)
        | none => none
    | .code left value =>
      match Numeral.digitValue? 16 c, left with
      | some digit, 0 =>
        let value := value * 16 + digit
        if value.isValidChar then
          more [Char.ofNat value] (textFrom? quote several .inside rest)
        else none
      | some digit, left + 1 =>
        textFrom? quote several (.code left (value * 16 + digit)) rest
      | none, _ => none
    | .folding hasBreak =>
      if isSpace c then textFrom? quote several (.folding hasBreak) rest
      else if (afterBreak? (c :: rest)).isSome then
        textFrom? quote several (.folding (hasBreak || c == '\n')) rest
      else none

/-- The text in quotes here, and what follows. -/
def text? : List Char → Option (List Char × List Char)
  | '"' :: '"' :: '"' :: rest => textFrom? '"' true .inside ((afterBreak? rest).getD rest)
  | '\'' :: '\'' :: '\'' :: rest => textFrom? '\'' true .inside ((afterBreak? rest).getD rest)
  | '"' :: rest => textFrom? '"' false .inside rest
  | '\'' :: rest => textFrom? '\'' false .inside rest
  | _ => none

/-- The key here, bare or in quotes, and what follows. -/
def key? : List Char → Option (List Char × List Char)
  | '"' :: rest => textFrom? '"' false .inside rest
  | '\'' :: rest => textFrom? '\'' false .inside rest
  | cs => if (cs.takeWhile isBareKey).isEmpty then none
    else some (cs.takeWhile isBareKey, cs.dropWhile isBareKey)

end PackageScript.Toml
