import PackageScript.Yaml.Style
/-! Document text of a tree, in block style with two spaces for each level. -/
namespace PackageScript.Yaml.Writing

def spaces (n : Nat) : List Char := List.replicate n ' '

def hex (width n : Nat) : List Char :=
  let digits := (Nat.toDigits 16 n).map Char.toUpper
  List.replicate (width - digits.length) '0' ++ digits

def escape (c : Char) : List Char :=
  if isPrintable c && !isBreak c && c != '"' && c != '\\' then [c]
  else match c.toNat with
    | 0x00 => ['\\', '0']
    | 0x07 => ['\\', 'a']
    | 0x08 => ['\\', 'b']
    | 0x09 => ['\\', 't']
    | 0x0A => ['\\', 'n']
    | 0x0B => ['\\', 'v']
    | 0x0C => ['\\', 'f']
    | 0x0D => ['\\', 'r']
    | 0x1B => ['\\', 'e']
    | 0x22 => ['\\', '"']
    | 0x5C => ['\\', '\\']
    | 0x85 => ['\\', 'N']
    | 0x2028 => ['\\', 'L']
    | 0x2029 => ['\\', 'P']
    | n =>
      if n ≤ 0xFF then ['\\', 'x'] ++ hex 2 n
      else if n ≤ 0xFFFF then ['\\', 'u'] ++ hex 4 n
      else ['\\', 'U'] ++ hex 8 n

/-- The inside of single quotes. A quote is doubled, the first line feed of a run is doubled,
and what follows a break is indented. -/
def singleBody (indent : Nat) (afterBreak : Bool) : List Char → List Char
  | [] => if afterBreak then spaces indent else []
  | c :: rest =>
    if isBreak c then
      (if !afterBreak && c == '\n' then ['\n', c] else [c]) ++ singleBody indent true rest
    else
      (if afterBreak then spaces indent else []) ++ (if c == '\'' then [c, c] else [c]) ++
        singleBody indent false rest

/-- The lines of a literal scalar. Empty lines are not indented. -/
def literalBody (indent : Nat) (afterBreak : Bool) : List Char → List Char
  | [] => []
  | c :: rest =>
    if isBreak c then c :: literalBody indent true rest
    else (if afterBreak then spaces indent else []) ++ c :: literalBody indent false rest

/-- The line above a literal scalar: an indentation mark if the text starts with a gap,
and what becomes of the breaks at its end. -/
def literalHeader (cs : List Char) : List Char :=
  let lead := if cs.head?.any fun c => c == ' ' || isBreak c then ['2'] else []
  let tail := match cs.reverse with
    | [] => ['-']
    | [c] => if isBreak c then ['+'] else ['-']
    | c :: d :: _ => if !isBreak c then ['-'] else if isBreak d then ['+'] else []
  '|' :: lead ++ tail ++ ['\n']

/-- A string; its further lines are indented. -/
def scalar (indent : Nat) (s : String) : List Char :=
  let cs := s.toList
  match Style.choose cs with
  | .plain => cs
  | .single => '\'' :: singleBody indent false cs ++ ['\'']
  | .double => '"' :: cs.flatMap escape ++ ['"']
  | .literal => literalHeader cs ++ literalBody indent true cs

def closeLine (cs : List Char) : List Char :=
  if cs.getLast?.any isBreak then cs else cs ++ ['\n']

/-- Whether a key stands on the line of its value: it has one line and at most 128 bytes. -/
def isSimpleKey (s : String) : Bool :=
  !s.toList.any isBreak && s.utf8ByteSize ≤ 128

def atom : Tree → List Char
  | .null => "null".toList
  | .list _ => "[]".toList
  | .map _ => "\x7b\x7d".toList
  | t => (t.scalarText?.getD "").toList

mutual

/-- What follows a key's colon or a tag: a collection starts on a line of its own. -/
def value (listIndent indent : Nat) : Tree → List Char
  | .text s => ' ' :: closeLine (scalar (indent + 2) s)
  | .list (t :: rest) => '\n' :: spaces listIndent ++ items listIndent (t :: rest)
  | .map (e :: rest) => '\n' :: spaces (indent + 2) ++ entries (indent + 2) (e :: rest)
  | .tagged tag content => ' ' :: tag.toList ++ value listIndent indent content
  | t => ' ' :: atom t ++ ['\n']

/-- A tree on a line already begun, in a collection with this indentation. -/
def inline (indent : Nat) : Tree → List Char
  | .text s => closeLine (scalar (indent + 2) s)
  | .list (t :: rest) => items (indent + 2) (t :: rest)
  | .map (e :: rest) => entries (indent + 2) (e :: rest)
  | .tagged tag content => tag.toList ++ value (indent + 2) indent content
  | t => atom t ++ ['\n']

/-- The items of a list. The first line is already indented. -/
def items (indent : Nat) : List Tree → List Char
  | [] => []
  | [t] => '-' :: ' ' :: inline indent t
  | t :: rest => '-' :: ' ' :: inline indent t ++ spaces indent ++ items indent rest

/-- One entry of a map. A list keeps the indentation of its key, and a key that is not simple
gets a line of its own. -/
def entry (indent : Nat) : Tree × Tree → List Char
  | (.text key, v) =>
    if isSimpleKey key then scalar (indent + 2) key ++ ':' :: value indent indent v
    else '?' :: ' ' :: closeLine (scalar (indent + 2) key) ++ spaces indent ++
      ':' :: ' ' :: inline indent v
  | (key, v) => '?' :: ' ' :: inline indent key ++ spaces indent ++ ':' :: ' ' :: inline indent v

/-- The entries of a map. The first line is already indented. -/
def entries (indent : Nat) : List (Tree × Tree) → List Char
  | [] => []
  | [e] => entry indent e
  | e :: rest => entry indent e ++ spaces indent ++ entries indent rest

end

def document : Tree → String
  | .map (e :: rest) => String.ofList (entries 0 (e :: rest))
  | .list (t :: rest) => String.ofList (items 0 (t :: rest))
  | t => String.ofList (inline 0 t)

end PackageScript.Yaml.Writing
