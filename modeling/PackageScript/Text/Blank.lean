/-! Blank characters, and the edges, pieces and words that they cut out of a text. -/
namespace PackageScript.Text

/-- The characters with the Unicode property White_Space. -/
def isBlank (c : Char) : Bool :=
  let n := c.toNat
  (9 ≤ n && n ≤ 13) || n == 0x20 || n == 0x85 || n == 0xA0 || n == 0x1680 ||
    (0x2000 ≤ n && n ≤ 0x200A) || n == 0x2028 || n == 0x2029 || n == 0x202F || n == 0x205F ||
    n == 0x3000

/-- The list without the elements at its end that satisfy `p`. -/
def dropEndWhile {α : Type} (p : α → Bool) : List α → List α
  | [] => []
  | a :: rest =>
    match dropEndWhile p rest with
    | [] => if p a then [] else [a]
    | b :: kept => a :: b :: kept

/-- The characters without the blank ones on either side. -/
def strip (cs : List Char) : List Char :=
  dropEndWhile isBlank (cs.dropWhile isBlank)

def trim (s : String) : String :=
  String.ofList (strip s.toList)

def trimEnd (s : String) : String :=
  String.ofList (dropEndWhile isBlank s.toList)

/-- The pieces between the characters that satisfy `p`, empty ones included.
There is always one piece more than there are such characters. -/
def pieces (p : Char → Bool) : List Char → List (List Char)
  | [] => [[]]
  | c :: rest =>
    if p c then [] :: pieces p rest
    else match pieces p rest with
      | [] => [[c]]
      | piece :: more => (c :: piece) :: more

/-- The lines of a text. A carriage return before a line feed stays in its line. -/
def lines (s : String) : List String :=
  (pieces (· == '\n') s.toList).map String.ofList

/-- The words of a text: its maximal runs of characters that are not blank. -/
def words (s : String) : List String :=
  ((pieces isBlank s.toList).filter (!·.isEmpty)).map String.ofList

/-- The two sides of the first character that satisfies `p`. -/
def splitFirst? (p : Char → Bool) (cs : List Char) : Option (List Char × List Char) :=
  match cs.dropWhile (fun c => !p c) with
  | [] => none
  | _ :: after => some (cs.takeWhile (fun c => !p c), after)

def joinWith (separator : String) : List String → String
  | [] => ""
  | [s] => s
  | s :: t :: rest => s ++ separator ++ joinWith separator (t :: rest)

/-- Whether the first list occurs in the second one as a run. -/
def occursIn (needle : List Char) : List Char → Bool
  | [] => needle.isEmpty
  | c :: rest => needle.isPrefixOf (c :: rest) || occursIn needle rest

/-- What follows the lead, where the text starts with it. -/
def dropLead? (lead s : String) : Option String :=
  if lead.toList.isPrefixOf s.toList then some (String.ofList (s.toList.drop lead.toList.length))
  else none

/-- What precedes the tail, where the text ends with it. -/
def dropTail? (tail s : String) : Option String :=
  if tail.toList.isSuffixOf s.toList then
    some (String.ofList (s.toList.take (s.toList.length - tail.toList.length)))
  else none

end PackageScript.Text
