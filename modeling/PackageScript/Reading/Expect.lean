import PackageScript.Checked
import PackageScript.Yaml.Tree
import PackageScript.Text.Blank
import PackageScript.Text.Distance
/-! The shapes that a descriptor expects of the parts of its tree. -/
namespace PackageScript.Reading
open Yaml

def misshapen (path expected : String) (t : Tree) : Problem :=
  .wrongShape path expected t.shape

/-- The text of a key, under any tags. -/
def keyText (path : String) (key : Tree) : Checked String :=
  .ofOption (misshapen path "string keys" key) key.string?

def stringOrStrings : String := "a string or a list of strings"

def scalarTexts (path : String) : List Tree → Checked (List String)
  | [] => .ok []
  | item :: rest => do
    let first ← .ofOption (misshapen path stringOrStrings item) item.scalarText?
    let more ← scalarTexts path rest
    return first :: more

/-- A scalar or a list of scalars. Nothing counts as an empty list. -/
def oneOrMore (path : String) : Tree → Checked (List String)
  | .null => .ok []
  | .list items => scalarTexts path items
  | t => do
    let text ← .ofOption (misshapen path stringOrStrings t) t.scalarText?
    return [text]

/-- A list of scalars. Nothing counts as an empty list; a lone scalar is refused. -/
def strings (path : String) : Tree → Checked (List String)
  | .null => .ok []
  | .list items => scalarTexts path items
  | t => .fail (misshapen path "a list of strings" t)

def singleEntry (path : String) : Tree → Checked (Tree × Tree)
  | .map [entry] => .ok entry
  | .map [] => .fail (.wrongShape path "a single-key map" "a map with 0 keys")
  | .map entries =>
    .fail (.wrongShape path "a single-key map" ("a map with " ++ toString entries.length ++ " keys"))
  | t => .fail (misshapen path "a single-key map" t)

def leaves (path expected : String) (t : Tree) : Checked (List String) :=
  match t.leafTexts with
  | .ok texts => .ok texts
  | .error part => .fail (misshapen path expected part)

/-- The first of the candidates with the least distance. -/
def firstNearest : List (String × Nat) → Option (String × Nat)
  | [] => none
  | candidate :: rest =>
    match firstNearest rest with
    | some best => if best.2 < candidate.2 then some best else some candidate
    | none => some candidate

/-- The known name nearest to a word, if its distance in characters is at most half the number
of bytes of the word. -/
def nearestName? (word : String) (known : List String) : Option String :=
  let candidates := known.map fun name => (name, Text.editDistance word.toList name.toList)
  (firstNearest (candidates.filter (·.2 ≤ word.utf8ByteSize / 2))).map (·.1)

def unknownName (what word : String) (known : List String) : String :=
  "unknown " ++ what ++ " '" ++ word ++
    match nearestName? word known with
    | some name => "' (did you mean '" ++ name ++ "'?)"
    | none => "' (expected one of: " ++ Text.joinWith ", " known ++ ")"

end PackageScript.Reading
