import PackageScript.Yaml.Alias
import PackageScript.Checked
import PackageScript.Text.Blank
/-! Document trees from text. -/
namespace PackageScript.Yaml

def Tree.ofText? (text : String) : Option Tree := do
  let tokens ← Token.ofChars? text.toList
  (← Node.ofTokens? tokens).tree?

/-- A line with nothing on it, a comment, or the mark that starts a document. -/
def isBlankLine (line : String) : Bool :=
  let line := Text.trim line
  line.isEmpty || line == "---" || line.toList.head? == some '#'

/-- The tree of a document, or the problem with the file it comes from. A document without content
is an empty map. -/
def Tree.read (text origin : String) : Checked Tree :=
  if (Text.lines text).all isBlankLine then .ok (.map [])
  else match Tree.ofText? text with
    | some .null => .ok (.map [])
    | some t => .ok t
    | none => .fail (.malformed origin Problem.unspecified)

end PackageScript.Yaml
