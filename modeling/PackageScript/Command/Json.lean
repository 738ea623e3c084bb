import PackageScript.Text.Blank
/-! The notation of machine-readable reports: JSON, an item on a line. -/
namespace PackageScript.Command

inductive Json where
  | bool (value : Bool)
  | nat (value : Nat)
  | text (value : String)
  | list (items : List Json)
  | object (fields : List (String × Json))

namespace Json

def hexDigit (n : Nat) : Char :=
  if n < 10 then Char.ofNat ('0'.toNat + n) else Char.ofNat ('a'.toNat + (n - 10))

/-- A character of a text. Quotes, backslashes and control characters are escaped. -/
def charText (c : Char) : List Char :=
  match c with
  | '"' => ['\\', '"']
  | '\\' => ['\\', '\\']
  | '\x08' => ['\\', 'b']
  | '\t' => ['\\', 't']
  | '\n' => ['\\', 'n']
  | '\x0c' => ['\\', 'f']
  | '\r' => ['\\', 'r']
  | c =>
    if c.toNat < 0x20 then
      ['\\', 'u', '0', '0', hexDigit (c.toNat / 16), hexDigit (c.toNat % 16)]
    else [c]

def quoted (s : String) : String :=
  "\"" ++ String.ofList (s.toList.flatMap charText) ++ "\""

def enclosed (opening closing margin : String) : List String → String
  | [] => opening ++ closing
  | items =>
    opening ++ "\n  " ++ margin ++ Text.joinWith (",\n  " ++ margin) items ++ "\n" ++ margin ++
      closing

mutual

/-- The text of a value whose lines but the first start with a margin. -/
def render (margin : String) : Json → String
  | .bool b => if b then "true" else "false"
  | .nat n => toString n
  | .text s => quoted s
  | .list items => enclosed "[" "]" margin (renderItems ("  " ++ margin) items)
  | .object fields => enclosed "\x7b" "\x7d" margin (renderFields ("  " ++ margin) fields)

def renderItems (margin : String) : List Json → List String
  | [] => []
  | item :: rest => render margin item :: renderItems margin rest

def renderFields (margin : String) : List (String × Json) → List String
  | [] => []
  | (name, value) :: rest =>
    (quoted name ++ ": " ++ render margin value) :: renderFields margin rest

end

end Json

end PackageScript.Command
