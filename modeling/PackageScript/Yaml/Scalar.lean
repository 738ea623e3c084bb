import PackageScript.Yaml.Tree
import PackageScript.Decimal.Numeral
/-! What an unquoted scalar stands for. -/
namespace PackageScript.Yaml.Scalar

def isNull (cs : List Char) : Bool :=
  ["~", "null", "Null", "NULL"].contains (String.ofList cs)

def bool? (cs : List Char) : Option Bool :=
  let s := String.ofList cs
  if ["true", "True", "TRUE"].contains s then some true
  else if ["false", "False", "FALSE"].contains s then some false
  else none

def unsigned : List Char → List Char
  | '+' :: cs => cs
  | '-' :: cs => cs
  | cs => cs

/-- Digits with a needless zero in front, after an optional sign. They are no number. -/
def hasLeadingZero (cs : List Char) : Bool :=
  match unsigned cs with
  | '0' :: c :: rest => (c :: rest).all Numeral.isDigit
  | _ => false

/-- The digits of a whole number without its sign, in base 16, 8, 2 or 10. -/
def magnitude? : List Char → Option Nat
  | '0' :: 'x' :: cs => Numeral.nat? 16 cs
  | '0' :: 'o' :: cs => Numeral.nat? 8 cs
  | '0' :: 'b' :: cs => Numeral.nat? 2 cs
  | cs => Numeral.nat? 10 cs

def int? (cs : List Char) : Option Int :=
  if hasLeadingZero cs then none
  else match cs with
    | '-' :: rest => ((magnitude? rest).filter (· ≤ 1 <<< 127)).map fun n => -(n : Int)
    | '+' :: rest => ((magnitude? rest).filter (· < 1 <<< 128)).map Int.ofNat
    | rest => ((magnitude? rest).filter (· < 1 <<< 128)).map Int.ofNat

/-- Whether a whole number fits in 64 bits, with or without a sign. -/
def fits (n : Int) : Bool :=
  -Int.ofNat (1 <<< 63) ≤ n && n < Int.ofNat (1 <<< 64)

/-- A number with a point or an exponent, or one of the names of the infinite ones and of what is
no number. Numerals beyond the greatest number are no numbers. -/
def float? (cs : List Char) : Option Binary64 :=
  let s := String.ofList cs
  if [".inf", ".Inf", ".INF", "+.inf", "+.Inf", "+.INF"].contains s then some (.infinite false)
  else if ["-.inf", "-.Inf", "-.INF"].contains s then some (.infinite true)
  else if [".nan", ".NaN", ".NAN"].contains s then some .nan
  else (Numeral.binary64? cs).filter Binary64.isFinite

/-- What a plain scalar can stand for. Whole numbers may be too large for a tree. -/
inductive Meaning where
  | null
  | bool (value : Bool)
  | int (value : Int)
  | float (value : Binary64)
  | text
  deriving DecidableEq, Repr

/-- What a plain scalar stands for. -/
def meaning (cs : List Char) : Meaning :=
  if cs.isEmpty || isNull cs then .null
  else match bool? cs, int? cs with
    | some b, _ => .bool b
    | none, some n => .int n
    | none, none =>
      if hasLeadingZero cs then .text
      else match float? cs with
        | some x => .float x
        | none => .text

def intTree? (n : Int) : Option Tree :=
  if fits n then some (.number (.int n)) else none

def plainTree? (s : String) : Option Tree :=
  match meaning s.toList with
  | .null => some .null
  | .bool b => some (.bool b)
  | .int n => intTree? n
  | .float x => some (.number (.float x))
  | .text => some (.text s)

end PackageScript.Yaml.Scalar
