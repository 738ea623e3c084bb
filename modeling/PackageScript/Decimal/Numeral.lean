import PackageScript.Decimal.Binary64
/-! Decimal numerals: digits with at most one point, then perhaps an exponent. -/
namespace PackageScript.Numeral

def digitValue? (base : Nat) (c : Char) : Option Nat :=
  let value? :=
    if '0' ≤ c ∧ c ≤ '9' then some (c.toNat - '0'.toNat)
    else if 'a' ≤ c ∧ c ≤ 'z' then some (c.toNat - 'a'.toNat + 10)
    else if 'A' ≤ c ∧ c ≤ 'Z' then some (c.toNat - 'A'.toNat + 10)
    else none
  value?.filter (· < base)

def isDigit (c : Char) : Bool :=
  '0' ≤ c && c ≤ '9'

/-- The number that follows `high` when the digits are read on. -/
def natFrom? (base : Nat) (high : Nat) : List Char → Option Nat
  | [] => some high
  | c :: rest =>
    match digitValue? base c with
    | some d => natFrom? base (high * base + d) rest
    | none => none

def nat? (base : Nat) : List Char → Option Nat
  | [] => none
  | cs => natFrom? base 0 cs

def exponent? : List Char → Option Int
  | '+' :: cs => (nat? 10 cs).map Int.ofNat
  | '-' :: cs => (nat? 10 cs).map (fun n => -(n : Int))
  | cs => (nat? 10 cs).map Int.ofNat

def unsigned? (negative : Bool) (cs : List Char) : Option Binary64 :=
  let whole := cs.takeWhile isDigit
  let rest := cs.dropWhile isDigit
  let (fraction, rest) := match rest with
    | '.' :: r => (r.takeWhile isDigit, r.dropWhile isDigit)
    | r => ([], r)
  let exponent := match rest with
    | [] => some 0
    | 'e' :: r => exponent? r
    | 'E' :: r => exponent? r
    | _ => none
  match nat? 10 (whole ++ fraction), exponent with
  | some n, some e => some (.ofDecimal negative n (e - fraction.length))
  | _, _ => none

def binary64? : List Char → Option Binary64
  | '+' :: cs => unsigned? false cs
  | '-' :: cs => unsigned? true cs
  | cs => unsigned? false cs

end PackageScript.Numeral
