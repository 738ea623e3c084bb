import PackageScript.Decimal.Binary64
/-! The shortest decimal that reads back as a given number, and its text. -/
namespace PackageScript.Binary64

/-- A number `m * 2 ^ e` with the ends of the interval that rounds to it, as multiples of
`unit = 2 ^ (e - 2)`. The ends belong to the interval when `m` is even. -/
structure Interval where
  low : Nat
  value : Nat
  high : Nat
  closed : Bool
  unit : Int

/-- The interval of a positive number. Below a power of two the neighbour is half as far. -/
def interval (m : Nat) (e : Int) : Interval where
  low := if m = 1 <<< 52 ∧ -1074 < e then 4 * m - 1 else 4 * m - 2
  value := 4 * m
  high := 4 * m + 2
  closed := m % 2 == 0
  unit := e - 2

/-- `k * 10 ^ p` compared with `n * 2 ^ u`, as two whole numbers in that order. -/
def common (k : Nat) (p : Int) (n : Nat) (u : Int) : Nat × Nat :=
  let a := (k * Nat.pow 10 p.toNat) <<< (-u).toNat
  let b := (n * Nat.pow 10 (-p).toNat) <<< u.toNat
  (a, b)

def Interval.holds (i : Interval) (k : Nat) (p : Int) : Bool :=
  let (a, low) := common k p i.low i.unit
  let (b, high) := common k p i.high i.unit
  if i.closed then low ≤ a && b ≤ high else low < a && b < high

/-- The multiple of `10 ^ p` in the interval that is nearest to its value, if there is one.
It is one of the value's two neighbours; of two equally near ones the even one is taken. -/
def Interval.nearest? (i : Interval) (p : Int) : Option Nat :=
  let (step, value) := common 1 p i.value i.unit
  let below := value / step
  let rest := value % step
  match i.holds below p, i.holds (below + 1) p with
  | true, true =>
    if 2 * rest < step then some below
    else if step < 2 * rest then some (below + 1)
    else if below % 2 = 0 then some below else some (below + 1)
  | true, false => some below
  | false, true => some (below + 1)
  | false, false => none

/-- The nearest multiple of the coarsest power of ten that has one in the interval,
among `10 ^ p`, `10 ^ (p - 1)` and so on. -/
def Interval.shortest (i : Interval) (p : Int) : Nat → Nat × Int
  | 0 => (0, 0)
  | fuel + 1 =>
    match i.nearest? p with
    | some k => (k, p)
    | none => i.shortest (p - 1) fuel

/-- The decimal `k * 10 ^ p` with the fewest digits that reads back as `m * 2 ^ e`.
Powers from `10 ^ 309` down to `10 ^ (-342)` cover all numbers. -/
def shortestDecimal (m : Nat) (e : Int) : Nat × Int :=
  (interval m e).shortest 309 652

/-- Digits times a power of ten: positional from `10 ^ (-5)` up to `10 ^ 16`, with a point in
every case, and with an exponent elsewhere. -/
def decimalText (k : Nat) (p : Int) : String :=
  let digits := Nat.toDigits 10 k
  let point := digits.length + p
  let zeros (n : Int) : List Char := List.replicate n.toNat '0'
  if 0 ≤ p ∧ point ≤ 16 then
    String.ofList (digits ++ zeros p ++ ['.', '0'])
  else if 0 < point ∧ point ≤ 16 then
    String.ofList (digits.take point.toNat ++ ['.'] ++ digits.drop point.toNat)
  else if -5 < point ∧ point ≤ 0 then
    String.ofList (['0', '.'] ++ zeros (-point) ++ digits)
  else
    let fraction := match digits.drop 1 with
      | [] => []
      | rest => '.' :: rest
    String.ofList (digits.take 1 ++ fraction ++ ['e']) ++ toString (point - 1)

def text : Binary64 → String
  | .nan => ".nan"
  | .infinite negative => if negative then "-.inf" else ".inf"
  | .finite negative 0 _ => if negative then "-0.0" else "0.0"
  | .finite negative m e =>
    let (k, p) := shortestDecimal m e
    (if negative then "-" else "") ++ decimalText k p

end PackageScript.Binary64
