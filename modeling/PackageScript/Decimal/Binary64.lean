/-! Binary floating-point numbers of 64 bits, and rounding a decimal to the nearest one. -/
namespace PackageScript

/-- A finite number is `significand * 2 ^ exponent`, with a significand below `2 ^ 53` and an
exponent of at least `-1074`; it is at least `2 ^ 52` unless the exponent is `-1074`. -/
inductive Binary64 where
  | finite (negative : Bool) (significand : Nat) (exponent : Int)
  | infinite (negative : Bool)
  | nan
  deriving DecidableEq, Repr, Inhabited

namespace Binary64

/-- Equality of numbers: both zeros are one number, and all that is not a number is one thing. -/
def same : Binary64 → Binary64 → Bool
  | .finite _ 0 _, .finite _ 0 _ => true
  | x, y => x == y

def isFinite : Binary64 → Bool
  | .finite .. => true
  | _ => false

/-- The whole number nearest to a quotient. A half goes to the even neighbour. -/
def roundDiv (num den : Nat) : Nat :=
  let low := num / den
  let rest := num % den
  if 2 * rest < den then low
  else if den < 2 * rest then low + 1
  else if low % 2 = 0 then low else low + 1

/-- `num / den * 2 ^ (-e)` as a fraction. -/
def scaleDown (num den : Nat) (e : Int) : Nat × Nat :=
  if e < 0 then (num <<< e.natAbs, den) else (num, den <<< e.natAbs)

/-- The greatest `e` with `2 ^ e ≤ num / den`. -/
def log2Floor (num den : Nat) : Int :=
  let guess : Int := (Nat.log2 num : Int) - (Nat.log2 den : Int)
  let (n, d) := scaleDown num den guess
  if n < d then guess - 1 else guess

/-- The number nearest to a positive quotient; infinite where it would need a larger exponent. -/
def ofRatio (negative : Bool) (num den : Nat) : Binary64 :=
  let e := max (log2Floor num den - 52) (-1074)
  let (n, d) := scaleDown num den e
  let m := roundDiv n d
  let (m, e) := if m = 1 <<< 53 then (1 <<< 52, e + 1) else (m, e)
  if 971 < e then .infinite negative else .finite negative m e

/-- The number nearest to `coefficient * 10 ^ exponent`. A value of at least `10 ^ 310` is beyond
the greatest number, one below `10 ^ (-330)` nearer to zero than to the least. -/
def ofDecimal (negative : Bool) (coefficient : Nat) (exponent : Int) : Binary64 :=
  let size : Int := exponent + (Nat.toDigits 10 coefficient).length
  if coefficient = 0 ∨ size < -330 then .finite negative 0 (-1074)
  else if 311 < size then .infinite negative
  else if exponent < 0 then ofRatio negative coefficient (Nat.pow 10 exponent.natAbs)
  else ofRatio negative (coefficient * Nat.pow 10 exponent.natAbs) 1

end Binary64

end PackageScript
