/-! The edit distance between two words, counted in characters. -/
namespace PackageScript.Text

/-- The distances from the empty word to each suffix of a word, longest suffix first. -/
def baseRow : List Char → List Nat
  | [] => [0]
  | _ :: rest => (rest.length + 1) :: baseRow rest

/-- From the distances of `as` to the suffixes of a word, those of `a :: as`. -/
def nextRow (a : Char) : List Char → List Nat → List Nat
  | _, [] => []
  | [], d :: _ => [d + 1]
  | _ :: _, [d] => [d + 1]
  | b :: bs, d :: e :: more =>
    let row := nextRow a bs (e :: more)
    min (min (d + 1) (row.headD 0 + 1)) (if a = b then e else e + 1) :: row

/-- The least number of insertions, deletions and replacements of one character
that turn the first word into the second. -/
def editDistance (a b : List Char) : Nat :=
  (a.foldr (fun c row => nextRow c b row) (baseRow b)).headD 0

end PackageScript.Text
