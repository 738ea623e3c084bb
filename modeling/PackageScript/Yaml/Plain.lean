import PackageScript.Yaml.Token
/-! Scalars without quotes. -/
namespace PackageScript.Yaml.Plain

def isFlowIndicator (c : Char) : Bool :=
  ",[]\x7b\x7d".toList.contains c

/-- The characters up to a gap or to what ends a plain scalar. Inside a flow collection a colon
must not touch an indicator. -/
def word? (inFlow : Bool) : List Char → Option (List Char)
  | [] => some []
  | c :: rest =>
    if isGap c then some []
    else if inFlow && c == ':' && rest.head?.any (fun d => d == '?' || isFlowIndicator d) then none
    else if (c == ':' && rest.head?.all isGap) || (inFlow && isFlowIndicator c) then some []
    else (word? inFlow rest).map (c :: ·)

/-- A plain scalar from a word on, after the text of a gap, and whether the last gap has a break.
A gap is kept only if a word follows it in the same scalar; `indent` is the least column of a
further line outside flow collections. -/
def scanFrom (inFlow : Bool) (indent : Nat) : Nat → Gap → Scan (List Char × Bool)
  | 0, gap => return ([], gap.hasBreak)
  | fuel + 1, gap => do
    let c ← get
    if c.atDocumentMark || c.nextIs (· == '#') then return ([], gap.hasBreak)
    match ← StateT.lift (word? inFlow c.rest) with
    | [] => return ([], gap.hasBreak)
    | word =>
      Scan.skip word.length
      if !(← Scan.nextIs isGap) then return (gap.text ++ word, false)
      let next ← Gap.read indent
      if !inFlow && (← get).column < indent then return (gap.text ++ word, next.hasBreak)
      let (more, broken) ← scanFrom inFlow indent fuel next
      return (gap.text ++ word ++ more, broken)

def scan (inFlow : Bool) (indent : Nat) : Scan (List Char × Bool) := do
  scanFrom inFlow indent ((← get).rest.length + 1) (.spaces [])

end PackageScript.Yaml.Plain
