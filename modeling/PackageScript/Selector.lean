import PackageScript.Text.Blank
/-! Selectors: which tags must be active for a binding to apply. -/
namespace PackageScript

/-- The fallback, or a conjunction of tags. -/
inductive Selector where
  | fallback
  | all (tags : List String)
  deriving DecidableEq, Repr

namespace Selector

def fallbackName : String := "default"

/-- Puts a tag in its place in an ascending list that has each tag once. -/
def insertTag (tag : String) : List String → List String
  | [] => [tag]
  | t :: rest =>
    if tag < t then tag :: t :: rest
    else if tag = t then t :: rest
    else t :: insertTag tag rest

def ascending (tags : List String) : List String :=
  tags.foldr insertTag []

/-- The conjunction of the tags; without a tag, the fallback. -/
def ofTags (tags : List String) : Selector :=
  match ascending tags with
  | [] => .fallback
  | sorted => .all sorted

/-- The tags between the ampersands, trimmed and without the empty ones. -/
def tagsOf (source : String) : List String :=
  ((Text.pieces (· == '&') (Text.strip source.toList)).map Text.strip).filter (!·.isEmpty)
    |>.map String.ofList

def parse (source : String) : Selector :=
  if Text.trim source = fallbackName then .fallback else ofTags (tagsOf source)

def isFallback : Selector → Bool
  | .fallback => true
  | .all _ => false

def source : Selector → String
  | .fallback => fallbackName
  | .all tags => Text.joinWith " & " tags

def compact : Selector → String
  | .fallback => fallbackName
  | .all tags => Text.joinWith "&" tags

def compareTexts : List String → List String → Ordering
  | [], [] => .eq
  | [], _ :: _ => .lt
  | _ :: _, [] => .gt
  | a :: as, b :: bs => if a < b then .lt else if a = b then compareTexts as bs else .gt

/-- The fallback comes first; conjunctions follow in the order of their tag lists. -/
def compare : Selector → Selector → Ordering
  | .fallback, .fallback => .eq
  | .fallback, .all _ => .lt
  | .all _, .fallback => .gt
  | .all as, .all bs => compareTexts as bs

end Selector

end PackageScript
