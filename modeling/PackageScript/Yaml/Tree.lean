import PackageScript.Decimal.Shortest
/-! Document trees, and what the parts of a descriptor look for in them. -/
namespace PackageScript.Yaml

/-- A number of a document. -/
inductive Number where
  | int (value : Int)
  | float (value : Binary64)
  deriving DecidableEq, Repr

namespace Number

def text : Number → String
  | .int n => toString n
  | .float x => x.text

/-- Equality of numbers of one kind; a whole number never equals a floating-point one. -/
def same : Number → Number → Bool
  | .int m, .int n => m == n
  | .float x, .float y => x.same y
  | _, _ => false

end Number

/-- A document tree. The entries of a map keep their order. -/
inductive Tree where
  | null
  | bool (value : Bool)
  | number (value : Number)
  | text (value : String)
  | list (items : List Tree)
  | map (entries : List (Tree × Tree))
  | tagged (tag : String) (content : Tree)
  deriving Inhabited

namespace Tree

abbrev Entries := List (Tree × Tree)

mutual

/-- Equality of trees as map keys. The order of a map's entries does not count. -/
def same : Tree → Tree → Bool
  | .null, .null => true
  | .bool a, .bool b => a == b
  | .number a, .number b => a.same b
  | .text a, .text b => a == b
  | .list as, .list bs => sameItems as bs
  | .map as, .map bs => as.length == bs.length && within as bs
  | .tagged s a, .tagged t b => s == t && same a b
  | _, _ => false

def sameItems : List Tree → List Tree → Bool
  | [], [] => true
  | a :: as, b :: bs => same a b && sameItems as bs
  | _, _ => false

def within : Entries → Entries → Bool
  | [], _ => true
  | (key, value) :: rest, bs =>
    bs.any (fun b => same key b.1 && same value b.2) && within rest bs

end

/-- What a tree is, for a message about a wrong shape. -/
def shape : Tree → String
  | .null => "nothing (null)"
  | .bool _ => "a boolean"
  | .number _ => "a number"
  | .text _ => "a string"
  | .list _ => "a list"
  | .map _ => "a map"
  | .tagged .. => "a tagged value"

def scalarText? : Tree → Option String
  | .text s => some s
  | .number n => some n.text
  | .bool b => some (if b then "true" else "false")
  | _ => none

/-- The tree under its tags. -/
def untagged : Tree → Tree
  | .tagged _ content => content.untagged
  | t => t

/-- The string under any tags. -/
def string? (t : Tree) : Option String :=
  match t.untagged with
  | .text s => some s
  | _ => none

@[simp] theorem string?_text (s : String) : (text s).string? = some s := rfl

/-- The entries of the map under any tags. -/
def entries? (t : Tree) : Option Entries :=
  match t.untagged with
  | .map entries => some entries
  | _ => none

@[simp] theorem entries?_map (entries : Entries) : (map entries).entries? = some entries := rfl

/-- The value of the first entry whose key is the name itself, without a tag. -/
def lookup? (name : String) : Entries → Option Tree
  | [] => none
  | (.text key, value) :: rest => if key = name then some value else lookup? name rest
  | _ :: rest => lookup? name rest

/-- Puts a value under a key. An equal key keeps its place and takes the new value. -/
def insert (key value : Tree) : Entries → Entries
  | [] => [(key, value)]
  | (k, v) :: rest => if k.same key then (k, value) :: rest else (k, v) :: insert key value rest

mutual

/-- The texts of the scalars in nested lists, in order and without the nulls,
or the first part that is neither. -/
def leafTexts : Tree → Except Tree (List String)
  | .null => .ok []
  | .list items => leafTextsOf items
  | t =>
    match t.scalarText? with
    | some s => .ok [s]
    | none => .error t

def leafTextsOf : List Tree → Except Tree (List String)
  | [] => .ok []
  | t :: rest => do
    let first ← leafTexts t
    let more ← leafTextsOf rest
    return first ++ more

end

end Tree

end PackageScript.Yaml
