import PackageScript.Yaml.Node
/-! Aliases: the slots that anchors fill, and the trees that stand where aliases were. -/
namespace PackageScript.Yaml.Node

abbrev Numbered := Node Nat

/-- The names bound so far, each with its present slot. -/
abbrev Names := List (List Char × Nat)

/-- Binds a name to a slot. A name that is bound already moves to the new slot. -/
def bindName (name : List Char) (slot : Nat) : Names → Names
  | [] => [(name, slot)]
  | (n, s) :: rest => if n = name then (n, slot) :: rest else (n, s) :: bindName name slot rest

/-- The nodes that fill slots, in the order of their anchors. -/
abbrev Slots := List (Nat × Numbered)

mutual

/-- Numbers the labels of a node. The slot of an anchor is the number of names bound before it, so
a name that is bound again can leave its slot to the next new one. An alias must be bound. -/
def number : Named → Names → Option (Numbered × Slots × Names)
  | .scalar tag text isPlain, names => some (.scalar tag text isPlain, [], names)
  | .list tag items, names => do
    let (items, slots, names) ← numberItems items names
    return (.list tag items, slots, names)
  | .map tag entries, names => do
    let (entries, slots, names) ← numberEntries entries names
    return (.map tag entries, slots, names)
  | .anchored name node, names => do
    let slot := names.length
    let (node, slots, names) ← number node (bindName name slot names)
    return (.anchored slot node, (slot, node) :: slots, names)
  | .alias name, names => do
    return (.alias (← names.lookup name), [], names)

def numberItems : List Named → Names → Option (List Numbered × Slots × Names)
  | [], names => some ([], [], names)
  | node :: rest, names => do
    let (node, first, names) ← number node names
    let (rest, more, names) ← numberItems rest names
    return (node :: rest, first ++ more, names)

def numberEntries : List (Named × Named) → Names →
    Option (List (Numbered × Numbered) × Slots × Names)
  | [], names => some ([], [], names)
  | (key, value) :: rest, names => do
    let (key, first, names) ← number key names
    let (value, second, names) ← number value names
    let (rest, more, names) ← numberEntries rest names
    return ((key, value) :: rest, first ++ second ++ more, names)

end

mutual

/-- The number of scalars, aliases, and starts and ends of collections in a node. -/
def weight {Label : Type} : Node Label → Nat
  | .scalar .. => 1
  | .list _ items => 2 + weightOfItems items
  | .map _ entries => 2 + weightOfEntries entries
  | .anchored _ node => weight node
  | .alias _ => 1

def weightOfItems {Label : Type} : List (Node Label) → Nat
  | [] => 0
  | node :: rest => weight node + weightOfItems rest

def weightOfEntries {Label : Type} : List (Node Label × Node Label) → Nat
  | [] => 0
  | (key, value) :: rest => weight key + weight value + weightOfEntries rest

end

def maxDepth : Nat := 128

/-- The node under its anchor, or the last one that fills an alias's slot. Each alias takes one
from the number of those that may be followed. -/
def follow (slots : Slots) : Numbered → StateT Nat Option Numbered
  | .alias slot => do
    match ← get, (slots.filter (·.1 = slot)).getLast? with
    | left + 1, some (_, node) =>
      set left
      return node
    | _, _ => failure
  | .anchored _ node => return node
  | node => return node

/-- The entries of a map, whose keys must differ. -/
def distinctEntries? (es : Tree.Entries) : List (Tree × Tree) → Option Tree.Entries
  | [] => some es
  | (key, value) :: rest =>
    if es.any (fun e => e.1.same key) then none else distinctEntries? (es ++ [(key, value)]) rest

/-- The tree of a node with at most `depth` nested collections, its aliases replaced. -/
def expand (slots : Slots) : Nat → Numbered → StateT Nat Option Tree
  | depth, node => do
    match ← follow slots node with
    | .scalar tag text isPlain => StateT.lift (Tag.scalarTree? tag text isPlain)
    | .list tag items =>
      match depth with
      | 0 => failure
      | depth + 1 =>
        return Tag.collectionTree tag (.list (← items.mapM (expand slots depth)))
    | .map tag entries =>
      match depth with
      | 0 => failure
      | depth + 1 =>
        let es ← entries.mapM fun (key, value) => do
          return (← expand slots depth key, ← expand slots depth value)
        return Tag.collectionTree tag (.map (← StateT.lift (distinctEntries? [] es)))
    | _ => failure

/-- The tree of a node. Aliases may be followed a hundred times for each part of the document. -/
def tree? (node : Named) : Option Tree := do
  let (numbered, slots, _) ← number node []
  let (tree, _) ← (expand slots maxDepth numbered).run (100 * node.weight)
  return tree

end PackageScript.Yaml.Node
