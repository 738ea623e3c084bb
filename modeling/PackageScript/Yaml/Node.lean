import PackageScript.Yaml.Layout
import PackageScript.Yaml.Tag
/-! The nodes of a document, with anchors and aliases in place. -/
namespace PackageScript.Yaml

/-- A node. Labels name anchors and aliases. -/
inductive Node (Label : Type) where
  | scalar (tag : Option Tag) (text : List Char) (isPlain : Bool)
  | list (tag : Option Tag) (items : List (Node Label))
  | map (tag : Option Tag) (entries : List (Node Label × Node Label))
  | anchored (label : Label) (node : Node Label)
  | alias (label : Label)

namespace Node

/-- Nodes as they are read, with names for labels. -/
abbrev Named := Node (List Char)

/-- The handles of tags and what stands for them. -/
abbrev Handles := List (List Char × List UInt8)

def asciiBytes (s : String) : List UInt8 :=
  s.toList.map (·.toNat.toUInt8)

/-- The handles that need no directive. -/
def standardHandles : Handles :=
  [(['!'], asciiBytes "!"), (['!', '!'], asciiBytes "tag:yaml.org,2002:")]

/-- A node that is left out. -/
def absent : Named :=
  .scalar none [] true

structure Properties where
  anchor : Option (List Char) := none
  tag : Option (List UInt8) := none

def Properties.isEmpty (p : Properties) : Bool :=
  p.anchor.isNone && p.tag.isNone

def Properties.tagMeaning (p : Properties) : Option Tag :=
  p.tag.bind Tag.ofBytes?

def Properties.attach (p : Properties) (node : Named) : Named :=
  match p.anchor with
  | some name => .anchored name node
  | none => node

/-- A step that reads on from a token, or refuses it. -/
abbrev Parse := StateT (List Token) Option

namespace Parse

def nextIs (p : Token → Bool) : Parse Bool :=
  return (← get).head?.any p

def advance : Parse Unit :=
  modify (·.drop 1)

def pass (token : Token) : Parse Bool := do
  let found ← nextIs (· = token)
  if found then advance
  return found

def expect (token : Token) : Parse Unit := do
  if !(← pass token) then failure

def anchor? : Parse (Option (List Char)) := do
  match (← get).head? with
  | some (.anchor name) =>
    advance
    return some name
  | _ => return none

/-- A tag's bytes, if a tag is here. Its handle must be known; without one it is complete. -/
def tag? (handles : Handles) : Parse (Option (List UInt8)) := do
  match (← get).head? with
  | some (.tag handle suffix) =>
    advance
    if handle.isEmpty then return some suffix
    match handles.lookup handle with
    | some lead => return some (lead ++ suffix)
    | none => failure
  | _ => return none

/-- An anchor and a tag, in either order, each of which may be missing. -/
def properties (handles : Handles) : Parse Properties := do
  let anchor ← anchor?
  let tag ← tag? handles
  let anchor ← if anchor.isNone then anchor? else pure anchor
  return { anchor, tag }

end Parse

/-- The places of a node: inside a flow collection, as an item of a block list,
or as a key or value of a block map, where a list needs no indentation. -/
inductive Place where
  | flow
  | item
  | entry
  deriving DecidableEq

/-- The tokens that stand where an item of a block list is left out. -/
def endsItem (t : Token) : Bool := t = .item || t = .blockEnd

/-- The tokens that stand where an item of a list without indentation is left out. -/
def endsOpenItem (t : Token) : Bool := t = .item || t = .key || t = .value || t = .blockEnd

/-- The tokens that stand where a part of an entry of a block map is left out. -/
def endsEntry (t : Token) : Bool := t = .key || t = .value || t = .blockEnd

/-- The tokens that stand where a value inside a flow list is left out. -/
def endsFlowItem (t : Token) : Bool := t = .separator || t = .listEnd

/-- The tokens that stand where a value inside a flow map is left out. -/
def endsFlowEntry (t : Token) : Bool := t = .separator || t = .mapEnd

mutual

def node (handles : Handles) (place : Place) : Nat → Parse Named
  | 0 => failure
  | fuel + 1 => do
    if let some (.alias name) := (← get).head? then
      Parse.advance
      return .alias name
    let p ← Parse.properties handles
    let tag := p.tagMeaning
    match (← get).head? with
    | some (.scalar text isPlain) =>
      Parse.advance
      return p.attach (.scalar tag text isPlain)
    | some .listStart =>
      Parse.advance
      return p.attach (.list tag (← flowItems handles true fuel))
    | some .mapStart =>
      Parse.advance
      return p.attach (.map tag (← flowEntries handles true fuel))
    | next =>
      if next = some .blockList ∧ place ≠ .flow then
        Parse.advance
        return p.attach (.list tag (← blockItems handles fuel))
      else if next = some .blockMap ∧ place ≠ .flow then
        Parse.advance
        return p.attach (.map tag (← blockEntries handles fuel))
      else if next = some .item ∧ place = .entry then
        return p.attach (.list tag (← openItems handles fuel))
      else if p.isEmpty then failure
      else return p.attach (.scalar tag [] true)

/-- A node, which is absent where a token comes that cannot start it. -/
def nodeUnless (handles : Handles) (place : Place) (ends : Token → Bool) : Nat → Parse Named
  | 0 => failure
  | fuel + 1 => do
    if ← Parse.nextIs ends then return absent
    node handles place fuel

def value (handles : Handles) (place : Place) (ends : Token → Bool) : Nat → Parse Named
  | 0 => failure
  | fuel + 1 => do
    if ← Parse.pass .value then nodeUnless handles place ends fuel
    else return absent

def blockItems (handles : Handles) : Nat → Parse (List Named)
  | 0 => failure
  | fuel + 1 => do
    if ← Parse.pass .blockEnd then return []
    Parse.expect .item
    let first ← nodeUnless handles .item endsItem fuel
    return first :: (← blockItems handles fuel)

/-- The items of a block list that has the indentation of the map around it. -/
def openItems (handles : Handles) : Nat → Parse (List Named)
  | 0 => failure
  | fuel + 1 => do
    if !(← Parse.pass .item) then return []
    let first ← nodeUnless handles .item endsOpenItem fuel
    return first :: (← openItems handles fuel)

def blockEntries (handles : Handles) : Nat → Parse (List (Named × Named))
  | 0 => failure
  | fuel + 1 => do
    if ← Parse.pass .blockEnd then return []
    Parse.expect .key
    let key ← nodeUnless handles .entry endsEntry fuel
    let value ← value handles .entry endsEntry fuel
    return (key, value) :: (← blockEntries handles fuel)

/-- The items of a flow list, with its end. Separators stand between them, and one may stand
after the last. -/
def flowItems (handles : Handles) (first : Bool) : Nat → Parse (List Named)
  | 0 => failure
  | fuel + 1 => do
    if ← Parse.pass .listEnd then return []
    if !first then
      Parse.expect .separator
      if ← Parse.pass .listEnd then return []
    let item ←
      if ← Parse.pass .key then pure (.map none [← flowPair handles fuel])
      else node handles .flow fuel
    return item :: (← flowItems handles false fuel)

/-- A single entry among the items of a flow list. An absent key takes the next token with it. -/
def flowPair (handles : Handles) : Nat → Parse (Named × Named)
  | 0 => failure
  | fuel + 1 => do
    let key ←
      if ← Parse.nextIs (fun t => t = .value || endsFlowItem t) then
        Parse.advance
        pure absent
      else node handles .flow fuel
    return (key, ← value handles .flow endsFlowItem fuel)

def flowEntries (handles : Handles) (first : Bool) : Nat → Parse (List (Named × Named))
  | 0 => failure
  | fuel + 1 => do
    if ← Parse.pass .mapEnd then return []
    if !first then
      Parse.expect .separator
      if ← Parse.pass .mapEnd then return []
    let entry ←
      if ← Parse.pass .key then
        let key ← nodeUnless handles .flow (fun t => t = .value || endsFlowEntry t) fuel
        pure (key, ← value handles .flow endsFlowEntry fuel)
      else pure (← node handles .flow fuel, absent)
    return entry :: (← flowEntries handles false fuel)

end

/-- The directives at the start of a document: at most one version, which must be 1.1 or 1.2,
and at most one meaning for each handle. -/
def directives? (versioned : Bool) (handles : Handles) : List Token → Option (Handles × List Token)
  | .versionDirective major minor :: rest =>
    if versioned || major != 1 || (minor != 1 && minor != 2) then none
    else directives? true handles rest
  | .tagDirective handle lead :: rest =>
    if (handles.lookup handle).isSome then none
    else directives? versioned (handles ++ [(handle, lead)]) rest
  | ts => some (handles, ts)

/-- Whether a token can come only before or after a document's content. -/
def isOutside : Token → Bool
  | .versionDirective .. | .tagDirective .. | .documentStart | .documentEnd => true
  | _ => false

/-- A document. Its start may be left unmarked where no directive comes before it. -/
def document (fuel : Nat) : Parse Named := do
  let before := (← get).length
  let handles ← directives? false []
  if ← Parse.pass .documentStart then
    if (← get).isEmpty || (← Parse.nextIs isOutside) then return absent
    node (handles ++ standardHandles) .item fuel
  else if (← get).length < before then failure
  else node standardHandles .item fuel

/-- The node of a text with at most one document. Without any, it is absent. -/
def ofTokens? (ts : List Token) : Option Named :=
  if ts.isEmpty then some absent
  else do
    let (node, rest) ← (document (4 * ts.length + 8)).run ts
    if (rest.dropWhile (· = .documentEnd)).isEmpty then some node else none

end Node

end PackageScript.Yaml
