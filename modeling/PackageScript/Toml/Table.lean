/-! Values under keys, and the sections of a document that define them. -/
namespace PackageScript.Toml

/-- A text, an empty list, or a table of values under distinct keys. -/
inductive Value where
  | text (s : String)
  | emptyList
  | table (entries : List (String × Value))

abbrev Table := List (String × Value)

/-- The keys that lead from the top to a value. -/
abbrev KeyPath := List String

/-- The table that a header names, with the values that follow, each under a path of keys that
starts in that table. -/
structure Section where
  header : KeyPath
  entries : List (KeyPath × Value) := []

namespace Section

def leaves (s : Section) : List KeyPath :=
  s.entries.map fun e => s.header ++ e.1

def passed (s : Section) : List KeyPath :=
  s.entries.flatMap fun e => (List.range (e.1.length - 1)).map fun n => s.header ++ e.1.take (n + 1)

end Section

def within (inner outer : KeyPath) : Bool :=
  outer.isPrefixOf inner

/-- Whether no place in a list lies within another one. -/
def areApart : List KeyPath → Bool
  | [] => true
  | l :: rest => !rest.any (fun m => within l m || within m l) && areApart rest

/-- Whether a section may follow other ones. It has a header of its own, outside all values, and
its values are in new places. The tables that its keys pass are known to no other section. -/
def Section.follows (earlier : List Section) (s : Section) : Bool :=
  let headers := earlier.map Section.header
  let leaves := earlier.flatMap leaves
  let passed := earlier.flatMap passed
  !headers.contains s.header && !passed.contains s.header && !leaves.any (within s.header) &&
    s.leaves.all (fun l =>
      !headers.any (within · l) && !leaves.any fun m => within l m || within m l) &&
    s.passed.all (fun p => !headers.any (within · p) && !passed.contains p)

/-- Whether the values of each section are apart, and it may follow the ones before it. -/
def agree (earlier : List Section) : List Section → Bool
  | [] => true
  | s :: rest => areApart s.leaves && s.follows earlier && agree (s :: earlier) rest

namespace Table

def get? (key : String) : Table → Option Value
  | [] => none
  | (k, v) :: rest => if k = key then some v else get? key rest

/-- The table with a value under a key, in place of the one that is there. -/
def put (key : String) (v : Value) : Table → Table
  | [] => [(key, v)]
  | (k, w) :: rest => if k = key then (key, v) :: rest else (k, w) :: put key v rest

def inner (t : Table) (key : String) : Table :=
  match get? key t with
  | some (.table entries) => entries
  | _ => []

/-- The table with a value at a place. Tables on the way are made where they are missing. -/
def putAt (v : Value) : KeyPath → Table → Table
  | [], t => t
  | [key], t => put key v t
  | key :: below, t => put key (.table (putAt v below (inner t key))) t

/-- The table with a table at a place. One that is there stays. -/
def openAt : KeyPath → Table → Table
  | [], t => t
  | key :: below, t => put key (.table (openAt below (inner t key))) t

def add (t : Table) (s : Section) : Table :=
  s.entries.foldl (fun t e => putAt e.2 (s.header ++ e.1) t) (openAt s.header t)

def ofSections? (sections : List Section) : Option Table :=
  if agree [] sections then some (sections.foldl add []) else none

end Table

end PackageScript.Toml
