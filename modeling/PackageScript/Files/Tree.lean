/-! Trees of files and directories, with a view by location. -/
namespace PackageScript

/-- A file with its content, or a directory with its entries. -/
inductive FileTree (α : Type) where
  | file (content : α)
  | directory (entries : List (String × FileTree α))

/-- The entries of a directory. The first one of a name counts. -/
abbrev Directory (α : Type) := List (String × FileTree α)

/-- The names that lead from the top to a place. -/
abbrev Location := List String

variable {α : Type}

namespace Directory

def child? (name : String) : Directory α → Option (FileTree α)
  | [] => none
  | (n, t) :: rest => if n = name then some t else child? name rest

/-- The directory with an entry in place of the one of its name, or else among the others
by name. -/
def put (name : String) (t : FileTree α) : Directory α → Directory α
  | [] => [(name, t)]
  | (n, u) :: rest =>
    if n = name then (name, t) :: rest
    else if name < n then (name, t) :: (n, u) :: rest
    else (n, u) :: put name t rest

def drop (name : String) (d : Directory α) : Directory α :=
  d.filter (fun e => e.1 ≠ name)

def set (name : String) : Option (FileTree α) → Directory α → Directory α
  | some t, d => put name t d
  | none, d => drop name d

theorem child?_put (name other : String) (t : FileTree α) (d : Directory α) :
    child? other (put name t d) = if name = other then some t else child? other d := by
  induction d with
  | nil => simp [put, child?]
  | cons e rest ih =>
    by_cases h : e.1 = name
    · by_cases ho : name = other <;> simp [put, child?, h, ho]
    · by_cases hl : name < e.1
      · simp [put, child?, h, hl]
      · by_cases ho : name = other
        · subst ho
          simp [put, child?, h, hl, ih]
        · simp [put, child?, h, hl, ih, ho]

private theorem child?_drop (name other : String) (d : Directory α) :
    child? other (drop name d) = if name = other then none else child? other d := by
  induction d with
  | nil => simp [drop, child?]
  | cons e rest ih =>
    by_cases h : e.1 = name
    · have : drop name (e :: rest) = drop name rest := by simp [drop, h]
      rw [this, ih]
      by_cases ho : name = other <;> simp [child?, h, ho]
    · have : drop name (e :: rest) = e :: drop name rest := by simp [drop, h]
      rw [this, child?, ih]
      by_cases ho : name = other
      · subst ho
        simp [h]
      · simp [child?, ho]

/-- A change of one entry shows at its name only. -/
theorem child?_set (name other : String) (t : Option (FileTree α)) (d : Directory α) :
    child? other (set name t d) = if name = other then t else child? other d := by
  cases t <;> simp [set, child?_put, child?_drop]

/-- The directory with something else, or nothing, at a location below it. Where no directory
holds that location, nothing changes. -/
def setAt : Location → Option (FileTree α) → Directory α → Directory α
  | [], _, d => d
  | [name], t, d => set name t d
  | name :: below, t, d =>
    match child? name d with
    | some (.directory inner) => put name (.directory (setAt below t inner)) d
    | _ => d

end Directory

namespace FileTree

def at? : FileTree α → Location → Option (FileTree α)
  | t, [] => some t
  | .directory entries, name :: below =>
    match Directory.child? name entries with
    | some t => at? t below
    | none => none
  | .file _, _ :: _ => none

mutual

def outline : FileTree α → FileTree Unit
  | .file _ => .file ()
  | .directory entries => .directory (outlines entries)

def outlines : Directory α → Directory Unit
  | [] => []
  | (name, t) :: rest => (name, outline t) :: outlines rest

end

mutual

/-- The locations below a tree, each with the content of the file there, if it is one. -/
def places (here : Location) : FileTree α → List (Location × Option α)
  | .file content => [(here, some content)]
  | .directory entries => (here, none) :: placesIn here entries

def placesIn (here : Location) : Directory α → List (Location × Option α)
  | [] => []
  | (name, t) :: rest => places (here ++ [name]) t ++ placesIn here rest

end

end FileTree

end PackageScript
