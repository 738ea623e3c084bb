import PackageScript.Proofs.Reading.Canonical
import PackageScript.Proofs.Yaml.Keys
/-! The grammar of descriptors, as conditions on the shape of a tree. -/
namespace PackageScript

namespace Yaml.Tree

/-- A tree in which no value has a tag. -/
inductive Untagged : Tree → Prop
  | null : Untagged .null
  | bool (value : Bool) : Untagged (.bool value)
  | number (value : Number) : Untagged (.number value)
  | text (value : String) : Untagged (.text value)
  | list {items : List Tree} : (∀ t ∈ items, Untagged t) → Untagged (.list items)
  | map {entries : Entries} : (∀ e ∈ entries, Untagged e.1) → (∀ e ∈ entries, Untagged e.2) →
      Untagged (.map entries)

@[simp] theorem untagged_text (value : String) : (text value).Untagged :=
  .text value

@[simp] theorem untagged_list {items : List Tree} :
    (list items).Untagged ↔ ∀ t ∈ items, t.Untagged := by
  refine ⟨fun h => ?_, .list⟩
  cases h with
  | list hitems => exact hitems

@[simp] theorem untagged_map {entries : Entries} :
    (map entries).Untagged ↔ ∀ e ∈ entries, e.1.Untagged ∧ e.2.Untagged := by
  refine ⟨fun h => ?_, fun h => .map (fun e he => (h e he).1) fun e he => (h e he).2⟩
  cases h with
  | map hkeys hvalues => exact fun e he => ⟨hkeys e he, hvalues e he⟩

/-- A tree without tags has none on its keys. -/
theorem Untagged.everyMap_untaggedKeys {t : Tree} (ht : t.Untagged) : t.EveryMap UntaggedKeys := by
  induction ht with
  | null => exact .null
  | bool value => exact .bool value
  | number value => exact .number value
  | text value => exact .text value
  | list _ ih => exact .list ih
  | map hkeys _ ihk ihv =>
    refine .map (fun e he tag content heq => ?_) ihk ihv
    have hkey := hkeys e he
    rw [heq] at hkey
    cases hkey

theorem Untagged.string?_eq_some {t : Tree} (ht : t.Untagged) {s : String} :
    t.string? = some s ↔ t = .text s := by
  refine ⟨fun h => eq_text_of_string? ?_ h, fun h => h ▸ rfl⟩
  rintro tag content rfl
  cases ht

theorem Untagged.entries?_eq_some {t : Tree} (ht : t.Untagged) {entries : Entries} :
    t.entries? = some entries ↔ t = .map entries := by
  refine ⟨fun h => ?_, fun h => h ▸ rfl⟩
  cases ht with
  | map => exact congrArg Tree.map (Option.some.inj h)
  | _ => cases h

end Yaml.Tree

namespace Grammar
open Yaml

/-- A string, number or boolean. -/
def IsScalar : Tree → Prop
  | .text _ | .number _ | .bool _ => True
  | _ => False

/-- Nothing, a scalar, or a list of nests. -/
inductive Nest : Tree → Prop
  | null : Nest .null
  | scalar {t : Tree} : IsScalar t → Nest t
  | list {items : List Tree} : (∀ t ∈ items, Nest t) → Nest (.list items)

mutual

/-- The scalars of a nest, in the order of the document: lists are flattened, and nothing is left
out but nulls. -/
def scalars : Tree → List Tree
  | .null => []
  | .list items => scalarsOf items
  | t => [t]

/-- The scalars of the items of a list, one item after another. -/
def scalarsOf : List Tree → List Tree
  | [] => []
  | t :: rest => scalars t ++ scalarsOf rest

end

def texts (t : Tree) : List String :=
  (scalars t).filterMap Tree.scalarText?

/-- Nothing, or a list of such items. -/
def OptionalList (P : Tree → Prop) : Tree → Prop
  | .null => True
  | .list items => ∀ t ∈ items, P t
  | _ => False

/-- Nothing, or a map with such entries. -/
def OptionalMap (P : Tree.Entries → Prop) : Tree → Prop
  | .null => True
  | .map entries => P entries
  | _ => False

/-- Nothing, a scalar or a list of scalars. -/
def OneOrMore (t : Tree) : Prop :=
  IsScalar t ∨ OptionalList IsScalar t

/-- What a setting can be read from: a nest, or a map from scalars to nests. -/
def FieldValue : Tree → Prop
  | .map entries => ∀ e ∈ entries, IsScalar e.1 ∧ Nest e.2
  | t => Nest t

/-- Entries under string keys, each with what is expected under its key. -/
def Keyed (P : String → Tree → Prop) (entries : Tree.Entries) : Prop :=
  ∀ e ∈ entries, ∃ key, e.1 = .text key ∧ P key e.2

theorem keyed_cons {P : String → Tree → Prop} {e : Tree × Tree} {rest : Tree.Entries} :
    Keyed P (e :: rest) ↔ (∃ key, e.1 = .text key ∧ P key e.2) ∧ Keyed P rest :=
  List.forall_mem_cons

/-- A map with one entry, under a string key. -/
def Single (P : String → Tree → Prop) (t : Tree) : Prop :=
  ∃ key value, t = .map [(.text key, value)] ∧ P key value

theorem single_and {Q : Prop} {P : String → Tree → Prop} {t : Tree} :
    Single (fun key value => Q ∧ P key value) t ↔ Q ∧ Single P t := by
  constructor
  · rintro ⟨key, value, ht, hQ, hP⟩
    exact ⟨hQ, key, value, ht, hP⟩
  · rintro ⟨hQ, key, value, ht, hP⟩
    exact ⟨key, value, ht, hQ, hP⟩

/-- What may stand under a key of the package section. -/
structure PackageEntry (key : String) (value : Tree) : Prop where
  authors : key = "authors" → OneOrMore value
  managers : key = "managers" → OneOrMore value
  version : key = "version" → value = .null ∨ IsScalar value
  deps : key = "deps" → OptionalMap (Keyed fun list entries =>
    list ∈ ["public", "private", "runtime"] ∧ OptionalList IsScalar entries) value

/-- A package section, with a name that is not blank. -/
def PackageSection (t : Tree) : Prop :=
  ∃ entries, t = .map entries ∧ Keyed PackageEntry entries ∧
    ∃ name, Tree.lookup? "name" entries = some (.text name) ∧
      ∃ c ∈ name.toList, Text.isBlank c = false

/-- What may stand under a key that all phases have. -/
def PhaseEntry (key : String) (value : Tree) : Prop :=
  key = "tools" ∨ key = "hwaf-call" → OptionalList IsScalar value

/-- What may stand under a key of the configure section. -/
structure ConfigureEntry (key : String) (value : Tree) : Prop where
  phase : PhaseEntry key value
  env : key = "env" → OptionalMap (Keyed fun _ value => ∃ text, value = .text text) value
  tags : key = "declare-tags" → OptionalList (Single fun _ => OneOrMore) value
  applied : key = "apply-tags" → OneOrMore value
  statements : key = "statements" → OptionalList (Single fun kind change =>
    (∃ how : Change, how.keyword = kind) ∧ Single (fun _ => FieldValue) change) value

def itemTags (item : Tree) : List String :=
  Tree.names (item.entries?.getD [])

def listedTags : Tree → List String
  | .list items => items.flatMap itemTags
  | _ => []

/-- The names of the tags that an entry of the configure section declares. -/
def declaredTags (e : Tree × Tree) : List String :=
  if e.1.string? = some "declare-tags" then listedTags e.2 else []

/-- A configure section that declares each tag once. -/
structure ConfigureSection (entries : Tree.Entries) : Prop where
  keyed : Keyed ConfigureEntry entries
  tags : (entries.flatMap declaredTags).Nodup

/-- What may stand under a key of a target. -/
structure TargetEntry (name key : String) (value : Tree) : Prop where
  features : key = "features" → Nest value
  name : key = "name" → value = .text name
  output : key = "target" → ∃ output, value = .text output
  settings : key ∉ Target.reservedKeys → FieldValue value

/-- What may stand under a key of the build section. -/
structure BuildEntry (key : String) (value : Tree) : Prop where
  phase : PhaseEntry key value
  target : key ∉ Build.reservedKeys →
    ∃ fields, value = .map fields ∧ Keyed (TargetEntry key) fields

def entryOutput? (e : Tree × Tree) : Option String :=
  if e.1.string? = some "target" then e.2.string? else none

/-- The output of the target that an entry of the build section declares. Without another name
it is the name of the target. -/
def targetOutput? (e : Tree × Tree) : Option String :=
  match e.1.string? with
  | some key =>
    if key ∈ Build.reservedKeys then none
    else some ((((e.2.entries?.getD []).filterMap entryOutput?).getLast?).getD key)
  | none => none

/-- A build section with targets that build different things. -/
structure BuildSection (entries : Tree.Entries) : Prop where
  keyed : Keyed BuildEntry entries
  outputs : (entries.filterMap targetOutput?).Nodup

/-- The sections of a descriptor. -/
structure Sections (root : Tree.Entries) : Prop where
  names : Keyed (fun name _ => name ∈ ["package", "options", "configure", "build"]) root
  package : ∃ t, Tree.lookup? "package" root = some t ∧ PackageSection t
  options : ∀ t, Tree.lookup? "options" root = some t → OptionalMap (Keyed PhaseEntry) t
  configure : ∀ t, Tree.lookup? "configure" root = some t → OptionalMap ConfigureSection t
  build : ∀ t, Tree.lookup? "build" root = some t → OptionalMap BuildSection t

def Document (t : Tree) : Prop :=
  ∃ root, t = .map root ∧ Sections root

end Grammar

end PackageScript
