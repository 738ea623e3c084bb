import PackageScript.Text.Utf8
import PackageScript.Yaml.Scalar
/-! What tags mean for the trees under them. -/
namespace PackageScript.Yaml

/-- A tag that is kept under its name, one that asks for a kind of scalar, or one that leaves a
scalar a string. -/
inductive Tag where
  | kept (name : String)
  | bool
  | int
  | float
  | null
  | other
  deriving DecidableEq, Repr

namespace Tag

/-- The name of a kept tag: an exclamation mark and what follows one or two of them. -/
def keptName (cs : List Char) : String :=
  String.ofList ('!' :: match cs with
    | ['!'] => ['!']
    | '!' :: rest => rest
    | rest => rest)

/-- The meaning of a tag's bytes. A local tag that is no text is dropped. -/
def ofBytes? (bytes : List UInt8) : Option Tag :=
  match Text.Utf8.decode? bytes, bytes with
  | some s, _ =>
    if s = "!" then some (.kept "!!")
    else match s.toList with
      | '!' :: rest => some (.kept (keptName rest))
      | _ =>
        if s = "tag:yaml.org,2002:bool" then some .bool
        else if s = "tag:yaml.org,2002:int" then some .int
        else if s = "tag:yaml.org,2002:float" then some .float
        else if s = "tag:yaml.org,2002:null" then some .null
        else some .other
  | none, b :: _ => if b = '!'.toNat.toUInt8 then none else some .other
  | none, [] => some .other

/-- The tree of a scalar without a tag. Only a plain one can be something else than a string. -/
def untaggedTree? (text : List Char) (isPlain : Bool) : Option Tree :=
  let s := String.ofList text
  if isPlain then Scalar.plainTree? s else some (.text s)

/-- The tree of a scalar. It must be of the kind that its tag asks for. -/
def scalarTree? (tag : Option Tag) (text : List Char) (isPlain : Bool) : Option Tree :=
  match tag with
  | none => untaggedTree? text isPlain
  | some (.kept name) => (untaggedTree? text isPlain).map (.tagged name)
  | some .bool => (Scalar.bool? text).map .bool
  | some .int => (Scalar.int? text).bind Scalar.intTree?
  | some .float => (Scalar.float? text).map fun x => .number (.float x)
  | some .null => if Scalar.isNull text then some .null else none
  | some .other => some (.text (String.ofList text))

/-- The tree of a list or map. Only kept tags show on it. -/
def collectionTree (tag : Option Tag) (t : Tree) : Tree :=
  match tag with
  | some (.kept name) => .tagged name t
  | _ => t

end Tag

end PackageScript.Yaml
