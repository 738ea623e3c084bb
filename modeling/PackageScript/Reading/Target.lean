import PackageScript.Reading.Expect
import PackageScript.Descriptor
/-! Targets, and the settings that their fields and the statements hold. -/
namespace PackageScript.Reading
open Yaml

def nestedStrings : String := "a string, a list of strings or a list of lists of strings"

def bindEntry (path : String) (s : Setting) (entry : Tree × Tree) : Checked Setting := do
  let source ← .ofOption (misshapen path "tag expressions as map keys" entry.1) entry.1.scalarText?
  let texts ← leaves (path ++ "[" ++ source ++ "]") nestedStrings entry.2
  return s.bind (.parse source) texts

/-- A setting from a map of selectors, or from a nested list for the fallback. -/
def setting (name path : String) : Tree → Checked Setting
  | .map entries => entries.foldlM (bindEntry path) ⟨name, []⟩
  | t => do return .plain name (← leaves path nestedStrings t)

/-- The string of a field that takes nothing else. -/
def stringField (path : String) (t : Tree) : Checked String :=
  .ofOption (misshapen path "a string" t) t.string?

def targetField (t : Target) (entry : Tree × Tree) : Checked Target := do
  let field ← .ofOption (misshapen ("build." ++ t.name) "string field names" entry.1) entry.1.string?
  let path := "build." ++ t.name ++ "." ++ field
  match field with
  | "features" =>
    let texts ← leaves path stringOrStrings entry.2
    return { t with features := t.features ++ texts.flatMap Text.words }
  | "name" =>
    let name ← stringField path entry.2
    if name = t.name then return t
    else .fail (.contradiction
      ("target declared under 'build." ++ t.name ++ "' names itself '" ++ name ++ "'"))
  | "target" =>
    let output ← stringField path entry.2
    return { t with outputName := some output }
  | _ =>
    let value ← setting field path entry.2
    if (KnownField.ofKey? field).isSome then return { t with fields := t.fields ++ [value] }
    else return { t with extensions := t.extensions ++ [value] }

def target (key : String) (fields : Tree.Entries) : Checked Target :=
  fields.foldlM targetField { name := key }

end PackageScript.Reading
