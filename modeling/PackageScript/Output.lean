import PackageScript.Yaml.Reading
import PackageScript.Yaml.Writing
import PackageScript.Reading.Descriptor
import PackageScript.Normal
import PackageScript.Script.Descriptor
/-! What a descriptor is compiled to: a script, or the descriptor in normal form. -/
namespace PackageScript

inductive OutputFormat where
  | script
  | descriptor
  deriving DecidableEq, Repr

namespace OutputFormat

def name : OutputFormat → String
  | .script => "wscript"
  | .descriptor => "hscript"

def ofName? (name : String) : Option OutputFormat :=
  [script, descriptor].find? (·.name = name)

end OutputFormat

def Descriptor.render (d : Descriptor) : OutputFormat → String
  | .script => (Script.ofDescriptor d).source
  | .descriptor => generatedMarker ++ "\n" ++ Yaml.Writing.document (Normal.descriptor d)

def Descriptor.read (text origin : String) : Checked Descriptor := do
  Reading.descriptor (← Yaml.Tree.read text origin)

def compileText (text origin : String) (format : OutputFormat) : Checked String := do
  return (← Descriptor.read text origin).render format

end PackageScript
