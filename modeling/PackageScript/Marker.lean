import PackageScript.Text.Blank
/-! The line that tells generated files from hand-written ones. -/
namespace PackageScript

/-- The first line of every generated file after any interpreter header. -/
def generatedMarker : String := "# automatically generated by hscript. do not edit."

/-- Whether one of the first three lines is the marker, blanks at its end aside. -/
def isGenerated (text : String) : Bool :=
  ((Text.lines text).take 3).any (fun line => Text.trimEnd line == generatedMarker)

end PackageScript
