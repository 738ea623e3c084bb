import PackageScript.Output
import PackageScript.Proofs.Checked.Outcome
import PackageScript.Proofs.Text.Edges
import PackageScript.Proofs.Text.Encoding
/-! Generated texts are recognized as generated. -/
namespace PackageScript
open Text

private theorem lines_line (line rest : String) (h : line.toList.all (· ≠ '\n')) :
    lines (line ++ "\n" ++ rest) = line :: lines rest := by
  have hnewline : ("\n" : String).toList = ['\n'] := rfl
  have hnone : ∀ c ∈ line.toList, (c == '\n') = false := by simpa using h
  rw [lines, String.toList_append, String.toList_append, hnewline, List.append_assoc,
    List.singleton_append, pieces_append hnone rfl, List.map_cons, String.ofList_toList, lines]

private theorem trimEnd_generatedMarker : (trimEnd generatedMarker == generatedMarker) = true := by
  decide +kernel

private theorem source_eq (s : Script) : s.source =
    "# -*- python -*-" ++ "\n" ++ (generatedMarker ++ "\n" ++ (Script.metadataSource s.metadata ++
      (Script.dependenciesSource s.dependencies ++
        String.join (s.phases.map Script.phaseSource)))) := by
  have hheader : "# -*- python -*-\n" = "# -*- python -*-" ++ "\n" := by decide +kernel
  unfold Script.source
  rw [hheader]
  simp only [String.append_assoc]

/-- Whatever the format, the marker is among the first lines of what is generated. -/
theorem isGenerated_render (d : Descriptor) (format : OutputFormat) :
    isGenerated (d.render format) = true := by
  have hmarker : generatedMarker.toList.all (· ≠ '\n') = true := by decide +kernel
  cases format with
  | descriptor =>
    have hlines := lines_line generatedMarker (Yaml.Writing.document (Normal.descriptor d)) hmarker
    rw [Descriptor.render, isGenerated, hlines]
    simp [trimEnd_generatedMarker]
  | script =>
    rw [Descriptor.render, isGenerated, source_eq, lines_line _ _ (by decide),
      lines_line _ _ hmarker]
    simp [trimEnd_generatedMarker]

/-- A file with a generated text is recognized. -/
theorem isGenerated_of_compileText {text origin generated : String} {format : OutputFormat}
    (h : (compileText text origin format).outcome = .ok generated) :
    isGenerated (Utf8.decodeLossy (Utf8.encode generated)) = true := by
  obtain ⟨d, -, hd⟩ := Checked.outcome_bind.mp h
  cases hd
  rw [Utf8.decodeLossy_encode]
  exact isGenerated_render d format

end PackageScript
