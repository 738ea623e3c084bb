import PackageScript.Proofs.Script.Scanning
import PackageScript.Script.Descriptor
/-! The lines that the text of a script is read as. -/
namespace PackageScript.Script
open Scanner

def Call.line (c : Call) : Line :=
  ⟨4, c.tokens⟩

def entryTokens (e : String × Expression) : List Token :=
  .string e.1 :: .mark ':' :: e.2.tokens

def metadataLine (entries : List (String × Expression)) : Line :=
  ⟨0, [.name "PACKAGE", .mark '=', .mark '\x7b'] ++
    (entries.flatMap fun e => entryTokens e ++ [.mark ',']) ++ [.mark '\x7d']⟩

def headerLine (name : String) : Line :=
  ⟨0, [.name "def", .name name, .mark '(', .name "ctx", .mark ')', .mark ':']⟩

def returnLine : Line :=
  ⟨4, [.name "return"]⟩

def functionLines (name : String) (calls : List Call) : List Line :=
  headerLine name :: calls.map Call.line ++ [returnLine]

def lines (s : Script) : List Line :=
  metadataLine s.metadata :: functionLines "pkg_deps" (s.dependencies.flatMap Prod.snd) ++
    s.phases.flatMap fun p => functionLines p.1 p.2

def groupNames : List String := ["public", "private", "runtime"]

def phaseNames : List String := ["options", "configure", "build"]

private theorem reads_calls {calls : List Call} (h : ∀ c ∈ calls, c.Identified) :
    Reads (callsSource calls).toList (calls.map Call.line) := by
  have hcalls : Reads (calls.flatMap fun c => c.source.toList) (calls.flatMap fun c => [c.line]) :=
    reads_flatMap fun c hc => reads_call (h c hc)
  rwa [← List.map_eq_flatMap, ← List.flatMap_map, ← String.toList_join] at hcalls

private theorem spells_entry (e : String × Expression) :
    Spells (quote e.1 ++ ": " ++ e.2.source).toList (entryTokens e) := by
  have hcolon : (": " : String).toList = [':', ' '] := rfl
  have hentry := (spells_quote e.1).append
    ((spells_expression e.2).space.mark (d := ':') (by simp)) rfl
  simpa [entryTokens, hcolon] using hentry

private theorem reads_metadata (entries : List (String × Expression)) :
    Reads (metadataSource entries).toList [metadataLine entries] := by
  have hrows := spells_rows 4 (fun e : String × Expression => quote e.1 ++ ": " ++ e.2.source)
    entryTokens Spells.nil entries fun e _ => spells_entry e
  have htable : Reads ("PACKAGE = ".toList ++ ('\x7b' :: '\n' :: (entries.flatMap fun e =>
      List.replicate 4 ' ' ++ (quote e.1 ++ ": " ++ e.2.source).toList ++ [',', '\n']) ++
        ['\x7d'] ++ ['\n'])) [metadataLine entries] := by
    intro before
    have hstart : scan { lines := before } "PACKAGE = ".toList =
        some { mode := .between, tokens := [.name "PACKAGE", .mark '='], lines := before } := rfl
    have hbracket := scan_bracket hrows.newline (o := '\x7b') (c := '\x7d') (by simp) (by simp)
      (s := { mode := .between, tokens := [.name "PACKAGE", .mark '='], lines := before }) rfl
    rw [List.append_nil] at hbracket
    rw [scan_append, hstart, Option.bind_some, scan_append, hbracket, Option.bind_some,
      scan_singleton, step_newline rfl rfl (by simp [after])]
    simp [after, metadataLine]
  have hcomment : Reads ("## -- package metadata --".toList ++ '\n' :: _) _ :=
    htable.comment "# -- package metadata --".toList (by decide)
  have hopen : ("\n## -- package metadata --\nPACKAGE = \x7b\n" : String).toList =
      '\n' :: ("## -- package metadata --".toList ++
        '\n' :: ("PACKAGE = ".toList ++ ['\x7b', '\n'])) := rfl
  unfold metadataSource
  simpa [List.flatMap_map, hopen, indent] using hcomment.blank

private theorem reads_group {group : String × List Call} (hname : group.1 ∈ groupNames)
    (h : ∀ c ∈ group.2, c.Identified) :
    Reads (groupSource group).toList (group.2.map Call.line) := by
  have hcomment : Reads ("\n" ++ indent ++ "## " ++ group.1 ++ " dependencies\n").toList [] := by
    intro before
    rw [List.append_nil]
    simp only [groupNames, List.mem_cons, List.not_mem_nil, or_false] at hname
    rcases hname with hname | hname | hname <;>
    · rw [hname]
      rfl
  rw [groupSource, String.toList_append]
  exact hcomment.append (reads_calls h)

private theorem reads_separator {cs : List Char} {lines : List Line} (h : Reads cs lines) :
    Reads (separator.toList ++ '\n' :: cs) lines := by
  have hcomment : separator.toList = '#' :: separator.toList.tail := rfl
  rw [hcomment]
  exact h.comment _ (by decide)

private theorem reads_header {name : String} (h : name ∈ "pkg_deps" :: phaseNames) :
    Reads ("def " ++ name ++ "(ctx):\n").toList [headerLine name] := by
  simp only [phaseNames, List.mem_cons, List.not_mem_nil, or_false] at h
  rcases h with rfl | rfl | rfl | rfl <;> exact fun _ => rfl

private theorem reads_return {name : String} (h : name ∈ "pkg_deps" :: phaseNames) :
    Reads ("    return # " ++ name ++ "\n").toList [returnLine] := by
  simp only [phaseNames, List.mem_cons, List.not_mem_nil, or_false] at h
  rcases h with rfl | rfl | rfl | rfl <;> exact fun _ => rfl

private theorem reads_phase {phase : String × List Call} (hname : phase.1 ∈ phaseNames)
    (h : ∀ c ∈ phase.2, c.Identified) :
    Reads (phaseSource phase).toList (functionLines phase.1 phase.2) := by
  have hmem := List.mem_cons_of_mem "pkg_deps" hname
  have hphase := (reads_separator ((reads_header hmem).append
    ((reads_calls h).append (reads_return hmem).blank).blank)).blank.blank
  unfold phaseSource
  simpa [functionLines, indent] using hphase

private theorem reads_dependencies {groups : List (String × List Call)}
    (h : ∀ g ∈ groups, g.1 ∈ groupNames ∧ ∀ c ∈ g.2, c.Identified) :
    Reads (dependenciesSource groups).toList
      (functionLines "pkg_deps" (groups.flatMap Prod.snd)) := by
  have hmem : "pkg_deps" ∈ "pkg_deps" :: phaseNames := List.mem_cons_self
  have hgroups : Reads (groups.flatMap fun g => (groupSource g).toList)
      (groups.flatMap fun g => g.2.map Call.line) :=
    reads_flatMap fun g hg => reads_group (h g hg).1 (h g hg).2
  have hfunction := (reads_separator ((reads_header hmem).append
    (hgroups.append (reads_return hmem).blank))).blank
  unfold dependenciesSource
  simpa [functionLines, indent, List.flatMap_map, List.map_flatMap] using hfunction

/-- The lines of a script are read back from its text. -/
theorem lines?_source {s : Script}
    (hgroups : ∀ g ∈ s.dependencies, g.1 ∈ groupNames ∧ ∀ c ∈ g.2, c.Identified)
    (hphases : ∀ p ∈ s.phases, p.1 ∈ phaseNames ∧ ∀ c ∈ p.2, c.Identified) :
    Scanner.lines? s.source = some s.lines := by
  have hphases := reads_flatMap fun p hp => reads_phase (hphases p hp).1 (hphases p hp).2
  have hbody := ((reads_metadata s.metadata).append (reads_dependencies hgroups)).append hphases
  have hmarker : Reads (generatedMarker.toList ++ '\n' :: _) _ :=
    hbody.comment generatedMarker.toList.tail (by decide)
  have hscript : Reads ("# -*- python -*-".toList ++ '\n' :: _) _ :=
    hmarker.comment " -*- python -*-".toList (by decide)
  have hsource : s.source.toList = "# -*- python -*-".toList ++ '\n' :: (generatedMarker.toList ++
      '\n' :: ((metadataSource s.metadata).toList ++ (dependenciesSource s.dependencies).toList ++
        s.phases.flatMap fun p => (phaseSource p).toList)) := by
    have hencoding : ("# -*- python -*-\n" : String).toList = "# -*- python -*-".toList ++ ['\n'] :=
      rfl
    unfold Script.source
    simp [List.flatMap_map, hencoding]
  rw [Scanner.lines?, hsource, hscript []]
  rfl

end PackageScript.Script
