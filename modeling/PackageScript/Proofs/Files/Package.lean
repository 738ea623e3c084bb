import PackageScript.Proofs.Files.Lexical
import PackageScript.Text.Utf8
/-! The files of a package: its script, the backup, and the temporary file. -/
namespace PackageScript

namespace Preferences

/-- The name of the file that a hand-written script is moved aside to. -/
def backupName (p : Preferences) : String :=
  p.scriptName ++ p.backupSuffix

def temporaryName (p : Preferences) : String :=
  "." ++ p.scriptName ++ ".tmp"

def changed (p : Preferences) : List String :=
  [p.scriptName, p.backupName, p.temporaryName]

def scriptIn (p : Preferences) (here : Location) : Location :=
  here ++ [p.scriptName]

def backupIn (p : Preferences) (here : Location) : Location :=
  here ++ [p.backupName]

def temporaryIn (p : Preferences) (here : Location) : Location :=
  here ++ [p.temporaryName]

structure Plain (p : Preferences) : Prop where
  document : IsName p.documentName
  script : IsName p.scriptName
  suffix : Slashless p.backupSuffix

/-- Whether the four files of a package have different names. -/
structure Distinct (p : Preferences) : Prop extends Plain p where
  names : (p.documentName :: p.changed).Nodup

variable {p : Preferences}

private theorem isName_of_isPlainName {name : String} (h : Path.isPlainName name = true) :
    IsName name := by
  simp only [Path.isPlainName, Bool.and_eq_true, bne_iff_ne, Bool.not_eq_true', ne_eq,
    List.any_eq_false] at h
  obtain ⟨⟨⟨hempty, hslash⟩, hdot⟩, hparent⟩ := h
  refine ⟨fun hc => absurd rfl (hslash '/' hc), ⟨?_, hparent⟩⟩
  simp [Path.isIdle, hempty, hdot]

/-- Preferences without a fault give names, and the document is not the script. -/
theorem plain_of_fault? (h : p.fault? = none) : p.Plain ∧ p.documentName ≠ p.scriptName := by
  rw [fault?] at h
  dsimp only at h
  split at h
  · cases h
  rename_i hdocument
  split at h
  · cases h
  rename_i hscript
  split at h
  · cases h
  rename_i hne
  split at h
  · cases h
  rename_i hsuffix
  simp only [Bool.or_eq_true, decide_eq_true_eq, List.any_eq_true, not_or, not_exists] at hsuffix
  refine ⟨⟨isName_of_isPlainName (by simpa using hdocument),
    isName_of_isPlainName (by simpa using hscript), ?_⟩, hne⟩
  intro hslash
  exact hsuffix.2 '/' ⟨hslash, Or.inl rfl⟩

/-- Preferences without a fault keep a hand-written script under another name. -/
theorem scriptName_ne_backupName (h : p.fault? = none) : p.scriptName ≠ p.backupName := by
  intro heq
  have hsuffix : p.backupSuffix = "" := by
    have htext := congrArg String.toList heq
    rw [backupName, String.toList_append] at htext
    exact String.toList_injective (List.self_eq_append_right.mp htext)
  rw [fault?, hsuffix] at h
  dsimp only at h
  split at h
  · cases h
  split at h
  · cases h
  split at h
  · cases h
  · cases h

namespace Plain

theorem backup (h : p.Plain) : IsName p.backupName :=
  ⟨h.script.slashless.append h.suffix, h.script.entry.append p.backupSuffix⟩

private theorem temporary (h : p.Plain) : IsName p.temporaryName :=
  Disk.isName_temporary h.script.slashless

/-- The backup is joined to the package as the script is. -/
theorem backupPath_scriptPath (h : p.Plain) (package : Path) :
    p.backupPath (p.scriptPath package) = package.join p.backupName := by
  rw [backupPath, scriptPath, Path.join_of_slashless package h.script.slashless,
    Path.join_of_slashless package h.backup.slashless, backupName]
  split <;> rw [String.append_assoc]

end Plain

/-- The preferences that nobody has changed give four different names. -/
theorem distinct_default : Distinct {} where
  document := ⟨by decide, by decide, by decide⟩
  script := ⟨by decide, by decide, by decide⟩
  suffix := by decide
  names := by decide

namespace Distinct

theorem script_ne_backup (h : p.Distinct) : p.scriptName ≠ p.backupName := by
  have hnames := h.names
  simp only [changed, List.nodup_cons, List.mem_cons, not_or] at hnames
  exact hnames.2.1.1

theorem script_ne_temporary (h : p.Distinct) : p.scriptName ≠ p.temporaryName := by
  have hnames := h.names
  simp only [changed, List.nodup_cons, List.mem_cons, not_or] at hnames
  exact hnames.2.1.2.1

theorem backup_ne_temporary (h : p.Distinct) : p.backupName ≠ p.temporaryName := by
  have hnames := h.names
  simp only [changed, List.nodup_cons, List.mem_cons, not_or] at hnames
  exact hnames.2.2.1.1

variable (here : Location)

theorem scriptIn_ne_backupIn (h : p.Distinct) : p.scriptIn here ≠ p.backupIn here := by
  simpa [scriptIn, backupIn] using h.script_ne_backup

theorem scriptIn_ne_temporaryIn (h : p.Distinct) : p.scriptIn here ≠ p.temporaryIn here := by
  simpa [scriptIn, temporaryIn] using h.script_ne_temporary

theorem backupIn_ne_temporaryIn (h : p.Distinct) : p.backupIn here ≠ p.temporaryIn here := by
  simpa [backupIn, temporaryIn] using h.backup_ne_temporary

end Distinct

end Preferences

namespace Disk

variable {d : Disk} {p : Preferences} {package : Path} {here : Location}

/-- In a package that is there, the path of the script leads to its name. -/
theorem Enters.leads_script (h : d.Enters package here) (hp : p.Plain) :
    d.Leads (p.scriptPath package) here p.scriptName :=
  h.leads hp.script.slashless hp.script.entry

/-- In a package that is there, the path of the backup leads to its name. -/
theorem Enters.leads_backup (h : d.Enters package here) (hp : p.Plain) :
    d.Leads (p.backupPath (p.scriptPath package)) here p.backupName := by
  rw [hp.backupPath_scriptPath]
  exact h.leads hp.backup.slashless hp.backup.entry

theorem Enters.leads_temporary (h : d.Enters package here) (hp : p.Plain) :
    d.Leads (p.scriptPath package).temporary here p.temporaryName :=
  (h.leads_script hp).temporary hp.script.slashless

section Places

variable (d) (package)

/-- The path of a script leads to its name in the package. -/
theorem place_scriptPath (hp : p.Plain) :
    d.place (p.scriptPath package) = p.scriptIn (d.place package) :=
  place_join d package hp.script

/-- The path of a backup leads to its name in the package. -/
theorem place_backupPath (hp : p.Plain) :
    d.place (p.backupPath (p.scriptPath package)) = p.backupIn (d.place package) := by
  rw [hp.backupPath_scriptPath]
  exact place_join d package hp.backup

/-- The temporary file of a script is in the package too. -/
theorem place_temporary (hp : p.Plain) :
    d.place (p.scriptPath package).temporary = p.temporaryIn (d.place package) := by
  have hsegments := Path.segments_join package hp.script.slashless
  obtain ⟨parent, ⟨hparent, hlast⟩, hplace, -⟩ :=
    place_of_segments d hsegments hp.script.entry.notIdle (List.forall_mem_nil _)
  rw [place_join d package hp.script, stepped_entry _ hp.script.entry] at hplace
  rw [Preferences.scriptPath, Path.temporary_of_segments hparent hlast hp.script.entry.notParent,
    (List.append_inj_left' hplace rfl : d.place package = d.place parent)]
  exact place_join d parent hp.temporary

end Places

end Disk

def packageByHand : Disk where
  top := [("pkg", .directory [("hscript.yml", .file (Text.Utf8.encode "package: {name: p}\n")),
    ("wscript", .file (Text.Utf8.encode "mine\n"))])]

end PackageScript
