import PackageScript.Proofs.Files.Commands
/-! Documents are left as they are by every command. -/
namespace PackageScript

open Job Files Disk Command

variable {faulty : Call → Prop} {d e : Disk} {i : Invocation} {p : Preferences} {package : Path}

private theorem not_prefix_of_changed (hdocument : p.documentName ∉ p.changed) {l k : Location}
    {name : String} (hname : name ∈ p.changed) : ¬ l ++ k ++ [name] <+: l ++ [p.documentName] := by
  rw [List.append_assoc, List.prefix_append_right_inj]
  intro hpre
  cases k with
  | nil =>
    obtain rfl : name = p.documentName := by simpa using hpre
    exact hdocument hname
  | cons first rest =>
    have hlength := hpre.length_le
    simp at hlength

private theorem document_of_asks {α : Type} {job : Job α} {P : Call → Prop} (hjob : job.Asks P)
    (hP : ∀ call, P call → ∀ d, ∀ l ∈ Disk.changes d call,
      ∃ name ∈ p.changed, l = d.place package ++ [name])
    (hdocument : p.documentName ∉ p.changed) {l : Location} (hl : l <+: d.place package)
    {content : Bytes} (hfile : d.view (l ++ [p.documentName]) = some (some content))
    {r : Except Failure α} (h : job.Leaves faulty d r e) :
    e.current = d.current ∧ e.view (l ++ [p.documentName]) = some (some content) := by
  obtain ⟨k, hk⟩ := hl
  have hframe : ∀ call, P call → ∀ d' : Disk, d'.current = d.current →
      ∀ m ∈ d'.changes call, ¬ m <+: l ++ [p.documentName] := by
    intro call hcall d' hcurrent m hm
    obtain ⟨name, hname, heq⟩ := hP call hcall d' m hm
    rw [heq, place_congr hcurrent, ← hk]
    exact not_prefix_of_changed hdocument hname
  exact ⟨(hjob.frame hframe h).1, hjob.view_file hframe h hfile⟩

/-- A document keeps its content, whatever command is given its directory and whatever goes wrong,
if its name is none of those that are changed. Preferences without a fault leave two of them to
be told from the name: that of the backup, and that of the temporary file. -/
theorem document_unharmed (hfault : p.fault? = none) (hbackup : p.documentName ≠ p.backupName)
    (htemporary : p.documentName ≠ p.temporaryName) (hd : (FileTree.directory d.top).Named)
    {root : Path} (hpaths : i.paths = [root]) (houtput : i.output = none) {l : Location}
    {content : Bytes} (hlocate : d.locate (root.join p.documentName) = .ok l)
    (hfile : d.view l = some (some content)) {r : Except Failure Transcript}
    (h : (compile i p).Leaves faulty d r e ∨ (clean i p).Leaves faulty d r e) :
    e.view l = some (some content) := by
  obtain ⟨hplain, hscript⟩ := Preferences.plain_of_fault? hfault
  have hdocument : p.documentName ∉ p.changed := by
    simp [Preferences.changed, hscript, hbackup, htemporary]
  obtain ⟨here, henters⟩ :=
    enters_of_locate hplain.document.slashless hplain.document.entry hlocate
  obtain rfl : l = here ++ [p.documentName] := by
    rw [place_of_locate hlocate, place_join d root hplain.document, henters.place_eq]
  have hfound {documents : List Path} (hfound : found i p d = .ok documents) :=
    place_of_found hd hplain.document henters hpaths hfound
  rcases h with h | h
  · rcases compile_cases houtput h with ⟨rfl, -⟩ | ⟨documents, attempts, hdocuments, hattempts, -⟩
    · exact hfile
    refine (kept_of_attemptAll (K := fun m => m.current = d.current ∧
      m.view (here ++ [p.documentName]) = some (some content)) ?_ hattempts ⟨rfl, hfile⟩).2
    rintro q hq m r m' ⟨hcurrent, hview⟩ hmake
    have hpre := hfound hdocuments q hq
    rw [← place_congr hcurrent] at hpre
    obtain ⟨hcurrent', hview'⟩ := document_of_asks asks_make
      (fun call hcall => hcall.changes hplain) hdocument hpre hview hmake
    exact ⟨hcurrent'.trans hcurrent, hview'⟩
  · rcases clean_cases h with ⟨rfl, -⟩ | ⟨documents, t, hdocuments, hclean, -⟩
    · exact hfile
    refine (kept_of_cleanAll (K := fun m => m.current = d.current ∧
      m.view (here ++ [p.documentName]) = some (some content)) ?_ hclean ⟨rfl, hfile⟩).2
    rintro q hq m r m' ⟨hcurrent, hview⟩ hpackage
    have hpre := hfound hdocuments q hq
    rw [← place_congr hcurrent] at hpre
    obtain ⟨hcurrent', hview'⟩ := document_of_asks asks_cleanPackage
      (fun call hcall => hcall.changes hplain) hdocument hpre hview hpackage
    exact ⟨hcurrent'.trans hcurrent, hview'⟩

/-- A document next to a hand-written script, which is moved aside. -/
theorem document_unharmed_compiled :
    let e := ((compile { verb := .compile, paths := [⟨"pkg"⟩] } {}).run.run packageByHand).disk
    e.view ["pkg", "wscript"] ≠ packageByHand.view ["pkg", "wscript"] ∧
      e.view ["pkg", "hscript.yml"] = some (some (Text.Utf8.encode "package: {name: p}\n")) := by
  intro e
  have hname {name : String} (hslash : Slashless name) (hidle : Path.isIdle name = false)
      (hparent : name ≠ "..") : IsName name := ⟨hslash, hidle, hparent⟩
  have hd : (FileTree.directory packageByHand.top).Named := by
    refine .directory (List.forall_mem_singleton.mpr (hname (by decide) (by decide) (by decide)))
      (List.forall_mem_singleton.mpr (.directory ?_ ?_))
    · exact List.forall_mem_cons.mpr ⟨hname (by decide) (by decide) (by decide),
        List.forall_mem_singleton.mpr (hname (by decide) (by decide) (by decide))⟩
    · exact List.forall_mem_cons.mpr ⟨.file _, List.forall_mem_singleton.mpr (.file _)⟩
  refine ⟨by decide +kernel, ?_⟩
  exact document_unharmed (by decide +kernel) (by decide) (by decide) hd rfl rfl
    (by decide +kernel) (by decide +kernel)
    (Or.inl (Program.leaves_run (fun _ => False) _ _))

/-- Preferences without a fault whose document is the backup, and others whose document is the
temporary file: cleaning up moves the one away, and compiling removes the other. -/
theorem document_harmed :
    let source := Text.Utf8.encode "package: {name: p}\n"
    let backup : Preferences := { documentName := "wscript.bak", backupSuffix := ".bak" }
    let temporary : Preferences := { documentName := ".wscript.tmp" }
    let first : Disk := { top := [("pkg", .directory [("wscript.bak", .file source)])] }
    let second : Disk := { top := [("pkg", .directory [(".wscript.tmp", .file source)])] }
    let cleaned := ((clean { verb := .clean, paths := [⟨"pkg"⟩] } backup).run.run first).disk
    let compiled :=
      ((compile { verb := .compile, paths := [⟨"pkg"⟩] } temporary).run.run second).disk
    (backup.fault? = none ∧ first.view ["pkg", "wscript.bak"] = some (some source) ∧
      cleaned.view ["pkg", "wscript.bak"] = none) ∧
    (temporary.fault? = none ∧ second.view ["pkg", ".wscript.tmp"] = some (some source) ∧
      compiled.view ["pkg", ".wscript.tmp"] = none) := by
  decide +kernel

end PackageScript
