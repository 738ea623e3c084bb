import PackageScript.Proofs.Files.Document
/-! Compiling that fails leaves what was there. -/
namespace PackageScript

namespace Disk
open PackageScript.Path

/-- The temporary file is another one, and not above its path. -/
theorem place_temporary_not_prefix (d : Disk) (p : Path) : ¬ d.place p.temporary <+: d.place p := by
  cases h : p.fileName? with
  | none =>
    have htemporary : p.temporary = p.join "..tmp" := by
      simp [temporary, withFileName, h]
    rw [htemporary, place_join d p ⟨by decide, by decide, by decide⟩]
    intro hpre
    have hlength := hpre.length_le
    rw [List.length_append, List.length_singleton] at hlength
    omega
  | some name =>
    obtain ⟨hname, parent, -, hplace, htemporary⟩ := d.place_of_fileName? h
    rw [htemporary, place_join d parent (isName_temporary hname.slashless), hplace,
      List.prefix_append_right_inj]
    exact fun hpre => Files.temporary_ne name (List.cons_prefix_cons.mp hpre).1

end Disk

namespace Files
open Disk Function Job Preferences

variable {faulty : Call → Prop} {d e m : Disk} {p : Path} {l : Location}

private theorem view_of_prepares (h : Prepares faulty d p m) :
    m.current = d.current ∧ (m.view (d.place p) = d.view (d.place p) ∨
      ".." ∈ p.segments ∧ d.view (d.place p) = none ∧ m.view (d.place p) = some none) := by
  refine ⟨h.current, (h.view (d.place p)).imp_right fun hmade => ?_⟩
  exact ⟨hmade.goesUp, hmade.before, hmade.after⟩

/-- A path holds what it held if it is not replaced after all, directories made on the way aside. -/
theorem Replaces.view_of_error {content : Bytes} {f : Failure}
    (h : Replaces faulty d p content (.error f) e) :
    e.view (d.place p) = d.view (d.place p) ∨
      ".." ∈ p.segments ∧ d.view (d.place p) = none ∧ e.view (d.place p) = some none := by
  have hwrite {m w : Disk} (hm : m.current = d.current)
      (hw : w = m ∨ m.write p.temporary content = .ok w) :
      w.current = d.current ∧ w.view (d.place p) = m.view (d.place p) := by
    rcases hw with rfl | hw
    · exact ⟨hm, rfl⟩
    · obtain ⟨l, hlocate, -, rfl⟩ := write_eq_ok.mp hw
      refine ⟨hm, view_setAt ?_⟩
      rw [place_of_locate hlocate, place_congr hm]
      exact place_temporary_not_prefix d p
  cases h with
  | unwritten hm => exact (view_of_prepares hm).2
  | removed hm hw hremove =>
    obtain ⟨hcurrent, hview⟩ := view_of_prepares hm
    obtain ⟨hcurrent', hview'⟩ := hwrite hcurrent hw
    obtain ⟨l, hlocate, -, rfl⟩ := remove_eq_ok.mp hremove
    rw [view_setAt, hview']
    · exact hview
    · rw [place_of_locate hlocate, place_congr hcurrent']
      exact place_temporary_not_prefix d p
  | abandoned hm hw =>
    obtain ⟨hcurrent, hview⟩ := view_of_prepares hm
    rw [(hwrite hcurrent (Or.inr hw)).2]
    exact hview

end Files

namespace Command
open Disk Files

/-- Whether two disks show the same but at one location, where at most nothing is left. -/
def UnchangedBut (t : Location) (d e : Disk) : Prop :=
  (∀ l, l ≠ t → e.view l = d.view l) ∧ (e.view t = d.view t ∨ e.view t = none)

variable {faulty : Call → Prop} {d e : Disk} {i : Invocation} {p : Preferences}
  {format : OutputFormat} {document : Path}

private theorem unchangedBut_of_make (hp : p.Distinct)
    (hback : ¬ faulty (.rename (p.backupPath (p.scriptPath (packageOf document)))
      (p.scriptPath (packageOf document))))
    (hdiscard : ¬ faulty (.remove (p.scriptPath (packageOf document)).temporary)) {f : Failure}
    (h : (Product.make i p format document).Leaves faulty d (.error f) e) :
    UnchangedBut (d.place (p.scriptPath (packageOf document)).temporary) d e := by
  rcases make_cases hp h with ⟨rfl, -⟩ | ⟨-, here, text, s, henters, -, -, hwrites, herror⟩
  · exact ⟨fun _ _ => rfl, Or.inl rfl⟩
  obtain ⟨g, rfl⟩ := herror.mp ⟨f, rfl⟩
  rw [d.place_temporary _ hp.toPlain, henters.place_eq]
  cases hwrites with
  | failed hview ht =>
    rw [UnchangedBut, hview]
    refine ⟨fun l hl => Function.update_of_ne hl _ _, ?_⟩
    rw [Function.update_self]
    exact ht.imp_right fun ht => ht.resolve_right hdiscard
  | stranded _ _ _ _ hfaulty => exact absurd hfaulty hback

/-- Compiling that fails leaves everything but the temporary file as it was if it compiles into a
package, whatever call made it fail, those aside that undo what was done; looks are answered from
the disk and do not fail. If it compiles into a file, it leaves what was at that path. Only where
nothing was, and on a path through `..`, a directory can have been made that stays. -/
theorem unchanged_of_failure (faulty : Call → Prop) (d e : Disk) (f : Failure) :
    (∀ (i : Invocation) (p : Preferences) (format : OutputFormat) (document : Path), p.Distinct →
      ¬ faulty (.rename (p.backupPath (p.scriptPath (packageOf document)))
        (p.scriptPath (packageOf document))) →
      ¬ faulty (.remove (p.scriptPath (packageOf document)).temporary) →
      (Product.make i p format document).Leaves faulty d (.error f) e →
      UnchangedBut (d.place (p.scriptPath (packageOf document)).temporary) d e) ∧
    ∀ (document output : Path) (format : OutputFormat),
      (compileTo document output format).Leaves faulty d (.error f) e →
      e.view (d.place output) = d.view (d.place output) ∨
        ".." ∈ output.segments ∧ d.view (d.place output) = none ∧
          e.view (d.place output) = some none := by
  refine ⟨fun i p format document hp hback hdiscard h =>
    unchangedBut_of_make hp hback hdiscard h, fun document output format h => ?_⟩
  rcases Job.leaves_bind.mp h with ⟨text, m, hcompile, hreplace⟩ | ⟨g, -, hcompile⟩
  · obtain ⟨rfl, -⟩ := leaves_compile hcompile
    exact (replaces_of_leaves hreplace).view_of_error
  · exact Or.inl (by rw [(leaves_compile hcompile).1])

/-- A directory stands where the temporary file would be written, and another one at a path that
is compiled to. -/
theorem unchanged_of_failure_blocked :
    let d : Disk := { top := [("out", .directory []), ("pkg", .directory
      [(".wscript.tmp", .directory []), ("hscript.yml", .file (Text.Utf8.encode "package: {name: p}\n")),
        ("wscript", .file (Text.Utf8.encode "mine\n"))])] }
    let e := ((Product.make { verb := .compile } {} .script ⟨"pkg/hscript.yml"⟩).run.run d).disk
    let e' := ((compileTo ⟨"pkg/hscript.yml"⟩ ⟨"out"⟩ .script).run.run d).disk
    UnchangedBut ["pkg", ".wscript.tmp"] d e ∧ e'.view ["out"] = some none := by
  intro d e e'
  have hfailed {α : Type} {r : Except Failure α} (h : r.isOk = false) : ∃ f, r = .error f := by
    cases r with
    | ok a => cases h
    | error f => exact ⟨f, rfl⟩
  obtain ⟨f, hf⟩ := hfailed (r := ((Product.make { verb := .compile } {} .script
    ⟨"pkg/hscript.yml"⟩).run.run d).result) (by decide +kernel)
  obtain ⟨g, hg⟩ := hfailed (r := ((compileTo ⟨"pkg/hscript.yml"⟩ ⟨"out"⟩ .script).run.run
    d).result) (by decide +kernel)
  have hmake := Program.leaves_run (fun _ => False)
    (Product.make { verb := .compile } {} .script ⟨"pkg/hscript.yml"⟩).run d
  have hto := Program.leaves_run (fun _ => False)
    (compileTo ⟨"pkg/hscript.yml"⟩ ⟨"out"⟩ .script).run d
  rw [hf] at hmake
  rw [hg] at hto
  have hplace : d.place (Preferences.scriptPath {} (packageOf ⟨"pkg/hscript.yml"⟩)).temporary =
      ["pkg", ".wscript.tmp"] := by decide +kernel
  have hplace' : d.place ⟨"out"⟩ = ["out"] := by decide +kernel
  have hdirectory : d.view ["out"] = some none := by decide +kernel
  constructor
  · rw [← hplace]
    exact (unchanged_of_failure (fun _ => False) d e f).1 _ _ _ _ Preferences.distinct_default id id
      hmake
  · have hunchanged := (unchanged_of_failure (fun _ => False) d e' g).2 _ _ _ hto
    rw [hplace', hdirectory] at hunchanged
    rcases hunchanged with hsame | ⟨-, ⟨⟩, -⟩
    exact hsame

/-- The directory that is made on the way to a path through `..` can be the one at that path. -/
theorem compileTo_leaves_directory :
    let d : Disk := { top := [("hscript.yml", .file (Text.Utf8.encode "package: {name: p}\n"))] }
    let run := (compileTo ⟨"hscript.yml"⟩ ⟨"a/../a"⟩ .script).run.run d
    run.result.isOk = false ∧ d.place ⟨"a/../a"⟩ = ["a"] ∧ d.view ["a"] = none ∧
      run.disk.view ["a"] = some none := by
  decide +kernel

end Command

end PackageScript
