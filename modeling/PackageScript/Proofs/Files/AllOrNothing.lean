import PackageScript.Proofs.Files.Replacing
/-! Replacing a file is all or nothing: it shows the new content and no temporary file is left, or
everything is as it was. Directories that are made on the way stay in both cases. -/
namespace PackageScript

namespace Disk

/-- Whether one disk shows what another one showed but at some locations, and but for directories
made on the way to a path. -/
def KeptBut (changed : List Location) (d e : Disk) (p : Path) : Prop :=
  ∀ l ∉ changed, e.view l = d.view l ∨ d.MadeAbove e p l

private theorem MadeAbove.congr {d m e : Disk} {p : Path} {l : Location} (h : d.MadeAbove m p l)
    (hview : e.view l = m.view l) : d.MadeAbove e p l :=
  ⟨h.before, hview.trans h.after, h.ancestor⟩

end Disk

namespace Files
open Disk Function Job

variable {faulty : Call → Prop} {d e : Disk} {p : Path} {content : Bytes}

/-- What is left of a replacement that succeeds: the path is a file with the content, nothing is at
the temporary one, and all else is as it was. -/
structure Whole (d e : Disk) (p : Path) (content : Bytes) : Prop where
  read : e.read p = .ok content
  file : e.view (d.place p) = some (some content)
  temporary : e.view (d.place p.temporary) = none
  elsewhere : KeptBut [d.place p, d.place p.temporary] d e p

/-- What is left of a replacement that fails: what was at the path, all else as it was, and no
temporary file that was not there before, if it can be removed. Only on the way through `..` a
directory can have been made at the path itself. -/
structure Untouched (faulty : Call → Prop) (d e : Disk) (p : Path) : Prop where
  kept : e.view (d.place p) = d.view (d.place p) ∨
    ".." ∈ p.segments ∧ d.MadeAbove e p (d.place p)
  temporary : faulty (.remove p.temporary) ∨ e.view (d.place p.temporary) = none ∨
    e.view (d.place p.temporary) = d.view (d.place p.temporary) ∨
      d.MadeAbove e p (d.place p.temporary)
  elsewhere : KeptBut [d.place p.temporary] d e p

variable {m : Disk}

private theorem whole_of_view (hm : Prepares faulty d p m)
    (hne : d.place p.temporary ≠ d.place p) (hread : e.read p = .ok content)
    (hview : e.view = update (update m.view (d.place p.temporary) none) (d.place p)
      (some (some content))) : Whole d e p content where
  read := hread
  file := by rw [hview, update_self]
  temporary := by rw [hview, update_of_ne hne, update_self]
  elsewhere := by
    intro l hl
    obtain ⟨hp, ht⟩ := not_or.mp (List.mem_pair.not.mp hl)
    have hsame : e.view l = m.view l := by rw [hview, update_of_ne hp, update_of_ne ht]
    rw [hsame]
    exact (hm.view l).imp_right fun hmade => hmade.congr hsame

private theorem untouched_of_view (hm : Prepares faulty d p m)
    (hne : d.place p.temporary ≠ d.place p) {t : Option (Option Bytes)}
    (hview : e.view = update m.view (d.place p.temporary) t)
    (ht : t = m.view (d.place p.temporary) ∨ t = none ∨ faulty (.remove p.temporary)) :
    Untouched faulty d e p := by
  have helsewhere : KeptBut [d.place p.temporary] d e p := by
    intro l hl
    have hsame : e.view l = m.view l := by rw [hview, update_of_ne (by simpa using hl)]
    rw [hsame]
    exact (hm.view l).imp_right fun hmade => hmade.congr hsame
  refine ⟨?_, ?_, helsewhere⟩
  · exact (helsewhere (d.place p) (by simpa using hne.symm)).imp_right fun hmade =>
      ⟨hmade.goesUp, hmade⟩
  · have hself : e.view (d.place p.temporary) = t := by rw [hview, update_self]
    rcases ht with hsame | hnone | hfaulty
    · rw [hself, hsame]
      exact Or.inr (Or.inr ((hm.view _).imp_right fun hmade => hmade.congr (hself.trans hsame)))
    · exact Or.inr (Or.inl (hself.trans hnone))
    · exact Or.inl hfaulty

/-- Replacing a file with a name leaves the new content as a whole, or nothing of it, on any disk and
whichever calls fail. Its temporary file is beside it. -/
theorem all_or_nothing {name : String} {r : Except Failure Unit} (hname : p.fileName? = some name)
    (h : (replace p content).Leaves faulty d r e) :
    (∃ here, d.place p = here ++ [name] ∧
      d.place p.temporary = here ++ ["." ++ name ++ ".tmp"]) ∧
      (r = .ok () ∧ Whole d e p content ∨ (∃ f, r = .error f) ∧ Untouched faulty d e p) := by
  obtain ⟨hisName, parent, -, hplace, htemporary⟩ := d.place_of_fileName? hname
  have hbeside : d.place p.temporary = d.place parent ++ ["." ++ name ++ ".tmp"] := by
    rw [htemporary, place_join d parent (isName_temporary hisName.slashless)]
  have hne : d.place p.temporary ≠ d.place p := by
    rw [hbeside, hplace]
    simpa using temporary_ne name
  refine ⟨⟨d.place parent, hplace, hbeside⟩, ?_⟩
  obtain ⟨m, hm, -, ⟨rfl, hread, hview⟩ | ⟨hfailed, t, hview, ht⟩⟩ :=
    (replaces_of_leaves h).view_of_fileName? hname
  · exact Or.inl ⟨rfl, whole_of_view hm hne hread hview⟩
  · exact Or.inr ⟨hfailed, untouched_of_view hm hne hview ht⟩

/-- The directories above one file are missing, and a full directory is in the way of another. -/
theorem all_or_nothing_blocked :
    let d : Disk := { top := [("full", .directory [("keep", .file [120])])] }
    let e := ((replace ⟨"nested/dir/wscript"⟩ [121]).run.run d).disk
    let e' := ((replace ⟨"full"⟩ [121]).run.run d).disk
    Whole d e ⟨"nested/dir/wscript"⟩ [121] ∧ Untouched (fun _ => False) d e' ⟨"full"⟩ := by
  intro d e e'
  have hname : Path.fileName? ⟨"nested/dir/wscript"⟩ = some "wscript" := by decide +kernel
  have hname' : Path.fileName? ⟨"full"⟩ = some "full" := by decide +kernel
  have hleaves := Program.leaves_run (fun _ => False) (replace ⟨"nested/dir/wscript"⟩ [121]).run d
  have hleaves' := Program.leaves_run (fun _ => False) (replace ⟨"full"⟩ [121]).run d
  constructor
  · rcases (all_or_nothing hname hleaves).2 with ⟨-, hwhole⟩ | ⟨⟨f, hf⟩, -⟩
    · exact hwhole
    · have hok : ((replace ⟨"nested/dir/wscript"⟩ [121]).run.run d).result.isOk = true := by
        decide +kernel
      rw [hf] at hok
      cases hok
  · rcases (all_or_nothing hname' hleaves').2 with ⟨hf, -⟩ | ⟨-, huntouched⟩
    · have hfailed : ((replace ⟨"full"⟩ [121]).run.run d).result.isOk = false := by
        decide +kernel
      rw [hf] at hfailed
      cases hfailed
    · exact huntouched

/-- The directory that is made on the way to a path through `..` can be at that path, and is in the
way of the file. -/
theorem replace_blocks_itself :
    let d : Disk := { top := [] }
    let run := (replace ⟨"a/../a"⟩ [121]).run.run d
    run.result.isOk = false ∧ d.kind? ⟨"a/../a"⟩ = none ∧
      run.disk.kind? ⟨"a/../a"⟩ = some .directory := by
  decide +kernel

end Files

end PackageScript
