import PackageScript.Proofs.Files.Aside
import PackageScript.Proofs.Files.Replacing
/-! How writing a script in its package ends. -/
namespace PackageScript.Files
open Disk Function Job Preferences

/-- How writing a script in its package ends. A script that is moved aside is a hand-written one,
and is moved back after a failure if the call that does so can succeed. -/
inductive Writes (faulty : Call → Prop) (p : Preferences) (package : Path) (here : Location)
    (content : Bytes) (keep : Bool) (d : Disk) : Except Failure Written → Disk → Prop
  | written {e : Disk} :
      (keep = true → ∀ old, d.view (p.scriptIn here) = some (some old) → ¬ HandWritten old) →
      checkEntry (p.scriptPath package) p.scriptName = .ok () →
      e.view = update (update d.view (p.temporaryIn here) none) (p.scriptIn here)
        (some (some content)) →
      Writes faulty p package here content keep d (.ok ⟨p.scriptPath package, false⟩) e
  | moved {old : Bytes} {e : Disk} : keep = true →
      d.view (p.scriptIn here) = some (some old) → HandWritten old →
      d.view (p.backupIn here) = none →
      checkEntry (p.scriptPath package) p.scriptName = .ok () →
      checkEntry (p.backupPath (p.scriptPath package)) p.backupName = .ok () →
      e.view = update (update (update d.view (p.backupIn here) (some (some old)))
        (p.temporaryIn here) none) (p.scriptIn here) (some (some content)) →
      Writes faulty p package here content keep d (.ok ⟨p.scriptPath package, true⟩) e
  | failed {f : Failure} {t : Option (Option Bytes)} {e : Disk} :
      e.view = update d.view (p.temporaryIn here) t →
      t = d.view (p.temporaryIn here) ∨ t = none ∨
        faulty (.remove (p.scriptPath package).temporary) →
      Writes faulty p package here content keep d (.error f) e
  | stranded {f : Failure} {old : Bytes} {t : Option (Option Bytes)} {e : Disk} : keep = true →
      d.view (p.scriptIn here) = some (some old) → HandWritten old →
      d.view (p.backupIn here) = none →
      faulty (.rename (p.backupPath (p.scriptPath package)) (p.scriptPath package)) →
      e.view = update (update (update d.view (p.backupIn here) (some (some old)))
        (p.temporaryIn here) t) (p.scriptIn here) none →
      Writes faulty p package here content keep d (.error f) e

variable {faulty : Call → Prop} {p : Preferences} {package : Path} {here : Location}
  {content : Bytes} {keep : Bool} {d e : Disk}

private theorem replaces_script (hp : p.Distinct) (henters : d.Enters package here)
    {r : Except Failure Unit} (h : (replace (p.scriptPath package) content).Leaves faulty d r e) :
    d.Keeps e ∧
      (r = .ok () ∧ checkEntry (p.scriptPath package) p.scriptName = .ok () ∧
          e.view = update (update d.view (p.temporaryIn here) none) (p.scriptIn here)
            (some (some content)) ∨
        (∃ f, r = .error f) ∧ ∃ t, e.view = update d.view (p.temporaryIn here) t ∧
          (t = d.view (p.temporaryIn here) ∨ t = none ∨
            faulty (.remove (p.scriptPath package).temporary))) :=
  (replaces_of_leaves h).view (henters.leads_script hp.toPlain) hp.script.slashless

private theorem leaves_undo {script backup : Path} {moved : Bool} {f : Failure}
    {r : Except Failure Unit} (h : Job.Leaves faulty (do
      if moved then restore script backup
      throw f) d r e) :
    (∃ g, r = .error g) ∧ (moved = false ∧ e = d ∨ moved = true ∧
      (d.rename backup script = .ok e ∨ e = d ∧ d.Refuses faulty (.rename backup script))) := by
  cases moved with
  | false =>
    obtain ⟨rfl, rfl⟩ := leaves_throw.mp h
    exact ⟨⟨f, rfl⟩, Or.inl ⟨rfl, rfl⟩⟩
  | true =>
    rcases leaves_bind.mp h with ⟨⟨⟩, m, hrestore, hthrow⟩ | ⟨g, rfl, hrestore⟩
    · obtain ⟨rfl, rfl⟩ := leaves_throw.mp hthrow
      obtain ⟨-, hrename⟩ | ⟨⟨_, ⟨⟩⟩, -⟩ := leaves_restore hrestore
      exact ⟨⟨f, rfl⟩, Or.inr ⟨rfl, Or.inl hrename⟩⟩
    · obtain ⟨⟨⟩, -⟩ | ⟨-, hrefuses⟩ := leaves_restore hrestore
      exact ⟨⟨g, rfl⟩, Or.inr ⟨rfl, Or.inr hrefuses⟩⟩

private theorem leaves_replace_or_undo {script backup : Path} {moved : Bool}
    {r : Except Failure Written} (h : Job.Leaves faulty (do
      tryCatch (replace script content) fun failure => do
        if moved then restore script backup
        throw failure
      return (⟨script, moved⟩ : Written)) d r e) :
    r = .ok ⟨script, moved⟩ ∧ (replace script content).Leaves faulty d (.ok ()) e ∨
      (∃ f, r = .error f) ∧ ∃ f m, (replace script content).Leaves faulty d (.error f) m ∧
        (moved = false ∧ e = m ∨ moved = true ∧ (m.rename backup script = .ok e ∨
          e = m ∧ m.Refuses faulty (.rename backup script))) := by
  rcases leaves_bind.mp h with ⟨⟨⟩, m, htry, hlast⟩ | ⟨f, rfl, htry⟩
  · obtain ⟨rfl, rfl⟩ := leaves_pure.mp hlast
    rcases leaves_tryCatch.mp htry with ⟨_, -, hreplace⟩ | ⟨f, m, -, hundo⟩
    · exact Or.inl ⟨rfl, hreplace⟩
    · obtain ⟨⟨_, ⟨⟩⟩, -⟩ := leaves_undo hundo
  · rcases leaves_tryCatch.mp htry with ⟨_, ⟨⟩, -⟩ | ⟨g, m, hreplace, hundo⟩
    exact Or.inr ⟨⟨f, rfl⟩, g, m, hreplace, (leaves_undo hundo).2⟩

private theorem update_moved_back {view : Location → Option (Option Bytes)}
    {script backup temporary : Location} {old t : Option (Option Bytes)} (hsb : script ≠ backup)
    (hst : script ≠ temporary) (hbt : backup ≠ temporary) (hold : view script = old)
    (hfree : view backup = none) :
    update (update (update (update (update view backup old) temporary t) script none) backup none)
      script old = update view temporary t := by
  have hscript : update view script old = view := hold ▸ update_eq_self script view
  have hbackup : update view backup none = view := hfree ▸ update_eq_self backup view
  rw [update_comm hsb, update_idem, update_comm hbt, update_idem, update_comm hbt.symm, hbackup,
    update_comm hst.symm, hscript]

section Package

variable (hp : p.Distinct) (henters : d.Enters package here)
include hp henters

private theorem writes_unmoved {r : Except Failure Written}
    (hguard : keep = true → checkEntry (p.scriptPath package) p.scriptName = .ok () →
      ∀ old, d.view (p.scriptIn here) = some (some old) → ¬ HandWritten old)
    (h : Job.Leaves faulty (do
      tryCatch (replace (p.scriptPath package) content) fun failure => do
        if false then restore (p.scriptPath package) (p.backupPath (p.scriptPath package))
        throw failure
      return (⟨p.scriptPath package, false⟩ : Written)) d r e) :
    d.Keeps e ∧ Writes faulty p package here content keep d r e := by
  rcases leaves_replace_or_undo h with ⟨rfl, hreplace⟩ |
    ⟨⟨f, rfl⟩, _, m, hreplace, ⟨-, rfl⟩ | ⟨⟨⟩, -⟩⟩
  · obtain ⟨hkeeps, ⟨-, hcheck, hview⟩ | ⟨⟨_, ⟨⟩⟩, -⟩⟩ := replaces_script hp henters hreplace
    exact ⟨hkeeps, .written (fun hkeep => hguard hkeep hcheck) hcheck hview⟩
  · obtain ⟨hkeeps, ⟨⟨⟩, -⟩ | ⟨-, t, hview, ht⟩⟩ := replaces_script hp henters hreplace
    exact ⟨hkeeps, .failed hview ht⟩

private theorem writes_moved {old : Bytes} {m : Disk} {r : Except Failure Written}
    (hread : d.read (p.scriptPath package) = .ok old) (hhand : HandWritten old)
    (hnone : d.kind? (p.backupPath (p.scriptPath package)) = none)
    (hrename : d.rename (p.scriptPath package) (p.backupPath (p.scriptPath package)) = .ok m)
    (h : Job.Leaves faulty (do
      tryCatch (replace (p.scriptPath package) content) fun failure => do
        if true then restore (p.scriptPath package) (p.backupPath (p.scriptPath package))
        throw failure
      return (⟨p.scriptPath package, true⟩ : Written)) m r e) :
    d.Keeps e ∧ Writes faulty p package here content true d r e := by
  have hscript := henters.leads_script hp.toPlain
  have hbackup := henters.leads_backup hp.toPlain
  obtain ⟨-, hold⟩ := (read_of_leads hscript).mp hread
  obtain ⟨hcheck, hcheck', hmoved⟩ :=
    moved_of_rename hscript hbackup hp.script_ne_backup hrename
  have hfree := (kind?_eq_none hbackup).mp hnone hcheck'
  have hkeeps := hmoved.keeps (not_hasDirectory hold)
  have hview := hmoved.view_eq hold
  have hst := hp.scriptIn_ne_temporaryIn here
  have hsb := hp.scriptIn_ne_backupIn here
  have hbt := hp.backupIn_ne_temporaryIn here
  rw [← scriptIn, ← backupIn, update_comm hsb] at hview
  rcases leaves_replace_or_undo h with ⟨rfl, hreplace⟩ |
    ⟨⟨f, rfl⟩, _, n, hreplace, ⟨⟨⟩, -⟩ | ⟨-, hback⟩⟩
  · obtain ⟨hkeeps', ⟨-, -, hview'⟩ | ⟨⟨_, ⟨⟩⟩, -⟩⟩ :=
      replaces_script hp (henters.keeps hkeeps) hreplace
    rw [hview, update_comm hst, update_idem] at hview'
    exact ⟨hkeeps.trans hkeeps', .moved rfl hold hhand hfree hcheck hcheck' hview'⟩
  · obtain ⟨hkeeps', ⟨⟨⟩, -⟩ | ⟨-, t, hview', ht⟩⟩ :=
      replaces_script hp (henters.keeps hkeeps) hreplace
    have hkept := hkeeps.trans hkeeps'
    rw [hview, update_comm hst] at hview'
    have hfile : n.view (p.backupIn here) = some (some old) := by
      rw [hview', update_of_ne hsb.symm, update_of_ne hbt, update_self]
    rcases hback with hback | ⟨rfl, hrefuses⟩
    · -- The script is moved back, so all that is left is the change to the temporary file.
      obtain ⟨-, -, hreturned⟩ :=
        moved_of_rename (hbackup.keeps hkept) (hscript.keeps hkept) hp.script_ne_backup.symm hback
      have hview'' := hreturned.view_eq hfile
      rw [← scriptIn, ← backupIn, hview', update_moved_back hsb hst hbt hold hfree] at hview''
      have htemporary : m.view (p.temporaryIn here) = d.view (p.temporaryIn here) := by
        rw [hview, update_of_ne hst.symm, update_of_ne hbt.symm]
      rw [htemporary] at ht
      exact ⟨hkept.trans (hreturned.keeps (not_hasDirectory hfile)), .failed hview'' ht⟩
    · have hunfree : ¬ e.HasDirectory (p.scriptIn here) := by
        simp [HasDirectory, hview']
      obtain ⟨e', he'⟩ := exists_rename (hbackup.keeps hkept) (hscript.keeps hkept)
        hp.script_ne_backup.symm hcheck' hcheck hfile hunfree
      exact ⟨hkept, .stranded rfl hold hhand hfree (faulty_rename hrefuses he') hview'⟩

/-- Writing a script in its package ends in one of these ways, whichever calls fail, and removes no
directory. -/
theorem writes_of_leaves {text : String} {r : Except Failure Written}
    (h : (writeScript p package text keep).Leaves faulty d r e) :
    d.Keeps e ∧ Writes faulty p package here (Text.Utf8.encode text) keep d r e := by
  have hscript := henters.leads_script hp.toPlain
  rw [writeScript] at h
  cases keep with
  | false =>
    rcases leaves_bind.mp h with ⟨outcome, m, haside, hwrite⟩ | ⟨f, -, haside⟩
    · obtain ⟨⟨⟩, rfl⟩ := leaves_pure.mp haside
      exact writes_unmoved hp henters nofun hwrite
    · cases (leaves_pure.mp haside).1
  | true =>
    rcases leaves_bind.mp h with ⟨outcome, m, haside, hwrite⟩ | ⟨f, rfl, haside⟩
    · cases movesAside_of_leaves haside with
      | absent hnone =>
        refine writes_unmoved hp henters (fun _ hcheck old hold => ?_) hwrite
        rw [scriptIn, (kind?_eq_none hscript).mp hnone hcheck] at hold
        cases hold
      | generated hread hmark =>
        refine writes_unmoved hp henters (fun _ _ old hold => ?_) hwrite
        obtain ⟨-, hview⟩ := (read_of_leads hscript).mp hread
        rw [scriptIn, hview] at hold
        cases hold
        exact hmark
      | moved hread hhand hnone hrename =>
        exact writes_moved hp henters hread hhand hnone hrename hwrite
    · cases movesAside_of_leaves haside
      exact ⟨.refl d, .failed (update_eq_self _ _).symm (Or.inl rfl)⟩

end Package

end PackageScript.Files
