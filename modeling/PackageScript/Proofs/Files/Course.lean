import PackageScript.Proofs.Files.Commands
import PackageScript.Proofs.Script.Marked
/-! Compiling and cleaning up undo each other, over courses of any length. -/
namespace PackageScript

open Job Files Disk Command Function Preferences

/-- Whether a command is given one document of a package, and the document is there. The path of
the package may be spelled in several ways. -/
structure Given (p : Preferences) (spelled : Path → Prop) (here : Location) (d : Disk)
    (i : Invocation) (document : Path) : Prop where
  found : found i p d = .ok [document]
  spelled : spelled (packageOf document)
  place : d.place (packageOf document) = here
  present : ∃ content, d.read document = .ok content

/-- A command that compiles into a package and keeps backups. -/
structure CompilesInto (p : Preferences) (spelled : Path → Prop) (here : Location) (d : Disk)
    (i : Invocation) (document : Path) : Prop extends Given p spelled here d i document where
  keeps : i.has .noBackup = false
  toScript : i.has .toOutput = false
  toPackage : i.output = none

def compiled (i : Invocation) (p : Preferences) (d : Disk) : Run (Except Failure Transcript) :=
  (compile i p).run.run d

def cleaned (i : Invocation) (p : Preferences) (d : Disk) : Run (Except Failure Transcript) :=
  (Command.clean i p).run.run d

def generated (i : Invocation) (p : Preferences) (document : Path) (d : Disk) :
    Except Failure String :=
  ((Files.compile document (i.format.getD p.format)).run.run d).result

def Succeeds (r : Except Failure Transcript) : Prop :=
  ∃ t, r = .ok t ∧ t.failure = none

instance (r : Except Failure Transcript) : Decidable (Succeeds r) :=
  match r with
  | .ok t => decidable_of_iff (t.failure = none) ⟨fun h => ⟨t, rfl, h⟩, by rintro ⟨_, ⟨⟩, h⟩; exact h⟩
  | .error _ => isFalse nofun

/-- A course of commands on one package, with changes in between that spare its script and its
backup. It goes along with the last text that was generated and not cleaned up. -/
inductive Course (p : Preferences) (spelled : Path → Prop) (here : Location) (start : Disk) :
    Option String → Disk → Prop
  | start : Course p spelled here start none start
  | compiled {left : Option String} {d : Disk} {i : Invocation} {document : Path} {text : String} :
      Course p spelled here start left d → CompilesInto p spelled here d i document →
      Succeeds (compiled i p d).result → generated i p document d = .ok text →
      Course p spelled here start (some text) (compiled i p d).disk
  | failed {left : Option String} {d : Disk} {i : Invocation} {document : Path} :
      Course p spelled here start left d → CompilesInto p spelled here d i document →
      ¬ Succeeds (PackageScript.compiled i p d).result →
      Course p spelled here start left (PackageScript.compiled i p d).disk
  | cleaned {left : Option String} {d : Disk} {i : Invocation} {document : Path} :
      Course p spelled here start left d → Given p spelled here d i document →
      i.has .dropBackup = false → Course p spelled here start none (cleaned i p d).disk
  | edited {left : Option String} {d : Disk} (e : Disk) : Course p spelled here start left d →
      e.current = d.current → e.view (p.scriptIn here) = d.view (p.scriptIn here) →
      e.view (p.backupIn here) = d.view (p.backupIn here) → Course p spelled here start left e

/-- How a package stands: as at the start, or with a generated script whose backup is the script
that was there at the start, if one was. -/
def Stands (p : Preferences) (here : Location) (start : Disk) (left : Option String) (d : Disk) :
    Prop :=
  match left with
  | none => d.view (p.scriptIn here) = start.view (p.scriptIn here) ∧
      d.view (p.backupIn here) = none
  | some text => d.view (p.scriptIn here) = some (some (Text.Utf8.encode text)) ∧
      d.view (p.backupIn here) = start.view (p.scriptIn here)

/-- The packages that a course can start from: without a backup, and without a script or with a
hand-written one. -/
def Clear (p : Preferences) (here : Location) (d : Disk) : Prop :=
  d.view (p.backupIn here) = none ∧
    ∀ v, d.view (p.scriptIn here) = some v → ∃ old, v = some old ∧ HandWritten old

/-- Whether a script can be asked for in a spelling, as far as the length of its path goes. -/
def ScriptFits (p : Preferences) (package : Path) : Prop :=
  checkEntry (p.scriptPath package) p.scriptName = .ok ()

def BackupFits (p : Preferences) (package : Path) : Prop :=
  checkEntry (p.backupPath (p.scriptPath package)) p.backupName = .ok ()

instance (p : Preferences) (package : Path) : Decidable (ScriptFits p package) :=
  inferInstanceAs (Decidable (_ = _))

instance (p : Preferences) (package : Path) : Decidable (BackupFits p package) :=
  inferInstanceAs (Decidable (_ = _))

/-- Whether all spellings of a package fit if one of them does. -/
def Alike (p : Preferences) (spelled : Path → Prop) : Prop :=
  ∀ q q', spelled q → spelled q' →
    (ScriptFits p q → ScriptFits p q') ∧ (BackupFits p q → BackupFits p q')

private structure Holds (p : Preferences) (spelled : Path → Prop) (here : Location) (start : Disk)
    (left : Option String) (d : Disk) : Prop where
  current : d.current = start.current
  stands : Stands p here start left d
  marked : ∀ text, left = some text → ¬ HandWritten (Text.Utf8.encode text)
  script : left ≠ none → ∀ q, spelled q → ScriptFits p q
  backup : left ≠ none → start.view (p.scriptIn here) ≠ none → ∀ q, spelled q → BackupFits p q

section Steps

variable {p : Preferences} {spelled : Path → Prop} {here : Location} {start d e : Disk}
  {left : Option String} {i : Invocation} {package document : Path}

private theorem Holds.of_views (h : Holds p spelled here start left d)
    (hcurrent : e.current = d.current)
    (hscript : e.view (p.scriptIn here) = d.view (p.scriptIn here))
    (hbackup : e.view (p.backupIn here) = d.view (p.backupIn here)) :
    Holds p spelled here start left e where
  current := hcurrent.trans h.current
  stands := by
    have hstands := h.stands
    cases left with
    | none => exact ⟨hscript.trans hstands.1, hbackup.trans hstands.2⟩
    | some text => exact ⟨hscript.trans hstands.1, hbackup.trans hstands.2⟩
  marked := h.marked
  script := h.script
  backup := h.backup

private theorem Holds.backup_eq (h : Holds p spelled here start left d)
    (hclear : Clear p here start)
    (hguard : ∀ old, d.view (p.scriptIn here) = some (some old) → ¬ HandWritten old) :
    d.view (p.backupIn here) = start.view (p.scriptIn here) ∧
      (start.view (p.scriptIn here) ≠ none → ∀ q, spelled q → BackupFits p q) := by
  cases left with
  | some text => exact ⟨h.stands.2, h.backup nofun⟩
  | none =>
    obtain ⟨hscript, hbackup⟩ := h.stands
    have hnone : start.view (p.scriptIn here) = none := by
      rw [← hscript]
      cases hview : d.view (p.scriptIn here) with
      | none => rfl
      | some v =>
        obtain ⟨old, rfl, hhand⟩ := hclear.2 v (hscript ▸ hview)
        exact absurd hhand (hguard old hview)
    exact ⟨hbackup.trans hnone.symm, fun hne => absurd hnone hne⟩

private theorem Holds.script_eq (h : Holds p spelled here start left d) {old : Bytes}
    (hold : d.view (p.scriptIn here) = some (some old)) (hhand : HandWritten old) :
    start.view (p.scriptIn here) = d.view (p.scriptIn here) := by
  cases left with
  | none => exact h.stands.1.symm
  | some text =>
    rw [h.stands.1] at hold
    cases hold
    exact absurd hhand (h.marked text rfl)

private theorem holds_of_writes (hp : p.Distinct) (hclear : Clear p here start)
    (halike : Alike p spelled) (h : Holds p spelled here start left d) (hpackage : spelled package)
    {text : String} (hmark : ¬ HandWritten (Text.Utf8.encode text)) {s : Except Failure Written}
    (hkeeps : d.Keeps e)
    (hwrites : Writes (fun _ => False) p package here (Text.Utf8.encode text) true d s e) :
    (∃ f, s = .error f) ∧ Holds p spelled here start left e ∨
      (∃ w, s = .ok w) ∧ Holds p spelled here start (some text) e := by
  have hst := hp.scriptIn_ne_temporaryIn here
  have hsb := hp.scriptIn_ne_backupIn here
  have hbt := hp.backupIn_ne_temporaryIn here
  have hcurrent := hkeeps.current.trans h.current
  have hmarked : ∀ other, some text = some other → ¬ HandWritten (Text.Utf8.encode other) := by
    rintro _ ⟨⟩
    exact hmark
  cases hwrites with
  | written hguard hcheck hview =>
    obtain ⟨hbackup, hfits⟩ := h.backup_eq hclear (hguard rfl)
    refine Or.inr ⟨⟨_, rfl⟩, hcurrent, ⟨?_, ?_⟩, hmarked,
      fun _ q hq => (halike package q hpackage hq).1 hcheck, fun _ => hfits⟩
    · rw [hview, update_self]
    · rw [hview, update_of_ne hsb.symm, update_of_ne hbt, hbackup]
  | moved _ hold hhand hfree hcheck hcheck' hview =>
    refine Or.inr ⟨⟨_, rfl⟩, hcurrent, ⟨?_, ?_⟩, hmarked,
      fun _ q hq => (halike package q hpackage hq).1 hcheck,
      fun _ _ q hq => (halike package q hpackage hq).2 hcheck'⟩
    · rw [hview, update_self]
    · rw [hview, update_of_ne hsb.symm, update_of_ne hbt, update_self, h.script_eq hold hhand, hold]
  | failed hview =>
    refine Or.inl ⟨⟨_, rfl⟩, h.of_views hkeeps.current ?_ ?_⟩
    · rw [hview, update_of_ne hst]
    · rw [hview, update_of_ne hbt]
  | stranded _ _ _ _ hfaulty => exact hfaulty.elim

private theorem holds_of_make (hp : p.Distinct) (hclear : Clear p here start)
    (halike : Alike p spelled) (h : Holds p spelled here start left d)
    (hinto : CompilesInto p spelled here d i document) {format : OutputFormat}
    {r : Except Failure Product}
    (hmake : (Product.make i p format document).Leaves (fun _ => False) d r e) :
    (∃ f, r = .error f) ∧ Holds p spelled here start left e ∨
      (∃ made, r = .ok made) ∧ ∃ text, Holds p spelled here start (some text) e ∧
        ((Files.compile document format).run.run d).result = .ok text := by
  rcases make_cases hp hmake with ⟨rfl, hfailed | houtput⟩ |
    ⟨-, l, text, s, henters, hcompile, hkeeps, hwrites, herror⟩
  · exact Or.inl ⟨hfailed, h⟩
  · rw [hinto.toScript] at houtput
    cases houtput
  obtain ⟨-, htext⟩ := leaves_compile hcompile
  obtain ⟨_, source, -, -, houtcome⟩ := htext text rfl
  have hmark : ¬ HandWritten (Text.Utf8.encode text) := by
    simp [HandWritten, isGenerated_of_compileText houtcome]
  rw [← henters.place_eq, hinto.place, hinto.keeps] at hwrites
  rcases holds_of_writes hp hclear halike h hinto.spelled hmark hkeeps hwrites with
    ⟨hfailed, hholds⟩ | ⟨⟨w, rfl⟩, hholds⟩
  · exact Or.inl ⟨herror.mpr hfailed, hholds⟩
  · refine Or.inr ⟨?_, text, hholds, (Program.run_of_leaves hcompile).1⟩
    cases r with
    | ok made => exact ⟨made, rfl⟩
    | error f =>
      obtain ⟨_, ⟨⟩⟩ := herror.mp ⟨f, rfl⟩

private theorem holds_of_settles (hp : p.Distinct) (henters : d.Enters package here)
    (hcurrent : d.current = start.current) (hclear : Clear p here start)
    (hcheck : ScriptFits p package) (hcheck' : start.view (p.scriptIn here) ≠ none → BackupFits p package)
    (hscript : d.view (p.scriptIn here) = none)
    (hbackup : d.view (p.backupIn here) = start.view (p.scriptIn here)) {removed : Bool}
    {r : Except Failure CleanOutcome}
    (h : Settles (fun _ => False) d (p.scriptPath package) (p.backupPath (p.scriptPath package))
      removed false r e) : Holds p spelled here start none e := by
  have hleads := henters.leads_script hp.toPlain
  have hleads' := henters.leads_backup hp.toPlain
  have hpresent (hkind : d.kind? (p.backupPath (p.scriptPath package)) ≠ none) :
      start.view (p.scriptIn here) ≠ none := by
    intro hnone
    exact hkind ((kind?_eq_none hleads').mpr fun _ => hbackup.trans hnone)
  have hnone {e : Disk} (hcurrent : e.current = start.current)
      (hview : e.view (p.scriptIn here) = start.view (p.scriptIn here))
      (hview' : e.view (p.backupIn here) = none) : Holds p spelled here start none e :=
    ⟨hcurrent, ⟨hview, hview'⟩, nofun, fun h => absurd rfl h, fun h => absurd rfl h⟩
  cases h with
  | absent hkind =>
    have hstart : start.view (p.scriptIn here) = none := by
      by_contra hne
      exact hne (hbackup ▸ (kind?_eq_none hleads').mp hkind (hcheck' hne))
    exact hnone hcurrent (hscript.trans hstart.symm) (hbackup.trans hstart)
  | restored _ hrename =>
    obtain ⟨-, -, hmoved⟩ := moved_of_rename hleads' hleads hp.script_ne_backup.symm hrename
    exact hnone (hmoved.current.trans hcurrent) (hmoved.target.trans hbackup) hmoved.source
  | unrestored hkind hrefuses =>
    have hfile : ∃ old, d.view (p.backupIn here) = some (some old) := by
      rw [hbackup]
      cases hview : start.view (p.scriptIn here) with
      | none => exact absurd hview (hpresent hkind)
      | some v =>
        obtain ⟨old, rfl, -⟩ := hclear.2 v hview
        exact ⟨old, rfl⟩
    obtain ⟨old, hold⟩ := hfile
    obtain ⟨e', he'⟩ := exists_rename hleads' hleads hp.script_ne_backup.symm
      (hcheck' (hpresent hkind)) hcheck hold (not_hasDirectory_of_none hscript)
    exact (faulty_rename hrefuses he').elim

private theorem holds_of_cleans_none (hp : p.Distinct) (henters : d.Enters package here)
    (hclear : Clear p here start) (h : Holds p spelled here start none d)
    {r : Except Failure CleanOutcome}
    (hcleans : Cleans (fun _ => False) d (p.scriptPath package)
      (p.backupPath (p.scriptPath package)) false r e) : Holds p spelled here start none e := by
  obtain ⟨hscript, hbackup⟩ := h.stands
  cases hcleans with
  | kept => exact h
  | absent _ hsettles =>
    have hnone : d.kind? (p.backupPath (p.scriptPath package)) = none :=
      (kind?_eq_none (henters.leads_backup hp.toPlain)).mpr fun _ => hbackup
    cases hsettles with
    | absent => exact h
    | restored hkind => exact absurd hnone hkind
    | unrestored => exact h
  | removed hread hmark =>
    obtain ⟨-, hview⟩ := (read_of_leads (henters.leads_script hp.toPlain)).mp hread
    obtain ⟨old, heq, hhand⟩ := hclear.2 _ (hscript ▸ hview)
    cases heq
    exact absurd hhand hmark
  | unread => exact h
  | unremoved => exact h

private theorem holds_of_cleans_some (hp : p.Distinct) (henters : d.Enters package here)
    (hclear : Clear p here start) {text : String} (h : Holds p spelled here start (some text) d)
    (hpackage : spelled package) {r : Except Failure CleanOutcome}
    (hcleans : Cleans (fun _ => False) d (p.scriptPath package)
      (p.backupPath (p.scriptPath package)) false r e) : Holds p spelled here start none e := by
  have hleads := henters.leads_script hp.toPlain
  obtain ⟨hscript, hbackup⟩ := h.stands
  have hcheck := h.script nofun package hpackage
  have hread' := (read_of_leads hleads).mpr ⟨hcheck, hscript⟩
  cases hcleans with
  | kept hread hhand =>
    rw [hread'] at hread
    cases hread
    exact absurd hhand (h.marked text rfl)
  | absent hkind =>
    have hnone := (kind?_eq_none hleads).mp hkind hcheck
    rw [← scriptIn, hscript] at hnone
    cases hnone
  | removed _ _ hremove hsettles =>
    obtain ⟨-, hkeeps, hview⟩ := remove_of_leads hleads hremove
    rw [← scriptIn] at hview
    refine holds_of_settles hp (henters.keeps hkeeps) (hkeeps.current.trans h.current) hclear hcheck
      (fun hne => h.backup nofun hne package hpackage) ?_ ?_ hsettles
    · rw [hview, update_self]
    · rw [hview, update_of_ne (hp.scriptIn_ne_backupIn _).symm, hbackup]
  | unread hrefuses => exact (faulty_read hrefuses hread').elim
  | unremoved hrefuses =>
    obtain ⟨e', he'⟩ := exists_remove hleads hcheck hscript
    exact (faulty_remove hrefuses he').elim

private theorem holds_of_cleans (hp : p.Distinct) (henters : d.Enters package here)
    (hclear : Clear p here start) (h : Holds p spelled here start left d)
    (hpackage : spelled package) {r : Except Failure CleanOutcome}
    (hcleans : Cleans (fun _ => False) d (p.scriptPath package)
      (p.backupPath (p.scriptPath package)) false r e) : Holds p spelled here start none e := by
  cases left with
  | none => exact holds_of_cleans_none hp henters hclear h hcleans
  | some text => exact holds_of_cleans_some hp henters hclear h hpackage hcleans

private theorem found_of_fails {f : Failure}
    (h : (findDocuments p.documentName (i.has .recursive) i.paths).Leaves (fun _ => False) d
      (.error f) d) : found i p d = .error f :=
  (Program.run_of_leaves h).1

private theorem holds_of_compiled (hp : p.Distinct) (hclear : Clear p here start)
    (halike : Alike p spelled) (h : Holds p spelled here start left d)
    (hinto : CompilesInto p spelled here d i document) :
    (¬ Succeeds (compiled i p d).result ∧ Holds p spelled here start left (compiled i p d).disk) ∨
      Succeeds (compiled i p d).result ∧ ∃ text, generated i p document d = .ok text ∧
        Holds p spelled here start (some text) (compiled i p d).disk := by
  have hfound := hinto.found
  have hleaves : (compile i p).Leaves (fun _ => False) d (compiled i p d).result
    (compiled i p d).disk := Program.leaves_run _ _ d
  rcases compile_cases hinto.toPackage hleaves with ⟨-, hempty | ⟨f, hfails⟩⟩ |
    ⟨documents, attempts, hdocuments, hattempts, hresult⟩
  · rw [hfound] at hempty
    cases hempty
  · rw [found_of_fails hfails] at hfound
    cases hfound
  rw [hfound] at hdocuments
  cases hdocuments
  obtain ⟨r, rfl, hmake⟩ := leaves_attemptAll_singleton hattempts
  have hsucceeds : Succeeds (compiled i p d).result ↔ ∃ made, r = .ok made := by
    rw [hresult, ← failure_singleton]
    exact ⟨fun ⟨_, ht, hnone⟩ => by cases ht; exact hnone, fun hnone => ⟨_, rfl, hnone⟩⟩
  rw [hsucceeds]
  rcases holds_of_make hp hclear halike h hinto hmake with
    ⟨⟨f, rfl⟩, hholds⟩ | ⟨hmade, text, hholds, htext⟩
  · exact Or.inl ⟨nofun, hholds⟩
  · exact Or.inr ⟨hmade, text, htext, hholds⟩

private theorem holds_of_cleaned (hp : p.Distinct) (hclear : Clear p here start)
    (h : Holds p spelled here start left d) (hgiven : Given p spelled here d i document)
    (hkeep : i.has .dropBackup = false) : Holds p spelled here start none (cleaned i p d).disk := by
  have hfound := hgiven.found
  have hleaves : (Command.clean i p).Leaves (fun _ => False) d (cleaned i p d).result
    (cleaned i p d).disk := Program.leaves_run _ _ d
  rcases clean_cases hleaves with ⟨-, f, hfails⟩ | ⟨documents, t, hdocuments, hclean, -⟩
  · rw [found_of_fails hfails] at hfound
    cases hfound
  rw [hfound] at hdocuments
  cases hdocuments
  obtain ⟨r, hpackage⟩ := leaves_cleanAll_singleton hclean
  obtain ⟨s, hcleans⟩ := leaves_cleanPackage hpackage
  obtain ⟨content, hread⟩ := hgiven.present
  obtain ⟨l, henters⟩ := enters_packageOf hread
  obtain rfl := henters.place_eq.symm.trans hgiven.place
  rw [hkeep] at hcleans
  exact holds_of_cleans hp henters hclear h hgiven.spelled hcleans

private theorem holds_of_course (hp : p.Distinct) (hclear : Clear p here start)
    (halike : Alike p spelled) (h : Course p spelled here start left d) :
    Holds p spelled here start left d := by
  induction h with
  | start =>
    exact ⟨rfl, ⟨rfl, hclear.1⟩, nofun, fun h => absurd rfl h, fun h => absurd rfl h⟩
  | compiled _ hinto hsucceeds htext ih =>
    rcases holds_of_compiled hp hclear halike ih hinto with ⟨hfails, -⟩ | ⟨-, text, htext', hholds⟩
    · exact absurd hsucceeds hfails
    · rw [htext] at htext'
      cases htext'
      exact hholds
  | failed _ hinto hfails ih =>
    rcases holds_of_compiled hp hclear halike ih hinto with ⟨-, hholds⟩ | ⟨hsucceeds, -⟩
    · exact hholds
    · exact absurd hsucceeds hfails
  | cleaned _ hgiven hkeep ih => exact holds_of_cleaned hp hclear ih hgiven hkeep
  | edited e _ hcurrent hscript hbackup ih => exact ih.of_views hcurrent hscript hbackup

/-- Along a course a package stands as at the start, or with the last generated text as its script
and the script of the start, if any, as its backup. Every compilation that succeeds leads there,
and every cleaning up leads back. -/
theorem stands_of_course (hp : p.Distinct) (hclear : Clear p here start)
    (halike : Alike p spelled) (h : Course p spelled here start left d) :
    Stands p here start left d ∧
      (∀ i document, CompilesInto p spelled here d i document →
        Succeeds (compiled i p d).result → ∃ text, generated i p document d = .ok text ∧
          Stands p here start (some text) (compiled i p d).disk) ∧
      ∀ i document, Given p spelled here d i document → i.has .dropBackup = false →
        Stands p here start none (cleaned i p d).disk := by
  have hholds := holds_of_course hp hclear halike h
  refine ⟨hholds.stands, fun i document hinto hsucceeds => ?_, fun i document hgiven hkeep =>
    (holds_of_cleaned hp hclear hholds hgiven hkeep).stands⟩
  rcases holds_of_compiled hp hclear halike hholds hinto with ⟨hfails, -⟩ | ⟨-, text, htext, hholds'⟩
  · exact absurd hsucceeds hfails
  · exact ⟨text, htext, hholds'.stands⟩

end Steps

/-- A hand-written script that is backed up by one command, and restored by another one, which
spells the path of the package in another way. -/
theorem stands_of_course_compiled :
    let d := (compiled { verb := .compile, paths := [⟨"pkg"⟩] } {} packageByHand).disk
    let e := (cleaned { verb := .clean, paths := [⟨"./pkg"⟩] } {} d).disk
    (∃ text, d.view ["pkg", "wscript"] = some (some (Text.Utf8.encode text))) ∧
      d.view ["pkg", "wscript.hscript-orig"] = some (some (Text.Utf8.encode "mine\n")) ∧
      e.view ["pkg", "wscript"] = some (some (Text.Utf8.encode "mine\n")) := by
  intro d e
  let spelled : Path → Prop := fun q => q = ⟨"pkg"⟩ ∨ q = ⟨"./pkg"⟩
  have halike : Alike {} spelled := by
    have hfits : ∀ q, spelled q → ScriptFits {} q ∧ BackupFits {} q := by
      rintro q (rfl | rfl)
      · exact ⟨by decide +kernel, by decide +kernel⟩
      · exact ⟨by decide +kernel, by decide +kernel⟩
    exact fun q q' _ hq' => ⟨fun _ => (hfits q' hq').1, fun _ => (hfits q' hq').2⟩
  have hpresent {d : Disk} {document : Path} (h : (d.read document).isOk = true) :
      ∃ content, d.read document = .ok content := by
    cases hread : d.read document with
    | ok content => exact ⟨content, rfl⟩
    | error f =>
      rw [hread] at h
      cases h
  have hview : packageByHand.view ["pkg", "wscript"] = some (some (Text.Utf8.encode "mine\n")) := by
    decide +kernel
  have hclear : Clear {} ["pkg"] packageByHand := by
    refine ⟨by decide +kernel, fun v hv => ?_⟩
    cases hv.symm.trans hview
    exact ⟨_, rfl, by decide +kernel⟩
  have hinto : CompilesInto {} spelled ["pkg"] packageByHand
      { verb := .compile, paths := [⟨"pkg"⟩] } ⟨"pkg/hscript.yml"⟩ :=
    ⟨⟨by decide +kernel, Or.inl (by decide +kernel), by decide +kernel,
      hpresent (by decide +kernel)⟩, rfl, rfl, rfl⟩
  obtain ⟨text, htext, hscript, hbackup⟩ :=
    (stands_of_course Preferences.distinct_default hclear halike .start).2.1 _ _ hinto
      (by decide +kernel)
  have hcourse := Course.start.compiled hinto (by decide +kernel) htext
  have hgiven : Given {} spelled ["pkg"] d { verb := .clean, paths := [⟨"./pkg"⟩] }
      ⟨"./pkg/hscript.yml"⟩ :=
    ⟨by decide +kernel, Or.inr (by decide +kernel), by decide +kernel, hpresent (by decide +kernel)⟩
  obtain ⟨hrestored, -⟩ :=
    (stands_of_course Preferences.distinct_default hclear halike hcourse).2.2 _ _ hgiven rfl
  exact ⟨⟨text, hscript⟩, hbackup.trans hview, hrestored.trans hview⟩

end PackageScript
