import Mathlib.Algebra.Order.Group.Multiset
import PackageScript.Proofs.Files.Commands
import PackageScript.Proofs.Script.Marked
/-! Hand-written scripts are kept, at the script or at the backup of their package. -/
namespace PackageScript

open Job Files Disk Command Function

/-- The content that is seen at a location, if it is hand-written. -/
def handWritten : Option (Option Bytes) → Multiset Bytes
  | some (some content) => if HandWritten content then {content} else 0
  | _ => 0

/-- The hand-written contents at the script and at the backup of a package. -/
def Disk.kept (d : Disk) (p : Preferences) (here : Location) : Multiset Bytes :=
  handWritten (d.view (p.scriptIn here)) + handWritten (d.view (p.backupIn here))

/-- Whether what is changed for a document is neither the script nor the backup of a package,
nor above them. -/
def Preferences.Spares (p : Preferences) (d : Disk) (here : Location) (document : Path) : Prop :=
  ∀ name ∈ p.changed, ¬ d.place (packageOf document) ++ [name] <+: p.scriptIn here ∧
    ¬ d.place (packageOf document) ++ [name] <+: p.backupIn here

section Views

private theorem handWritten_eq_zero {v : Option (Option Bytes)}
    (h : ∀ content, v = some (some content) → ¬ HandWritten content) : handWritten v = 0 := by
  match v with
  | some (some content) => exact if_neg (h content rfl)
  | some none => rfl
  | none => rfl

variable {d e : Disk} {p : Preferences} {here : Location}

private theorem kept_congr (hscript : e.view (p.scriptIn here) = d.view (p.scriptIn here))
    (hbackup : e.view (p.backupIn here) = d.view (p.backupIn here)) :
    e.kept p here = d.kept p here := by
  rw [kept, kept, hscript, hbackup]

end Views

variable {faulty : Call → Prop} {d e : Disk} {p : Preferences} {here : Location} {document : Path}

private theorem Preferences.Spares.congr (h : p.Spares d here document)
    (hcurrent : e.current = d.current) : p.Spares e here document := by
  intro name hname
  rw [place_congr hcurrent]
  exact h name hname

private theorem kept_of_spares {α : Type} {job : Job α} {P : Call → Prop}
    (hspares : p.Spares d here document) (hasks : job.Asks P)
    (hP : ∀ call, P call → ∀ d, ∀ l ∈ Disk.changes d call,
      ∃ name ∈ p.changed, l = d.place (packageOf document) ++ [name])
    {r : Except Failure α} (h : job.Leaves faulty d r e) :
    e.current = d.current ∧ e.kept p here = d.kept p here := by
  have hframe {m : Location}
      (hm : ∀ name ∈ p.changed, ¬ d.place (packageOf document) ++ [name] <+: m) :
      e.current = d.current ∧ handWritten (e.view m) = handWritten (d.view m) := by
    obtain ⟨hcurrent, hview⟩ := hasks.frame (m := m) (fun call hcall d' hcurrent l hl => by
      obtain ⟨name, hname, heq⟩ := hP call hcall d' l hl
      rw [heq, place_congr hcurrent]
      exact hm name hname) h
    refine ⟨hcurrent, ?_⟩
    rcases hview with hsame | ⟨hbefore, hafter⟩
    · rw [hsame]
    · rw [hbefore, hafter]
      rfl
  obtain ⟨hcurrent, hscript⟩ := hframe fun name hname => (hspares name hname).1
  obtain ⟨-, hbackup⟩ := hframe fun name hname => (hspares name hname).2
  exact ⟨hcurrent, by rw [kept, kept, hscript, hbackup]⟩

private theorem kept_of_writes (hp : p.Distinct) {package : Path} {content : Bytes}
    (hcontent : ¬ HandWritten content) {s : Except Failure Written}
    (h : Writes faulty p package here content true d s e) : e.kept p here = d.kept p here := by
  have hst := hp.scriptIn_ne_temporaryIn here
  have hbt := hp.backupIn_ne_temporaryIn here
  have hsb := hp.scriptIn_ne_backupIn here
  have hgenerated : handWritten (some (some content)) = 0 := if_neg hcontent
  cases h with
  | written hguard _ hview =>
    rw [kept, kept, hview, update_self, update_of_ne hsb.symm, update_of_ne hbt, hgenerated,
      handWritten_eq_zero (hguard rfl)]
  | moved _ hscript _ hbackup _ _ hview =>
    rw [kept, kept, hview, update_self, update_of_ne hsb.symm, update_of_ne hbt, update_self,
      hgenerated, hscript, hbackup]
    exact add_comm _ _
  | failed hview =>
    exact kept_congr (by rw [hview, update_of_ne hst]) (by rw [hview, update_of_ne hbt])
  | stranded _ hscript _ hbackup _ hview =>
    rw [kept, kept, hview, update_self, update_of_ne hsb.symm, update_of_ne hbt, update_self,
      hscript, hbackup]
    exact add_comm _ _

private theorem kept_of_make {i : Invocation} {format : OutputFormat} (hp : p.Distinct)
    (hkeep : i.has .noBackup = false) (hplace : d.place (packageOf document) = here)
    {r : Except Failure Product} (h : (Product.make i p format document).Leaves faulty d r e) :
    e.current = d.current ∧ e.kept p here = d.kept p here := by
  rcases make_cases hp h with ⟨rfl, -⟩ |
    ⟨-, l, text, s, henters, hcompile, hkeeps, hwrites, -⟩
  · exact ⟨rfl, rfl⟩
  · obtain rfl := henters.place_eq.symm.trans hplace
    obtain ⟨-, htext⟩ := leaves_compile hcompile
    obtain ⟨_, source, -, -, houtcome⟩ := htext text rfl
    rw [hkeep] at hwrites
    refine ⟨hkeeps.current, kept_of_writes hp ?_ hwrites⟩
    simp [HandWritten, isGenerated_of_compileText houtcome]

section Clean

variable {package : Path}

private theorem kept_of_settles (hp : p.Distinct) (henters : d.Enters package here)
    (hfree : checkEntry (p.scriptPath package) p.scriptName = .ok () →
      d.view (p.scriptIn here) = none) {removed : Bool} {r : Except Failure CleanOutcome}
    (h : Settles faulty d (p.scriptPath package) (p.backupPath (p.scriptPath package)) removed false
      r e) :
    e.current = d.current ∧ e.kept p here = d.kept p here := by
  cases h with
  | absent => exact ⟨rfl, rfl⟩
  | restored _ hrename =>
    obtain ⟨-, hcheck, hmoved⟩ := moved_of_rename (henters.leads_backup hp.toPlain)
      (henters.leads_script hp.toPlain) hp.script_ne_backup.symm hrename
    refine ⟨hmoved.current, ?_⟩
    rw [kept, kept, hfree hcheck, Preferences.scriptIn, Preferences.backupIn, hmoved.target, hmoved.source]
    exact add_comm _ _
  | unrestored => exact ⟨rfl, rfl⟩

private theorem kept_of_cleans (hp : p.Distinct) (henters : d.Enters package here)
    {r : Except Failure CleanOutcome}
    (h : Cleans faulty d (p.scriptPath package) (p.backupPath (p.scriptPath package)) false r e) :
    e.current = d.current ∧ e.kept p here = d.kept p here := by
  have hscript := henters.leads_script hp.toPlain
  cases h with
  | kept => exact ⟨rfl, rfl⟩
  | absent hnone hsettles =>
    exact kept_of_settles hp henters ((kind?_eq_none hscript).mp hnone) hsettles
  | removed hread hmark hremove hsettles =>
    obtain ⟨-, hold⟩ := (read_of_leads hscript).mp hread
    obtain ⟨-, hkeeps, hview⟩ := remove_of_leads hscript hremove
    rw [← Preferences.scriptIn] at hold hview
    obtain ⟨hcurrent, hkept⟩ := kept_of_settles hp (henters.keeps hkeeps)
      (fun _ => by rw [hview, update_self]) hsettles
    refine ⟨hcurrent.trans hkeeps.current, hkept.trans ?_⟩
    rw [kept, kept, hview, update_self, update_of_ne (hp.scriptIn_ne_backupIn here).symm, hold]
    exact congrArg (· + _) (if_neg hmark).symm
  | unread => exact ⟨rfl, rfl⟩
  | unremoved => exact ⟨rfl, rfl⟩

private theorem enters_of_kind? {name : String} (hname : IsName name)
    (h : d.kind? (package.join name) ≠ none) : ∃ l, d.Enters package l := by
  rw [kind?, find?] at h
  cases hlocate : d.locate (package.join name) with
  | ok m => exact enters_of_locate hname.slashless hname.entry hlocate
  | error f =>
    rw [hlocate] at h
    exact absurd rfl h

private theorem eq_of_cleans (hp : p.Plain) (hnone : ¬ ∃ l, d.Enters package l) {drop : Bool}
    {r : Except Failure CleanOutcome}
    (h : Cleans faulty d (p.scriptPath package) (p.backupPath (p.scriptPath package)) drop r e) :
    e = d := by
  have hread {content : Bytes} : d.read (p.scriptPath package) ≠ .ok content := by
    intro hread
    obtain ⟨m, hlocate, -⟩ := read_eq_ok.mp hread
    exact hnone (enters_of_locate hp.script.slashless hp.script.entry hlocate)
  have hbackup : d.kind? (p.backupPath (p.scriptPath package)) = none := by
    rw [hp.backupPath_scriptPath]
    by_contra hkind
    exact hnone (enters_of_kind? hp.backup hkind)
  cases h with
  | kept => rfl
  | absent _ hsettles =>
    cases hsettles with
    | absent => rfl
    | dropped hkind => exact absurd hbackup hkind
    | restored hkind => exact absurd hbackup hkind
    | undropped => rfl
    | unrestored => rfl
  | removed hcontent => exact absurd hcontent hread
  | unread => rfl
  | unremoved => rfl

private theorem kept_of_cleanPackage (hp : p.Distinct)
    (hplace : d.place (packageOf document) = here)
    {r : Except Failure Transcript} (h : (cleanPackage p false document).Leaves faulty d r e) :
    e.current = d.current ∧ e.kept p here = d.kept p here := by
  obtain ⟨s, hcleans⟩ := leaves_cleanPackage h
  by_cases henters : ∃ l, d.Enters (packageOf document) l
  · obtain ⟨l, henters⟩ := henters
    obtain rfl := henters.place_eq.symm.trans hplace
    exact kept_of_cleans hp henters hcleans
  · rw [eq_of_cleans hp.toPlain henters hcleans]
    exact ⟨rfl, rfl⟩

end Clean

/-- What happens to a package: commands that keep backups, and any other change to the disk, which
starts the account of what is hand-written anew. Any call of a command may fail but a look at what
is there, which the disk answers as it is. Documents that are compiled by one command are in
different packages, as those of one would share its script. -/
inductive History (p : Preferences) (here : Location) : Multiset Bytes → Disk → Prop
  | start (d : Disk) : History p here (d.kept p here) d
  | compiled {left : Multiset Bytes} {d e : Disk} {i : Invocation} {faulty : Call → Prop}
      {r : Except Failure Transcript} : History p here left d →
      i.has .noBackup = false → i.output = none →
      (∀ documents, found i p d = .ok documents →
        (documents.map fun q => d.place (packageOf q)).Nodup ∧
        ∀ q ∈ documents, d.place (packageOf q) = here ∨ p.Spares d here q) →
      (compile i p).Leaves faulty d r e → History p here left e
  | cleaned {left : Multiset Bytes} {d e : Disk} {i : Invocation} {faulty : Call → Prop}
      {r : Except Failure Transcript} : History p here left d →
      i.has .dropBackup = false →
      (∀ documents, found i p d = .ok documents →
        ∀ q ∈ documents, d.place (packageOf q) = here ∨ p.Spares d here q) →
      (Command.clean i p).Leaves faulty d r e → History p here left e
  | rewritten {left : Multiset Bytes} {d : Disk} (e : Disk) : History p here left d →
      History p here (e.kept p here) e

/-- Hand-written scripts are not lost. -/
theorem kept_of_history (hp : p.Distinct) {left : Multiset Bytes} (h : History p here left d) :
    d.kept p here = left := by
  induction h with
  | start d => rfl
  | @compiled _ d _ i _ _ _ hkeep houtput hdocuments h ih =>
    rcases compile_cases houtput h with ⟨rfl, -⟩ | ⟨documents, attempts, hfound, hattempts, -⟩
    · exact ih
    refine (kept_of_attemptAll (K := fun m => m.current = d.current ∧ m.kept p here = _) ?_
      hattempts ⟨rfl, ih⟩).2
    rintro q hq m r m' ⟨hcurrent, hkept⟩ hmake
    have hstep : m'.current = m.current ∧ m'.kept p here = m.kept p here := by
      rcases (hdocuments documents hfound).2 q hq with hplace | hspares
      · exact kept_of_make hp hkeep ((place_congr hcurrent _).trans hplace) hmake
      · exact kept_of_spares (hspares.congr hcurrent) asks_make
          (fun call hcall => hcall.changes hp.toPlain) hmake
    exact ⟨hstep.1.trans hcurrent, hstep.2.trans hkept⟩
  | @cleaned _ d _ i _ _ _ hkeep hdocuments h ih =>
    rcases clean_cases h with ⟨rfl, -⟩ | ⟨documents, t, hfound, hclean, -⟩
    · exact ih
    rw [hkeep] at hclean
    refine (kept_of_cleanAll (K := fun m => m.current = d.current ∧ m.kept p here = _) ?_
      hclean ⟨rfl, ih⟩).2
    rintro q hq m r m' ⟨hcurrent, hkept⟩ hpackage
    have hstep : m'.current = m.current ∧ m'.kept p here = m.kept p here := by
      rcases hdocuments documents hfound q hq with hplace | hspares
      · exact kept_of_cleanPackage hp ((place_congr hcurrent _).trans hplace) hpackage
      · exact kept_of_spares (hspares.congr hcurrent) asks_cleanPackage
          (fun call hcall => hcall.changes hp.toPlain) hpackage
    exact ⟨hstep.1.trans hcurrent, hstep.2.trans hkept⟩
  | rewritten => rfl

/-- A script that is moved aside by one command and moved back by the next one. -/
theorem kept_of_history_compiled_cleaned :
    let compiled := ((compile { verb := .compile, paths := [⟨"pkg"⟩] } {}).run.run packageByHand).disk
    let cleaned := ((Command.clean { verb := .clean, paths := [⟨"pkg"⟩] } {}).run.run compiled).disk
    compiled.view ["pkg", "wscript"] ≠ packageByHand.view ["pkg", "wscript"] ∧
      compiled.kept {} ["pkg"] = {Text.Utf8.encode "mine\n"} ∧
      cleaned.kept {} ["pkg"] = {Text.Utf8.encode "mine\n"} := by
  intro compiled cleaned
  have hstart : packageByHand.kept {} ["pkg"] = {Text.Utf8.encode "mine\n"} := by decide +kernel
  have hfound : found { verb := .compile, paths := [⟨"pkg"⟩] } {} packageByHand =
      .ok [⟨"pkg/hscript.yml"⟩] := by
    decide +kernel
  have hfound' : found { verb := .clean, paths := [⟨"pkg"⟩] } {} compiled =
      .ok [⟨"pkg/hscript.yml"⟩] := by
    decide +kernel
  have hcompiled : History {} ["pkg"] (packageByHand.kept {} ["pkg"]) compiled := by
    refine .compiled (.start packageByHand) rfl rfl ?_ (Program.leaves_run (fun _ => False) _ _)
    intro documents hdocuments
    rw [hfound] at hdocuments
    cases hdocuments
    exact ⟨by decide, List.forall_mem_singleton.mpr (Or.inl (by decide +kernel))⟩
  have hcleaned : History {} ["pkg"] (packageByHand.kept {} ["pkg"]) cleaned := by
    refine .cleaned hcompiled rfl ?_ (Program.leaves_run (fun _ => False) _ _)
    intro documents hdocuments
    rw [hfound'] at hdocuments
    cases hdocuments
    exact List.forall_mem_singleton.mpr (Or.inl (by decide +kernel))
  rw [← hstart]
  exact ⟨by decide +kernel, kept_of_history Preferences.distinct_default hcompiled,
    kept_of_history Preferences.distinct_default hcleaned⟩

end PackageScript
