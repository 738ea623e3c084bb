import PackageScript.Command.Clean
import PackageScript.Command.Compile
import PackageScript.Proofs.Files.Writing
/-! What is done for one document: the calls that are made, and how they end. -/
namespace PackageScript

open Job Files Disk

/-- The calls that compiling into a package makes. -/
inductive Compiling (p : Preferences) (package : Path) : Call → Prop
  | look (q : Path) : Compiling p package (.look q)
  | read (q : Path) : Compiling p package (.read q)
  | warn (message : String) : Compiling p package (.warn message)
  | above {directory a : Path} : (p.scriptPath package).parent? = some directory →
      a ∈ directory.ancestors → a.text ≠ "" → Compiling p package (.createDirectory a)
  | write (content : Bytes) : Compiling p package (.write (p.scriptPath package).temporary content)
  | put : Compiling p package (.rename (p.scriptPath package).temporary (p.scriptPath package))
  | aside : Compiling p package
      (.rename (p.scriptPath package) (p.backupPath (p.scriptPath package)))
  | back : Compiling p package
      (.rename (p.backupPath (p.scriptPath package)) (p.scriptPath package))
  | discard : Compiling p package (.remove (p.scriptPath package).temporary)

/-- The calls that cleaning up a package makes. -/
inductive Cleaning (p : Preferences) (package : Path) : Call → Prop
  | look (q : Path) : Cleaning p package (.look q)
  | read (q : Path) : Cleaning p package (.read q)
  | warn (message : String) : Cleaning p package (.warn message)
  | back : Cleaning p package (.rename (p.backupPath (p.scriptPath package)) (p.scriptPath package))
  | script : Cleaning p package (.remove (p.scriptPath package))
  | backup : Cleaning p package (.remove (p.backupPath (p.scriptPath package)))

section Footprint

variable {p : Preferences} {package : Path} {call : Call}

/-- Only files of the package are changed. -/
theorem Compiling.changes (h : Compiling p package call) (hp : p.Plain) (d : Disk) :
    ∀ l ∈ d.changes call, ∃ name ∈ p.changed, l = d.place package ++ [name] := by
  have hscript := d.place_scriptPath package hp
  have hbackup := d.place_backupPath package hp
  have htemporary := d.place_temporary package hp
  cases h <;>
    simp [Disk.changes, Preferences.changed, hscript, hbackup, htemporary, Preferences.scriptIn,
      Preferences.backupIn, Preferences.temporaryIn]

/-- Cleaning up changes names of the package's own directory only. -/
theorem Cleaning.changes (h : Cleaning p package call) (hp : p.Plain) (d : Disk) :
    ∀ l ∈ d.changes call, ∃ name ∈ p.changed, l = d.place package ++ [name] := by
  have hscript := d.place_scriptPath package hp
  have hbackup := d.place_backupPath package hp
  cases h <;>
    simp [Disk.changes, Preferences.changed, hscript, hbackup, Preferences.scriptIn,
      Preferences.backupIn]

end Footprint

namespace Files

section Asks

variable {P : Call → Prop}

private theorem asks_warnings (hwarn : ∀ message, P (.warn message)) (messages : List String) :
    (messages.forM fun message => ask (.warn message) : Job Unit).Asks P := by
  induction messages with
  | nil => exact asks_pure ()
  | cons message rest ih => exact asks_bind (asks_ask (hwarn message)) fun _ => ih

theorem asks_ofChecked {α : Type} (hwarn : ∀ message, P (.warn message)) (c : Checked α) :
    (ofChecked c).Asks P := by
  refine asks_bind (asks_warnings hwarn c.warnings) fun _ => ?_
  cases c.outcome with
  | ok a => exact asks_pure a
  | error problem => exact asks_throw _

private theorem asks_compile {document : Path} {format : OutputFormat} (hread : P (.read document))
    (hwarn : ∀ message, P (.warn message)) : (compile document format).Asks P := by
  have htext : (readText ("Failed to read " ++ document.text) document).Asks P := by
    refine asks_bind (asks_ask hread) fun reply => asks_bind (asks_expect reply) fun bytes => ?_
    cases Text.Utf8.decode? bytes with
    | some s => exact asks_pure s
    | none => exact asks_throw _
  exact asks_bind htext fun _ => asks_within (asks_ofChecked hwarn _)

/-- What is written for a document is written in its package. -/
theorem asks_writeScript (p : Preferences) (package : Path) (text : String) (keep : Bool) :
    (writeScript p package text keep).Asks (Compiling p package) := by
  have hreplace (content : Bytes) :
      (replace (p.scriptPath package) content).Asks (Compiling p package) := by
    refine asks_replace .look ?_ (.write content) .put .discard
    exact fun directory hparent a ha hne => .above hparent ha hne
  have hundo (moved : Bool) (f : Failure) : (do
      if moved then restore (p.scriptPath package) (p.backupPath (p.scriptPath package))
      throw f : Job Unit).Asks (Compiling p package) := by
    cases moved with
    | true => exact asks_bind (asks_restore .back) fun _ => asks_throw f
    | false => exact asks_throw f
  rw [writeScript]
  cases keep with
  | true =>
    refine asks_bind (asks_moveAside .look .read .aside) fun outcome => ?_
    exact asks_bind (asks_tryCatch (hreplace _) (hundo _)) fun _ => asks_pure _
  | false =>
    refine asks_bind (asks_pure BackupOutcome.absent) fun outcome => ?_
    exact asks_bind (asks_tryCatch (hreplace _) (hundo _)) fun _ => asks_pure _

end Asks

section Leaves

variable {faulty : Call → Prop} {d e : Disk}

private theorem leaves_warnings {messages : List String} {r : Except Failure Unit}
    (h : Job.Leaves faulty (messages.forM fun message => ask (.warn message)) d r e) : e = d := by
  induction messages with
  | nil => exact (leaves_pure.mp h).2
  | cons message rest ih =>
    rcases leaves_bind.mp h with ⟨_, m, hask, hrest⟩ | ⟨f, -, hask⟩
    · obtain ⟨_, -, hreply⟩ := leaves_ask.mp hask
      obtain rfl := Disk.replies_warn.mp hreply
      exact ih hrest
    · obtain ⟨_, ⟨⟩, -⟩ := leaves_ask.mp hask

private theorem leaves_ofChecked {α : Type} {c : Checked α} {r : Except Failure α}
    (h : (ofChecked c).Leaves faulty d r e) : e = d ∧ ∀ a, r = .ok a → c.outcome = .ok a := by
  rcases leaves_bind.mp h with ⟨_, m, hwarnings, hlast⟩ | ⟨f, rfl, hwarnings⟩
  · obtain rfl := leaves_warnings hwarnings
    cases houtcome : c.outcome with
    | ok a =>
      rw [houtcome] at hlast
      obtain ⟨rfl, rfl⟩ := leaves_pure.mp hlast
      exact ⟨rfl, fun _ ha => by cases ha; rfl⟩
    | error problem =>
      rw [houtcome] at hlast
      obtain ⟨rfl, rfl⟩ := leaves_throw.mp hlast
      exact ⟨rfl, nofun⟩
  · exact ⟨leaves_warnings hwarnings, nofun⟩

private theorem leaves_readText {context : String} {q : Path} {r : Except Failure String}
    (h : (readText context q).Leaves faulty d r e) :
    e = d ∧ ∀ s, r = .ok s → ∃ content, d.read q = .ok content ∧ Text.Utf8.decode? content = some s := by
  rcases leaves_bind.mp h with ⟨reply, m, hask, hnext⟩ | ⟨f, -, hask⟩
  · obtain ⟨_, ⟨⟩, hreply⟩ := leaves_ask.mp hask
    obtain ⟨rfl, hread⟩ := Disk.replies_read hreply
    rcases leaves_bind.mp hnext with ⟨bytes, m', hexpect, hlast⟩ | ⟨f, rfl, hexpect⟩
    · obtain ⟨hok, rfl⟩ := leaves_expect.mp hexpect
      obtain ⟨content, rfl, hread⟩ | ⟨⟨f, rfl⟩, -⟩ := hread
      · cases hok
        cases hdecode : Text.Utf8.decode? bytes with
        | some s =>
          rw [hdecode] at hlast
          obtain ⟨rfl, rfl⟩ := leaves_pure.mp hlast
          exact ⟨rfl, fun _ hs => by cases hs; exact ⟨bytes, hread, hdecode⟩⟩
        | none =>
          rw [hdecode] at hlast
          obtain ⟨rfl, rfl⟩ := leaves_throw.mp hlast
          exact ⟨rfl, nofun⟩
      · cases hok
    · exact ⟨(leaves_expect.mp hexpect).2, nofun⟩
  · obtain ⟨_, ⟨⟩, -⟩ := leaves_ask.mp hask

/-- The generated text of a document is that of its content, and nothing is changed for it. -/
theorem leaves_compile {document : Path} {format : OutputFormat} {r : Except Failure String}
    (h : (compile document format).Leaves faulty d r e) :
    e = d ∧ ∀ text, r = .ok text → ∃ content source, d.read document = .ok content ∧
      Text.Utf8.decode? content = some source ∧
      (compileText source document.text format).outcome = .ok text := by
  rcases leaves_bind.mp h with ⟨source, m, hread, hwithin⟩ | ⟨f, rfl, hread⟩
  · obtain ⟨rfl, hsource⟩ := leaves_readText hread
    obtain ⟨content, hcontent, hdecode⟩ := hsource source rfl
    obtain ⟨s, rfl, hchecked⟩ := leaves_within.mp hwithin
    obtain ⟨rfl, houtcome⟩ := leaves_ofChecked hchecked
    refine ⟨rfl, fun text htext => ⟨content, source, hcontent, hdecode, ?_⟩⟩
    cases s with
    | ok a =>
      cases htext
      exact houtcome _ rfl
    | error f => cases htext
  · exact ⟨(leaves_readText hread).1, nofun⟩

end Leaves

end Files

namespace Command
open Files

variable {i : Invocation} {p : Preferences} {format : OutputFormat} {document : Path}

/-- Compiling makes only the calls of its package. -/
theorem asks_make : (Product.make i p format document).Asks (Compiling p (packageOf document)) := by
  have hcompile : (Files.compile document format).Asks (Compiling p (packageOf document)) :=
    asks_compile (.read document) .warn
  refine asks_within ?_
  split
  · exact asks_map hcompile
  · exact asks_map (asks_bind hcompile fun text => asks_writeScript p _ text _)

/-- Cleaning up makes only the calls of its package. -/
theorem asks_cleanPackage {drop : Bool} :
    (cleanPackage p drop document).Asks (Cleaning p (packageOf document)) :=
  asks_bind (asks_clean .look .read .warn .back .script .backup) fun _ => asks_pure _

section Leaves

variable {faulty : Call → Prop} {d e : Disk}

/-- Compiling a document changes nothing, or ends as writing the generated text in its package
does. -/
theorem make_cases (hp : p.Distinct) {r : Except Failure Product}
    (h : (Product.make i p format document).Leaves faulty d r e) :
    e = d ∧ ((∃ f, r = .error f) ∨ i.has .toOutput = true) ∨
      i.has .toOutput = false ∧ ∃ here text s, d.Enters (packageOf document) here ∧
        (Files.compile document format).Leaves faulty d (.ok text) d ∧ d.Keeps e ∧
        Writes faulty p (packageOf document) here (Text.Utf8.encode text) (!i.has .noBackup) d s e ∧
        ((∃ f, r = .error f) ↔ ∃ f, s = .error f) := by
  obtain ⟨s, rfl, hinner⟩ := leaves_within.mp h
  have herror {α : Type} (s : Except Failure α) (context : String) :
      (∃ f, s.mapError (Failure.within context) = .error f) ↔ ∃ f, s = .error f := by
    cases s <;> simp [Except.mapError]
  rw [herror]
  split at hinner
  · rename_i houtput
    obtain ⟨t, rfl, hcompile⟩ := leaves_map.mp hinner
    exact Or.inl ⟨(leaves_compile hcompile).1, Or.inr houtput⟩
  · rename_i houtput
    obtain ⟨t, rfl, hpackage⟩ := leaves_map.mp hinner
    rcases leaves_bind.mp hpackage with ⟨text, m, hcompile, hwrite⟩ | ⟨f, rfl, hcompile⟩
    · obtain ⟨rfl, hsource⟩ := leaves_compile hcompile
      obtain ⟨content, -, hread, -⟩ := hsource text rfl
      obtain ⟨here, henters⟩ := enters_packageOf hread
      obtain ⟨hkeeps, hwrites⟩ := writes_of_leaves hp henters hwrite
      refine Or.inr ⟨by simpa using houtput, here, text, t, henters, hcompile, hkeeps, hwrites, ?_⟩
      cases t <;> simp [Except.map]
    · exact Or.inl ⟨(leaves_compile hcompile).1, Or.inl ⟨f, rfl⟩⟩

/-- Cleaning up after a document is cleaning up its script and backup. -/
theorem leaves_cleanPackage {drop : Bool} {r : Except Failure Transcript}
    (h : (cleanPackage p drop document).Leaves faulty d r e) :
    ∃ s, Cleans faulty d (p.scriptPath (packageOf document))
      (p.backupPath (p.scriptPath (packageOf document))) drop s e := by
  rcases leaves_bind.mp h with ⟨outcome, m, hclean, hlast⟩ | ⟨f, -, hclean⟩
  · obtain ⟨-, rfl⟩ := leaves_pure.mp hlast
    exact ⟨_, cleans_of_leaves hclean⟩
  · exact ⟨_, cleans_of_leaves hclean⟩

end Leaves

end Command

end PackageScript
