import PackageScript.Proofs.Files.Answers
import PackageScript.Proofs.Files.Document
/-! Programs that work in one directory only: what they do depends on what is seen from there, and
nothing is changed elsewhere. -/
namespace PackageScript

open Disk

variable {α β : Type} {here : Location} {d : Disk}

/-- Whether a program works in one directory only when it runs on a disk: on every disk that looks
alike from there it has the same result and the same warnings, leaves the same in the directory,
and changes nothing elsewhere. -/
structure Program.Local (here : Location) (x : Program α) (d : Disk) : Prop where
  within : ∀ e, d.Agree here e → e.Within here (x.run e).disk
  agree : ∀ e, d.Agree here e → (x.run d).disk.Agree here (x.run e).disk
  result : ∀ e, d.Agree here e → (x.run e).result = (x.run d).result
  warnings : ∀ e, d.Agree here e → (x.run e).warnings = (x.run d).warnings

namespace Program

private theorem local_pure (a : α) : Local here (pure a) d where
  within e _ := .refl here e
  agree _ h := h
  result _ _ := rfl
  warnings _ _ := rfl

/-- A program that works in one directory goes on in that directory. -/
theorem local_bind {x : Program α} {f : α → Program β} (hx : x.Local here d)
    (hf : ∀ a m, d.Within here m → x.Leaves (fun _ => False) d a m → (f a).Local here m) :
    (x >>= f).Local here d := by
  have hnext := hf _ _ (hx.within d (.refl here d)) (leaves_run _ x d)
  constructor <;> intro e he <;> simp only [run_bind, hx.result e he]
  · exact (hx.within e he).trans (hnext.within _ (hx.agree e he))
  · exact hnext.agree _ (hx.agree e he)
  · exact hnext.result _ (hx.agree e he)
  · rw [hx.warnings e he, hnext.warnings _ (hx.agree e he)]

private theorem local_ofCall {call : Call}
    (h : ∀ e, d.Agree here e → (e.answer call).1 = (d.answer call).1 ∧
      e.Within here (e.answer call).2 ∧ (d.answer call).2.Agree here (e.answer call).2) :
    (ofCall call).Local here d := by
  constructor <;> intro e he <;> simp only [run_ofCall]
  · exact (h e he).2.1
  · exact (h e he).2.2
  · exact (h e he).1

private theorem local_warn (message : String) : (ofCall (.warn message)).Local here d :=
  local_ofCall fun e he => ⟨rfl, .refl here e, he⟩

section Calls

variable {p q : Path} {name other : String}

private theorem local_look (h : ∀ e, d.Agree here e → d.SameAt e p) :
    (ofCall (.look p)).Local here d :=
  local_ofCall fun e he => ⟨(h e he).kind?, .refl here e, he⟩

private theorem local_read (h : ∀ e, d.Agree here e → d.SameAt e p) :
    (ofCall (.read p)).Local here d :=
  local_ofCall fun e he => ⟨(h e he).read, .refl here e, he⟩

private theorem answer_of_sameChange {ε : Type} {e : Disk} {r s : Except ε Disk}
    (he : d.Agree here e) (h : d.SameChange here e r s) :
    (answer.changed e s).1 = (answer.changed d r).1 ∧ e.Within here (answer.changed e s).2 ∧
      (answer.changed d r).2.Agree here (answer.changed e s).2 := by
  cases h with
  | refused f => exact ⟨rfl, .refl here e, he⟩
  | changed hm hn hagree => exact ⟨rfl, hn, hagree⟩

private theorem local_write (h : d.Leads p here name) (content : Bytes) :
    (ofCall (.write p content)).Local here d :=
  local_ofCall fun _ he => answer_of_sameChange he ((sameChange_write he h content).mapError _)

private theorem local_remove (h : d.Leads p here name) : (ofCall (.remove p)).Local here d :=
  local_ofCall fun _ he => answer_of_sameChange he (sameChange_remove he h)

private theorem local_rename (h : d.Leads p here name) (h' : d.Leads q here other)
    (hne : name ≠ other)
    (hsource : ¬ d.HasDirectory (here ++ [name])) : (ofCall (.rename p q)).Local here d :=
  local_ofCall fun _ he => answer_of_sameChange he (sameChange_rename he h h' hne hsource)

private theorem local_createDirectory {l : Location} (h : d.Enters p l) :
    (ofCall (.createDirectory p)).Local here d := by
  refine local_ofCall fun e he => answer_of_sameChange he ?_
  rw [h.createDirectory, (h.keeps he.keeps).createDirectory]
  cases checkPath p with
  | error f => exact .refused f
  | ok => exact .refused _

end Calls

end Program

namespace Job
open Program

/-- Whether a job works in one directory only when it runs on a disk. -/
def Local (here : Location) (job : Job α) (d : Disk) : Prop :=
  Program.Local here job.run d

private theorem local_pure (a : α) : Local here (pure a) d :=
  Program.local_pure _

private theorem local_throw (f : Failure) : Local here (throw f : Job α) d :=
  Program.local_pure _

private theorem local_bind {job : Job α} {f : α → Job β} (hjob : job.Local here d)
    (hf : ∀ a m, d.Within here m → job.Leaves (fun _ => False) d (.ok a) m → (f a).Local here m) :
    Local here (job >>= f) d :=
  Program.local_bind hjob fun
    | .ok a, m, hm, hleaves => hf a m hm hleaves
    | .error _, _, _, _ => Program.local_pure _

private theorem local_map {job : Job α} (f : α → β) (hjob : job.Local here d) :
    Local here (f <$> job) d := by
  rw [map_eq_pure_bind]
  exact local_bind hjob fun a _ _ _ => local_pure (f a)

private theorem local_tryCatch {job : Job α} {handle : Failure → Job α} (hjob : job.Local here d)
    (hhandle : ∀ f m, d.Within here m → (handle f).Local here m) :
    Local here (tryCatch job handle) d :=
  Program.local_bind hjob fun
    | .ok _, _, _, _ => Program.local_pure _
    | .error f, m, hm, _ => hhandle f m hm

private theorem local_lift {x : Program α} (hx : x.Local here d) : Local here (ExceptT.lift x) d :=
  Program.local_bind hx fun _ _ _ _ => Program.local_pure _

private theorem local_within {context : String} {job : Job α} (hjob : job.Local here d) :
    Local here (within context job) d :=
  Program.local_bind hjob fun _ _ _ _ => Program.local_pure _

private theorem local_ask {call : Call} (h : (ofCall call).Local here d) :
    Local here (ask call) d :=
  local_lift h

private theorem local_expect (context : String) (x : Except Fault α) :
    Local here (expect context x) d := by
  cases x with
  | ok a => exact local_pure a
  | error f => exact local_throw _

end Job

namespace Files
open Job

variable {p script backup : Path} {name other : String}

/-- Making directories that are there changes nothing, and they are there wherever the disk looks
alike. -/
theorem local_ensureDirectories {paths : List Path}
    (hpaths : ∀ a ∈ paths, a.text = "" ∨ ∃ l, d.Enters a l) :
    (ensureDirectories paths).Local here d := by
  have hlook {a : Path} (ha : ∃ l, d.Enters a l) : (isDirectory a).Local here d := by
    obtain ⟨l, hl⟩ := ha
    exact Program.local_bind (Program.local_look fun e he => he.sameAt_of_enters hl)
      fun _ _ _ _ => Program.local_pure _
  induction paths with
  | nil => exact Program.local_pure _
  | cons a above ih =>
    obtain ⟨ha, habove⟩ := List.forall_mem_cons.mp hpaths
    rw [ensureDirectories]
    split
    · exact Program.local_pure _
    rename_i hne
    obtain ⟨l, hl⟩ := ha.resolve_left hne
    have hcreate : (Program.ofCall (.createDirectory a)).Local here d :=
      Program.local_createDirectory hl
    have hrefused {reply : Except Fault Unit} {m : Disk}
        (h : (Program.ofCall (.createDirectory a)).Leaves (fun _ => False) d reply m) :
        (∃ f, reply = .error f) ∧ m = d := by
      rcases replies_createDirectory (Program.leaves_ofCall.mp h) with ⟨-, hok⟩ | hfailed
      · exact absurd hok hl.createDirectory_ne
      · exact hfailed
    have hcheck {f : Fault} : (do return if ← isDirectory a then .ok () else .error f :
        Program (Except Fault Unit)).Local here d :=
      Program.local_bind (hlook ⟨l, hl⟩) fun _ _ _ _ => Program.local_pure _
    refine Program.local_bind hcreate fun reply m _ hreply => ?_
    obtain ⟨⟨f, rfl⟩, rfl⟩ := hrefused hreply
    dsimp only
    split
    · refine Program.local_bind (ih habove) fun answer n _ hanswer => ?_
      obtain rfl := eq_of_ensureDirectories habove hanswer
      cases answer with
      | error g => exact Program.local_pure _
      | ok =>
        refine Program.local_bind hcreate fun reply m _ hreply => ?_
        obtain ⟨⟨f, rfl⟩, rfl⟩ := hrefused hreply
        exact hcheck
    · exact hcheck

private theorem local_putInPlace (h : d.Leads p here name) (hname : Slashless name)
    (content : Bytes) : (putInPlace p content).Local here d := by
  have htemporary := h.temporary hname
  refine local_bind (local_ask (Program.local_write htemporary content)) fun reply m hm hask => ?_
  obtain ⟨_, ⟨⟩, hreply⟩ := leaves_ask.mp hask
  rcases replies_write hreply with ⟨rfl, hwrite⟩ | ⟨⟨⟨step, f⟩, rfl⟩, rfl, -⟩
  · obtain ⟨-, hkeeps, hview⟩ := write_of_leads htemporary hwrite
    have hfile : ¬ m.HasDirectory (here ++ ["." ++ name ++ ".tmp"]) := by
      simp [HasDirectory, hview]
    exact local_bind (local_ask (Program.local_rename (htemporary.keeps hkeeps) (h.keeps hkeeps)
      (temporary_ne name) hfile)) fun reply _ _ _ => local_expect _ reply
  · exact local_throw _

/-- A file is replaced by work in its directory. -/
theorem local_replace (h : d.Leads p here name) (hname : Slashless name) (content : Bytes) :
    (replace p content).Local here d := by
  have hput {m : Disk} (hm : d.Within here m) :
      (tryCatch (putInPlace p content) fun failure => do
        let _ ← ask (.remove p.temporary)
        throw failure : Job Unit).Local here m := by
    have hleads := h.keeps hm.keeps
    exact local_tryCatch (local_putInPlace hleads hname content) fun f n hn =>
      local_bind (local_ask (Program.local_remove ((hleads.temporary hname).keeps hn.keeps)))
        fun _ _ _ _ => local_throw f
  obtain ⟨parent, ⟨hparent, -⟩, henters⟩ := h.parent
  rw [replace, hparent]
  dsimp only
  split
  · exact local_bind (local_lift (local_ensureDirectories henters.ancestors)) fun answer m hm _ =>
      local_bind (local_expect _ answer) fun _ n hn _ => hput (hm.trans hn)
  · exact hput (.refl here d)

private theorem local_isPresent (h : d.Leads p here name) : (isPresent p).Local here d :=
  local_bind (local_ask (Program.local_look fun _ he => he.sameAt_of_leads h))
    fun _ _ _ _ => local_pure _

private theorem local_readGenerated (h : d.Leads p here name) : (readGenerated p).Local here d :=
  local_bind (local_ask (Program.local_read fun _ he => he.sameAt_of_leads h)) fun reply _ _ _ =>
    local_bind (local_expect _ reply) fun _ _ _ _ => local_pure _

private theorem local_moveAside (h : d.Leads script here name) (h' : d.Leads backup here other)
    (hne : name ≠ other) : (moveAside script backup).Local here d := by
  refine local_bind (local_isPresent h) fun present m hm _ => ?_
  cases present with
  | false => exact local_pure _
  | true =>
    refine local_bind (local_readGenerated (h.keeps hm.keeps)) fun generated n hn hread => ?_
    cases generated with
    | true => exact local_pure _
    | false =>
      have hfile : ¬ m.HasDirectory (here ++ [name]) := by
        rw [← bind_pure (readGenerated script)] at hread
        rcases leaves_readGenerated_bind hread with ⟨content, hcontent, -⟩ | ⟨⟨_, ⟨⟩⟩, -⟩
        exact not_hasDirectory ((read_of_leads (h.keeps hm.keeps)).mp hcontent).2
      have hkeeps := (hm.trans hn).keeps
      refine local_bind (local_isPresent (h'.keeps hkeeps)) fun occupied k hk _ => ?_
      cases occupied with
      | true => exact local_throw _
      | false =>
        have hrename := Program.local_rename ((h.keeps hkeeps).keeps hk.keeps)
          ((h'.keeps hkeeps).keeps hk.keeps) hne (mt ((hn.trans hk).directories _).mp hfile)
        exact local_bind (local_ask hrename) fun reply _ _ _ =>
          local_bind (local_expect _ reply) fun _ _ _ _ => local_pure _

private theorem local_restore (h : d.Leads script here name) (h' : d.Leads backup here other)
    (hne : other ≠ name) (hfile : ¬ d.HasDirectory (here ++ [other])) :
    (restore script backup).Local here d :=
  local_bind (local_ask (Program.local_rename h' h hne hfile)) fun reply _ _ _ =>
    local_expect _ reply

private theorem not_hasDirectory_backup (h : d.Leads script here name)
    (h' : d.Leads backup here other) (hne : name ≠ other) {m : Disk}
    (hmoved : (moveAside script backup).Leaves (fun _ => False) d (.ok .movedAside) m) :
    ¬ m.HasDirectory (here ++ [other]) := by
  cases movesAside_of_leaves hmoved with
  | moved hread _ _ hrename =>
    obtain ⟨-, -, hmove⟩ := moved_of_rename h h' hne hrename
    exact not_hasDirectory (hmove.target.trans ((read_of_leads h).mp hread).2)

/-- A generated script is written by work in its package. -/
theorem local_writeScript {preferences : Preferences} (hp : preferences.Plain)
    (hne : preferences.scriptName ≠ preferences.backupName) {package : Path}
    (henters : d.Enters package here) (text : String) (keep : Bool) :
    (writeScript preferences package text keep).Local here d := by
  have hscript := henters.leads_script hp
  have hbackup := henters.leads_backup hp
  have hwrite {m : Disk} (hm : d.Within here m) (moved : Bool)
      (hfile : moved = true → ¬ m.HasDirectory (here ++ [preferences.backupName])) :
      (tryCatch (replace (preferences.scriptPath package) (Text.Utf8.encode text)) fun failure => do
        if moved then
          restore (preferences.scriptPath package)
            (preferences.backupPath (preferences.scriptPath package))
        throw failure : Job Unit).Local here m := by
    refine local_tryCatch (local_replace (hscript.keeps hm.keeps) hp.script.slashless _)
      fun f n hn => ?_
    cases moved with
    | false => exact local_throw f
    | true =>
      have hkeeps := (hm.trans hn).keeps
      exact local_bind (local_restore (hscript.keeps hkeeps) (hbackup.keeps hkeeps) hne.symm
        (mt (hn.directories _).mp (hfile rfl))) fun _ _ _ _ => local_throw f
  rw [writeScript]
  cases keep with
  | false =>
    refine local_bind (local_pure BackupOutcome.absent) fun outcome m hm houtcome => ?_
    obtain ⟨⟨⟩, -⟩ := leaves_pure.mp houtcome
    exact local_bind (hwrite hm _ fun h => absurd h (by decide)) fun _ _ _ _ => local_pure _
  | true =>
    refine local_bind (local_moveAside hscript hbackup hne) fun outcome m hm houtcome => ?_
    refine local_bind (hwrite hm _ fun hmoved => ?_) fun _ _ _ _ => local_pure _
    obtain rfl := of_decide_eq_true hmoved
    exact not_hasDirectory_backup hscript hbackup hne houtcome

private theorem local_warnings (messages : List String) :
    Job.Local here (messages.forM fun message => ask (.warn message)) d := by
  induction messages generalizing d with
  | nil => exact local_pure ()
  | cons message rest ih => exact local_bind (local_ask (Program.local_warn message)) fun _ _ _ _ => ih

/-- Compiling a document of a package is work in the package. -/
theorem local_compile {document : Path} (henters : d.Enters (packageOf document) here)
    (format : OutputFormat) : (compile document format).Local here d := by
  have hread := Program.local_read fun _ he => he.sameAt_document henters
  refine local_bind (local_bind (local_ask hread) fun reply _ _ _ => local_bind
    (local_expect _ reply) fun bytes _ _ _ => ?_) fun text _ _ _ => local_within ?_
  · cases Text.Utf8.decode? bytes with
    | some s => exact local_pure s
    | none => exact local_throw _
  · refine local_bind (local_warnings _) fun _ _ _ _ => ?_
    cases (compileText text document.text format).outcome with
    | ok s => exact local_pure s
    | error problem => exact local_throw _

end Files

namespace Command
open Job Files

/-- Whatever is done for a document is done in its package. -/
theorem local_make (i : Invocation) {p : Preferences} (hp : p.fault? = none)
    (format : OutputFormat) {document : Path} (henters : d.Enters (packageOf document) here) :
    (Product.make i p format document).Local here d := by
  have hcompile := local_compile henters format
  refine local_within ?_
  split
  · exact local_map _ hcompile
  · exact local_map _ (local_bind hcompile fun text m hm _ =>
      local_writeScript (Preferences.plain_of_fault? hp).1 (Preferences.scriptName_ne_backupName hp)
        (henters.keeps hm.keeps) text _)

end Command

end PackageScript
