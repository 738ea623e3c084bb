import PackageScript.Proofs.Files.Document
import PackageScript.Proofs.Files.Interleaving
/-! Tasks that compile into one package at the same time, and what becomes of a hand-written script. -/
namespace PackageScript

open Job Files Disk Command

namespace Preferences

variable (p : Preferences) (here : Location)

def moveAway : Move := (p.scriptIn here, p.backupIn here)

def moveBack : Move := (p.backupIn here, p.scriptIn here)

def moveIn : Move := (p.temporaryIn here, p.scriptIn here)

end Preferences

/-- What a call made for a package comes to, with the move that it makes. -/
inductive Turn (p : Preferences) (package : Path) (here : Location) (d : Disk) :
    List Move → Disk → Prop
  | still {e : Disk} : d.Keeps e →
      (∀ name, name ≠ p.temporaryName → e.view (here ++ [name]) = d.view (here ++ [name]) ∨
        d.view (here ++ [name]) = none ∧ e.view (here ++ [name]) = some none) →
      Turn p package here d [] e
  | away {e : Disk} : Moved d e (p.scriptIn here) (p.backupIn here) → Turn p package here d [p.moveAway here] e
  | back {e : Disk} : Moved d e (p.backupIn here) (p.scriptIn here) → Turn p package here d [p.moveBack here] e
  | into {e : Disk} : checkEntry (p.scriptPath package) p.scriptName = .ok () →
      Moved d e (p.temporaryIn here) (p.scriptIn here) → Turn p package here d [p.moveIn here] e

section Turn

variable {faulty : Call → Prop} {p : Preferences} {d e : Disk} {here : Location} {package : Path}
  {call : Call} {reply : call.Reply}

private theorem moved_of_replies {q : Path} {name name' : String}
    {reply : (Call.rename q (package.join name')).Reply} (hplace : d.place package = here)
    (hname' : IsName name') (hleads : d.Enters package here → d.Leads q here name)
    (hne : name ≠ name') (h : d.Replies faulty (.rename q (package.join name')) reply e) :
    reply = .ok () ∧ checkEntry (package.join name') name' = .ok () ∧
        Moved d e (here ++ [name]) (here ++ [name']) ∨
      (∃ f, reply = .error f) ∧ e = d := by
  rcases replies_rename h with ⟨rfl, hrename⟩ | ⟨hfailed, rfl, -⟩
  · obtain ⟨l, henters⟩ := enters_of_rename hname'.slashless hname'.entry hrename
    obtain rfl := henters.place_eq.symm.trans hplace
    obtain ⟨-, hcheck, hmoved⟩ := moved_of_rename (hleads henters)
      (henters.leads hname'.slashless hname'.entry) hne hrename
    exact Or.inl ⟨rfl, hcheck, hmoved⟩
  · exact Or.inr ⟨hfailed, rfl⟩

private theorem turn_of_replies (hp : p.Distinct) (hcall : Compiling p package call)
    (hplace : d.place package = here) (h : d.Replies faulty call reply e) :
    Turn p package here d (d.moves call reply) e := by
  have hscript := d.place_scriptPath package hp.toPlain
  have hbackup := d.place_backupPath package hp.toPlain
  have htemporary := d.place_temporary package hp.toPlain
  rw [hplace] at hscript hbackup htemporary
  have hstill (hmoves : d.moves call reply = [])
      (hchanges : ∀ l ∈ d.changes call, l = p.temporaryIn here) :
      Turn p package here d (d.moves call reply) e := by
    rw [hmoves]
    refine .still (h.keeps hmoves) fun name hname => ?_
    have hframe : ∀ l ∈ d.changes call, ¬ l <+: here ++ [name] := fun l hl => by
      rw [hchanges l hl]
      exact not_prefix_of_ne hname.symm
    rcases h.view hframe with hsame | ⟨_, _, _, hnew⟩
    · exact Or.inl hsame
    · exact Or.inr hnew
  have hunmoved : Turn p package here d [] d := .still (.refl d) fun _ _ => Or.inl rfl
  cases hcall with
  | look q => exact hstill rfl nofun
  | read q => exact hstill rfl nofun
  | warn message => exact hstill rfl nofun
  | above => exact hstill rfl nofun
  | write content => exact hstill rfl (by simp [Disk.changes, htemporary])
  | discard => exact hstill rfl (by simp [Disk.changes, htemporary])
  | put =>
    rcases moved_of_replies hplace hp.script (·.leads_temporary hp.toPlain)
      hp.script_ne_temporary.symm h with ⟨rfl, hcheck, hmoved⟩ | ⟨⟨f, rfl⟩, rfl⟩
    · rw [Disk.moves, hscript, htemporary]
      exact .into hcheck hmoved
    · exact hunmoved
  | aside =>
    rw [hp.backupPath_scriptPath] at h hbackup ⊢
    rcases moved_of_replies hplace hp.toPlain.backup (·.leads_script hp.toPlain)
      hp.script_ne_backup h with ⟨rfl, -, hmoved⟩ | ⟨⟨f, rfl⟩, rfl⟩
    · rw [Disk.moves, hscript, hbackup]
      exact .away hmoved
    · exact hunmoved
  | back =>
    rcases moved_of_replies hplace hp.script (·.leads_backup hp.toPlain)
      hp.script_ne_backup.symm h with ⟨rfl, -, hmoved⟩ | ⟨⟨f, rfl⟩, rfl⟩
    · rw [Disk.moves, hscript, hbackup]
      exact .back hmoved
    · exact hunmoved

/-- Whether a hand-written script is where it was, and no other file is in its way to the backup. -/
def InPlace (p : Preferences) (here : Location) (old : Bytes) (d : Disk) : Prop :=
  d.view (p.scriptIn here) = some (some old) ∧
    ∀ content, d.view (p.backupIn here) ≠ some (some content)

variable {moves : List Move} {old : Bytes}

/-- A script that is in place stays there, or is moved away, or another one is moved in. -/
theorem InPlace.turn (hd : InPlace p here old d) (hp : p.Distinct)
    (h : Turn p package here d moves e) :
    moves = [] ∧ d.Keeps e ∧ InPlace p here old e ∨
      moves = [p.moveAway here] ∧ e.view (p.backupIn here) = some (some old) ∨
        moves = [p.moveIn here] ∧ checkEntry (p.scriptPath package) p.scriptName = .ok () := by
  obtain ⟨hscript, hfree⟩ := hd
  cases h with
  | still hkeeps hview =>
    refine Or.inl ⟨rfl, hkeeps, ?_, fun content hcontent => ?_⟩
    · rcases hview _ hp.script_ne_temporary with hsame | ⟨hnone, -⟩
      · exact hsame.trans hscript
      · exact absurd (hscript.symm.trans hnone) nofun
    · rcases hview _ hp.backup_ne_temporary with hsame | ⟨-, hnew⟩
      · exact hfree content (hsame.symm.trans hcontent)
      · exact absurd (hcontent.symm.trans hnew) nofun
  | away hmoved => exact Or.inr (Or.inl ⟨rfl, hmoved.target.trans hscript⟩)
  | back hmoved =>
    -- Only a file takes the place of a file, and there is none at the backup.
    obtain ⟨moved, hbackup⟩ := hmoved.fits old hscript
    exact absurd hbackup (hfree moved)
  | into hcheck hmoved => exact Or.inr (Or.inr ⟨rfl, hcheck⟩)

/-- A script that is moved away stays there, or is moved back, or another one is moved away. -/
theorem turn_of_away (hd : d.view (p.backupIn here) = some (some old)) (hp : p.Distinct)
    (h : Turn p package here d moves e) :
    (moves = [] ∨ moves = [p.moveIn here]) ∧ e.view (p.backupIn here) = some (some old) ∨
      moves = [p.moveBack here] ∧ InPlace p here old e ∨ moves = [p.moveAway here] := by
  cases h with
  | still hkeeps hview =>
    rcases hview _ hp.backup_ne_temporary with hsame | ⟨hnone, -⟩
    · exact Or.inl ⟨Or.inl rfl, hsame.trans hd⟩
    · exact absurd (hd.symm.trans hnone) nofun
  | away => exact Or.inr (Or.inr rfl)
  | back hmoved =>
    refine Or.inr (Or.inl ⟨rfl, hmoved.target.trans hd, fun content hcontent => ?_⟩)
    exact absurd (hcontent.symm.trans hmoved.source) nofun
  | into hcheck hmoved =>
    refine Or.inl ⟨Or.inr rfl, (hmoved.others _ ?_ ?_).trans hd⟩
    · exact not_prefix_of_ne hp.backup_ne_temporary.symm
    · exact not_prefix_of_ne hp.script_ne_backup

end Turn

/-- Where the moves of tasks leave a hand-written script. -/
inductive Stage where
  | untouched
  | away
  | back

namespace Stage

section
variable (p : Preferences) (here : Location)

/-- The stage after a move. There is none if another script takes the place of the hand-written
one: if one is moved away after it, or moved in after it was moved back. -/
def after : Stage → Move → Option Stage
  | .untouched, move => if move = p.moveAway here then some .away else some .untouched
  | .away, move =>
    if move = p.moveAway here then none
    else if move = p.moveBack here then some .back
    else some .away
  | .back, move =>
    if move = p.moveIn here then none
    else if move = p.moveAway here then some .away
    else some .back

/-- What is so at a stage. -/
def Holds (old : Bytes) : Stage → Disk → Prop
  | .untouched, d | .back, d => InPlace p here old d
  | .away, d => d.view (p.backupIn here) = some (some old)

end

variable {p : Preferences} {here : Location} {package : Path} {d e : Disk} {moves : List Move}
  {old : Bytes} {stage next : Stage}

private theorem foldlM_untouched (h : p.moveAway here ∉ moves) :
    moves.foldlM (after p here) .untouched = some .untouched := by
  induction moves with
  | nil => rfl
  | cons move more ih =>
    obtain ⟨hne, hmore⟩ := not_or.mp (List.mem_cons.not.mp h)
    rw [List.foldlM_cons, after, if_neg (Ne.symm hne)]
    exact ih hmore

/-- What a task does leaves the script where the moves tell, if an untouched script is only ever
moved away. -/
theorem holds_of_turn (hp : p.Distinct) (h : Turn p package here d moves e)
    (hnext : moves.foldlM (after p here) stage = some next)
    (hwaits : stage = .untouched → p.moveAway here ∉ moves → InPlace p here old e)
    (hd : stage.Holds p here old d) :
    next.Holds p here old e ∧
      (next = .untouched → stage = .untouched ∧ p.moveAway here ∉ moves) := by
  have haway : p.moveBack here ≠ p.moveAway here := fun heq =>
    hp.scriptIn_ne_backupIn here (congrArg Prod.snd heq)
  have hin : p.moveIn here ≠ p.moveAway here := fun heq =>
    hp.scriptIn_ne_backupIn here (congrArg Prod.snd heq)
  have hback : p.moveIn here ≠ p.moveBack here := fun heq =>
    hp.backupIn_ne_temporaryIn here (congrArg Prod.fst heq).symm
  cases stage with
  | untouched =>
    by_cases hmove : p.moveAway here ∈ moves
    · rcases InPlace.turn hd hp h with ⟨rfl, -⟩ | ⟨rfl, hmoved⟩ | ⟨rfl, -⟩
      · cases hmove
      · simp only [List.foldlM_cons, List.foldlM_nil, after, if_true] at hnext
        cases hnext
        exact ⟨hmoved, nofun⟩
      · exact absurd (List.mem_singleton.mp hmove) hin.symm
    · rw [foldlM_untouched hmove] at hnext
      cases hnext
      exact ⟨hwaits rfl hmove, fun _ => ⟨rfl, hmove⟩⟩
  | away =>
    rcases turn_of_away hd hp h with ⟨rfl | rfl, hstays⟩ | ⟨rfl, hplace⟩ | rfl
    · cases hnext
      exact ⟨hstays, nofun⟩
    · simp only [List.foldlM_cons, List.foldlM_nil, after, if_neg hin, if_neg hback] at hnext
      cases hnext
      exact ⟨hstays, nofun⟩
    · simp only [List.foldlM_cons, List.foldlM_nil, after, if_neg haway, if_true] at hnext
      cases hnext
      exact ⟨hplace, nofun⟩
    · simp only [List.foldlM_cons, after, if_true] at hnext
      cases hnext
  | back =>
    rcases InPlace.turn hd hp h with ⟨rfl, -, hplace⟩ | ⟨rfl, hmoved⟩ | ⟨rfl, -⟩
    · cases hnext
      exact ⟨hplace, nofun⟩
    · simp only [List.foldlM_cons, List.foldlM_nil, after, if_neg hin.symm, if_true] at hnext
      cases hnext
      exact ⟨hmoved, nofun⟩
    · simp only [List.foldlM_cons, after, if_true] at hnext
      cases hnext

end Stage

section Waits
open PackageScript.Path

variable {faulty : Call → Prop} {p : Preferences} {d : Disk} {here : Location} {old : Bytes}
  {document package : Path} {format : OutputFormat} {i : Invocation}

private theorem waits_compile (hplace : d.place (packageOf document) = here) :
    Job.Waits faulty (InPlace p here old) (p.moveAway here)
      (fun _ e => e.Enters (packageOf document) here) (Files.compile document format) d := by
  have hread : Job.Waits faulty (InPlace p here old) (p.moveAway here)
      (fun _ e => e.Enters (packageOf document) here)
      (readText ("Failed to read " ++ document.text) document) d := by
    refine waits_bind (Q := fun reply e => ∀ content, reply = .ok content →
      e.Enters (packageOf document) here) ?_ fun reply e hreply => ?_
    · refine waits_ask (.read document) fun d' reply e hd' hkept hreply _ => ?_
      obtain ⟨rfl, hread⟩ := replies_read hreply
      refine ⟨.refl e, hkept, fun content hcontent => ?_⟩
      rcases hread with ⟨_, -, hread⟩ | ⟨⟨f, rfl⟩, -⟩
      · obtain ⟨l, henters⟩ := enters_packageOf hread
        rwa [← hplace, ← place_congr hd'.current, henters.place_eq]
      · cases hcontent
    · cases reply with
      | error f => exact waits_throw _
      | ok content =>
        refine waits_bind (Q := fun _ m => m = e) (waits_pure rfl) fun bytes m hm => ?_
        cases Text.Utf8.decode? bytes with
        | some s => exact waits_pure (hm ▸ hreply content rfl)
        | none => exact waits_throw _
  refine waits_bind hread fun source e henters => waits_within ?_
  refine ((asks_ofChecked (P := fun call => ∃ message, call = .warn message)
    (fun message => ⟨message, rfl⟩) _).waits ?_).mono fun _ m hm => henters.keeps hm
  rintro _ d' reply m ⟨message, rfl⟩ hd' hkept hreply _
  obtain rfl := replies_warn.mp hreply
  exact ⟨.refl m, hkept⟩

private theorem waits_isPresent (henters : d.Enters package here) (q : Path) :
    Job.Waits faulty (InPlace p here old) (p.moveAway here) (fun present e =>
      e.Enters package here ∧ ∃ d' : Disk, d'.Enters package here ∧ InPlace p here old d' ∧
        present = (d'.kind? q).isSome) (isPresent q) d := by
  refine waits_bind (Q := fun reply e => e.Enters package here ∧ InPlace p here old e ∧
    reply = e.kind? q) ?_ fun reply e ⟨he, hplace, hreply⟩ => ?_
  · refine waits_ask (.look q) fun d' reply e hd' hplace hreply _ => ?_
    obtain ⟨rfl, rfl⟩ := replies_look.mp hreply
    exact ⟨.refl e, hplace, henters.keeps hd', hplace, rfl⟩
  · exact waits_pure ⟨he, e, he, hplace, hreply ▸ rfl⟩

private theorem waits_readGenerated (hp : p.Plain) (henters : d.Enters package here)
    (hhand : HandWritten old) :
    Job.Waits faulty (InPlace p here old) (p.moveAway here)
      (fun generated e => e.Enters package here ∧ generated = false)
      (readGenerated (p.scriptPath package)) d := by
  refine waits_bind (Q := fun reply e => e.Enters package here ∧
    ∀ content, reply = .ok content → content = old) ?_ fun reply e ⟨he, hold⟩ => ?_
  · refine waits_ask (.read _) fun d' reply e hd' hplace hreply _ => ?_
    have he := henters.keeps hd'
    obtain ⟨rfl, hread⟩ := replies_read hreply
    refine ⟨.refl e, hplace, he, fun content hcontent => ?_⟩
    obtain ⟨_, rfl, hread⟩ | ⟨⟨f, rfl⟩, -⟩ := hread
    · obtain ⟨-, hview⟩ := (read_of_leads (he.leads_script hp)).mp hread
      cases hcontent
      exact Option.some_inj.mp (Option.some_inj.mp (hview.symm.trans hplace.1))
    · cases hcontent
  · cases reply with
    | error f => exact waits_throw _
    | ok content => exact waits_pure ⟨he, hold content rfl ▸ hhand⟩

private theorem waits_moveAside (hp : p.Plain) (henters : d.Enters package here)
    (hhand : HandWritten old) : Job.Waits faulty (InPlace p here old) (p.moveAway here)
    (fun outcome e => e.Enters package here ∧ outcome = .absent ∧
      checkEntry (p.scriptPath package) p.scriptName ≠ .ok ())
    (moveAside (p.scriptPath package) (p.backupPath (p.scriptPath package))) d := by
  refine waits_bind (waits_isPresent henters _) fun present e ⟨he, m, hm, hplace, hpresent⟩ => ?_
  split
  · refine waits_pure ⟨he, rfl, fun hcheck => ?_⟩
    have hnone : m.kind? (p.scriptPath package) = none := by simp_all
    have hview := (kind?_eq_none (hm.leads_script hp)).mp hnone hcheck
    exact absurd (hplace.1.symm.trans hview) nofun
  refine waits_bind (waits_readGenerated hp he hhand) fun generated e ⟨he, hgenerated⟩ => ?_
  rw [hgenerated]
  refine waits_bind (waits_isPresent he _) fun occupied e ⟨he, _⟩ => ?_
  split
  · exact waits_throw _
  refine waits_bind (Q := fun reply _ => ∃ f, reply = .error f) ?_
    fun reply e ⟨f, hreply⟩ => ?_
  · refine waits_ask (.rename _ _) fun d' reply e hd' hplace hreply hmove => ?_
    rcases replies_rename hreply with ⟨rfl, -⟩ | ⟨hfailed, rfl, -⟩
    · rw [Disk.moves, d'.place_scriptPath package hp, d'.place_backupPath package hp,
        (he.keeps hd').place_eq] at hmove
      exact absurd List.mem_cons_self hmove
    · exact ⟨.refl e, hplace, hfailed⟩
  · rw [hreply]
    exact waits_throw _

private theorem waits_writeScript (hp : p.Distinct) (henters : d.Enters package here)
    (hhand : HandWritten old) (text : String) :
    Job.Waits faulty (InPlace p here old) (p.moveAway here) (fun _ _ => True)
      (writeScript p package text true) d := by
  have hrest := asks_writeScript p package text false
  rw [writeScript] at hrest ⊢
  simp only [Bool.false_eq_true, if_false, if_true, pure_bind] at hrest ⊢
  refine waits_bind (waits_moveAside hp.toPlain henters hhand) fun outcome e houtcome => ?_
  obtain ⟨he, habsent, hcheck⟩ := houtcome
  rw [habsent]
  refine (Asks.waits hrest ?_).mono fun _ _ _ => trivial
  intro call d' reply m hcall hd' hkept hreply hmove
  have hturn := turn_of_replies hp hcall (he.keeps hd').place_eq hreply
  rcases hkept.turn hp hturn with ⟨-, hkept⟩ | ⟨hmoves, -⟩ | ⟨-, hcheck'⟩
  · exact hkept
  · exact absurd (hmoves ▸ List.mem_cons_self) hmove
  · exact absurd hcheck' hcheck

private theorem waits_make (hp : p.Distinct) (hkeep : i.has .noBackup = false)
    (hplace : d.place (packageOf document) = here) (hhand : HandWritten old) :
    Job.Waits faulty (InPlace p here old) (p.moveAway here) (fun _ _ => True)
      (Product.make i p format document) d := by
  refine waits_within ?_
  split
  · exact waits_map ((waits_compile hplace).mono fun _ _ _ => trivial)
  · refine waits_map (waits_bind (waits_compile hplace) fun text e henters => ?_)
    rw [hkeep]
    exact waits_writeScript hp henters hhand text

end Waits

section Tasks
open Program

variable {faulty : Call → Prop} {p : Preferences} {start d m e : Disk} {here : Location} {old : Bytes}
  {α : Type} {pool rest : List (Program α)} {log : List Move} {stage last : Stage}

/-- Whether a program makes calls for packages at a location only, and before a script there is
touched, waits with its changes until it is moved away. -/
structure IsTask (faulty : Call → Prop) (p : Preferences) (start : Disk) (here : Location) (old : Bytes)
    (stage : Stage) (d : Disk) (x : Program α) : Prop where
  asks : x.Asks fun call => ∃ package, start.place package = here ∧ Compiling p package call
  waits : stage = .untouched →
    x.Waits faulty (InPlace p here old) (p.moveAway here) (fun _ _ => True) d

private theorem IsTask.keeps {x : Program α} (hx : IsTask faulty p start here old stage d x)
    (hm : last = .untouched → stage = .untouched ∧ d.Keeps m) :
    IsTask faulty p start here old last m x := by
  refine ⟨hx.asks, fun hlast => ?_⟩
  obtain ⟨hstage, hkeeps⟩ := hm hlast
  exact (hx.waits hstage).keeps hkeeps

private theorem IsTask.step (hp : p.Distinct) {call : Call} {next : call.Reply → Program α}
    {reply : call.Reply} (hx : IsTask faulty p start here old stage d (.ask call next))
    (hcurrent : d.current = start.current) (hd : stage.Holds p here old d)
    (hreply : d.Replies faulty call reply m)
    (hlast : (d.moves call reply).foldlM (Stage.after p here) stage = some last) :
    last.Holds p here old m ∧ IsTask faulty p start here old last m (next reply) ∧
      (last = .untouched → stage = .untouched ∧ d.Keeps m) := by
  cases hx.asks with
  | ask hcall hrest =>
    obtain ⟨package, hplace, hcall⟩ := hcall
    have hturn := turn_of_replies hp hcall ((place_congr hcurrent _).trans hplace) hreply
    have hwaits (hstage : stage = .untouched) (hmove : p.moveAway here ∉ d.moves call reply) :=
      (hx.waits hstage).step (by subst hstage; exact hd) hreply hmove
    obtain ⟨hholds, huntouched⟩ := Stage.holds_of_turn hp hturn hlast
      (fun hstage hmove => (hwaits hstage hmove).2.1) hd
    refine ⟨hholds, ⟨hrest reply, fun h => ?_⟩, fun h => ?_⟩
    · obtain ⟨hstage, hmove⟩ := huntouched h
      exact (hwaits hstage hmove).2.2
    · obtain ⟨hstage, hmove⟩ := huntouched h
      exact ⟨hstage, (hwaits hstage hmove).1⟩

/-- Tasks in any order leave a hand-written script where their moves tell. -/
theorem holds_of_interleaves (hp : p.Distinct) (h : Interleaves faulty pool d log rest e)
    (hlast : log.foldlM (Stage.after p here) stage = some last)
    (htasks : ∀ x ∈ pool, IsTask faulty p start here old stage d x) (hcurrent : d.current = start.current)
    (hd : stage.Holds p here old d) : last.Holds p here old e := by
  induction h generalizing stage with
  | stop =>
    cases hlast
    exact hd
  | turn before after hreply _ ih =>
    rw [List.foldlM_append] at hlast
    obtain ⟨next, hnext, hlast⟩ := Option.bind_eq_some_iff.mp hlast
    obtain ⟨hbefore, hothers⟩ := List.forall_mem_append.mp htasks
    obtain ⟨hturn, hafter⟩ := List.forall_mem_cons.mp hothers
    obtain ⟨hholds, hgoes, hkeeps⟩ := hturn.step hp hcurrent hd hreply hnext
    refine ih hlast ?_ (hreply.current.trans hcurrent) hholds
    exact List.forall_mem_append.mpr ⟨fun x hx => (hbefore x hx).keeps hkeeps,
      List.forall_mem_cons.mpr ⟨hgoes, fun x hx => (hafter x hx).keeps hkeeps⟩⟩

end Tasks

/-- Whether another script never takes the place of a hand-written one by the moves of tasks. -/
def Orderly (p : Preferences) (here : Location) (log : List Move) : Prop :=
  (log.foldlM (Stage.after p here) .untouched).isSome = true

instance (p : Preferences) (here : Location) (log : List Move) : Decidable (Orderly p here log) :=
  inferInstanceAs (Decidable (_ = _))

/-- Tasks that compile into one package, however their calls alternate and whichever of them fail,
never lose a hand-written script as long as their moves are orderly. What they look at is answered
from the disk as it is at that moment. -/
theorem kept_of_orderly {faulty : Call → Prop} {p : Preferences} (hp : p.Distinct) {i : Invocation}
    (hkeep : i.has .noBackup = false) {format : OutputFormat} {documents : List Path} {d e : Disk}
    {here : Location} (hplaces : ∀ q ∈ documents, d.place (packageOf q) = here) {old : Bytes}
    (hscript : d.view (p.scriptIn here) = some (some old)) (hhand : HandWritten old)
    (hbackup : d.view (p.backupIn here) = none) {log : List Move}
    {rest : List (Program (Except Failure Product))}
    (h : Program.Interleaves faulty
      (documents.map fun q => (Product.make i p format q).run) d log rest e)
    (hlog : Orderly p here log) :
    e.view (p.scriptIn here) = some (some old) ∨ e.view (p.backupIn here) = some (some old) := by
  obtain ⟨last, hlast⟩ := Option.isSome_iff_exists.mp hlog
  have htasks : ∀ x ∈ documents.map fun q => (Product.make i p format q).run,
      IsTask faulty p d here old .untouched d x := by
    refine List.forall_mem_map.mpr fun q hq => ⟨?_, fun _ => ?_⟩
    · exact asks_make.mono fun call hcall => ⟨packageOf q, hplaces q hq, hcall⟩
    · exact Program.Waits.mono (waits_make hp hkeep (hplaces q hq) hhand) fun _ _ _ => trivial
  have hd : InPlace p here old d := ⟨hscript, fun content hcontent => by simp [hbackup] at hcontent⟩
  have hholds := holds_of_interleaves hp h hlast htasks rfl hd
  cases last with
  | untouched | back => exact Or.inl hholds.1
  | away => exact Or.inr hholds

/-- Two tasks for one document, which is given by two paths. -/
def twoTasks : List (Program (Except Failure Product)) :=
  [⟨"pkg/hscript.yml"⟩, ⟨"./pkg/hscript.yml"⟩].map fun q =>
    (Product.make { verb := .compile } {} .script q).run

/-- The second task reads the document before the first one compiles it, and looks at the script
after that. -/
theorem kept_of_orderly_late :
    let run := Program.takeTurns (1 :: List.replicate 9 0 ++ [1]) twoTasks packageByHand
    run.1 = [Preferences.moveAway {} ["pkg"], Preferences.moveIn {} ["pkg"]] ∧
      (run.2.2.view ["pkg", "wscript"] = some (some (Text.Utf8.encode "mine\n")) ∨
        run.2.2.view ["pkg", "wscript.hscript-orig"] = some (some (Text.Utf8.encode "mine\n"))) := by
  dsimp only
  have hlog : (Program.takeTurns (1 :: List.replicate 9 0 ++ [1]) twoTasks packageByHand).1 =
      [Preferences.moveAway {} ["pkg"], Preferences.moveIn {} ["pkg"]] := by decide +kernel
  have hrun := Program.interleaves_takeTurns (fun _ => False) (1 :: List.replicate 9 0 ++ [1])
    twoTasks packageByHand
  generalize Program.takeTurns (1 :: List.replicate 9 0 ++ [1]) twoTasks packageByHand = run
    at hlog hrun ⊢
  have hplaces : ∀ q ∈ [⟨"pkg/hscript.yml"⟩, ⟨"./pkg/hscript.yml"⟩],
      packageByHand.place (packageOf q) = ["pkg"] := by decide +kernel
  have horderly : Orderly {} ["pkg"] run.1 := by
    rw [hlog]
    decide +kernel
  exact ⟨hlog, kept_of_orderly Preferences.distinct_default rfl hplaces (by decide +kernel)
    (by decide +kernel) (by decide +kernel) hrun horderly⟩

/-- The second task goes on only after the first one has ended. By then it has looked for the
backup, which was not there, and now it moves the generated script over it. -/
theorem lost_in_race : ∃ log rest e,
    Program.Interleaves (fun _ => False) twoTasks packageByHand log rest e ∧
      (∀ x ∈ rest, x.ended = true) ∧
      HandWritten (Text.Utf8.encode "mine\n") ∧
      packageByHand.view ["pkg", "wscript"] = some (some (Text.Utf8.encode "mine\n")) ∧
      packageByHand.view ["pkg", "wscript.hscript-orig"] = none ∧
      e.view ["pkg", "wscript"] ≠ some (some (Text.Utf8.encode "mine\n")) ∧
      e.view ["pkg", "wscript.hscript-orig"] ≠ some (some (Text.Utf8.encode "mine\n")) := by
  have hturns := Program.interleaves_takeTurns (fun _ => False)
    (List.replicate 4 1 ++ List.replicate 9 0 ++ List.replicate 5 1) twoTasks packageByHand
  refine ⟨_, _, _, hturns, ?_⟩
  decide +kernel

end PackageScript
