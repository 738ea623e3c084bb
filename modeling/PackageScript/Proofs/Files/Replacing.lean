import PackageScript.Proofs.Files.Frame
import PackageScript.Proofs.Files.Package
/-! Files replaced as a whole, what is there after it, and after a failure. -/
namespace PackageScript

namespace Disk
open PackageScript.Path

variable {d e : Disk} {p a : Path} {l : Location}

/-- Whether a directory came into being at a location on the way to a path. -/
structure MadeAbove (d e : Disk) (p : Path) (l : Location) : Prop where
  before : d.view l = none
  after : e.view l = some none
  ancestor : ∃ directory, p.parent? = some directory ∧
    ∃ a ∈ directory.ancestors, a.text ≠ "" ∧ d.place a = l

/-- What is made on the way to a path is at its place only if the path goes through `..`. -/
theorem MadeAbove.goesUp (h : d.MadeAbove e p (d.place p)) : ".." ∈ p.segments := by
  obtain ⟨directory, hparent, a, ha, hne, hplace⟩ := h.ancestor
  by_contra hdots
  by_cases hempty : directory.text = ""
  · rw [Path.ancestors, Path.upwards_of_empty hempty, List.mem_singleton] at ha
    exact hne (ha ▸ hempty)
  · obtain ⟨⟨name, hname⟩, hdots'⟩ := place_of_parent? d hparent hempty hdots
    have hlength := (place_of_upwards d hdots' _ a ha hne).length_le
    rw [hplace, hname, List.length_append, List.length_singleton] at hlength
    omega

/-- The temporary file of a path that can be followed is beside it. -/
theorem leads_temporary_of_locate {name : String} (hname : p.fileName? = some name) {m : Location}
    (h : d.locate p.temporary = .ok m) : ∃ l, d.Leads p.temporary l ("." ++ name ++ ".tmp") := by
  obtain ⟨hisName, parent, -, -, htemporary⟩ := d.place_of_fileName? hname
  have hentry := isName_temporary hisName.slashless
  rw [htemporary] at h ⊢
  obtain ⟨l, henters⟩ := enters_of_locate hentry.slashless hentry.entry h
  exact ⟨l, henters.leads hentry.slashless hentry.entry⟩

/-- A file is moved only to a path that leads to a name. -/
theorem leads_of_rename {q : Path} {content : Bytes}
    (hfile : d.view (d.place q) = some (some content)) (h : d.rename q p = .ok e) :
    ∃ l name, d.Leads p l name := by
  rw [rename] at h
  split at h
  · cases h
  obtain ⟨-, -, h⟩ := bind_eq_ok.mp h
  obtain ⟨s, hs, h⟩ := bind_eq_ok.mp h
  obtain ⟨t, ht, h⟩ := bind_eq_ok.mp h
  split at h
  · rename_i sourceName targetName hsource htarget
    obtain ⟨-, -, h⟩ := bind_eq_ok.mp h
    split at h
    · cases h
    rename_i moved hmoved
    rw [place_of_slot hs hsource, view_eq_file.mp hfile] at hmoved
    cases hmoved
    obtain ⟨-, -, h⟩ := bind_eq_ok.mp h
    split at h
    · cases h
    rename_i hslashed
    obtain ⟨-, -, ht⟩ := bind_eq_ok.mp ht
    dsimp only at ht
    obtain ⟨here, hfollow, ht⟩ := bind_eq_ok.mp ht
    cases ht
    obtain ⟨hlast, hentry⟩ := Option.filter_eq_some_iff.mp htarget
    obtain ⟨before, hbefore⟩ := List.getLast?_eq_some_iff.mp hlast
    -- A slash at the end would ask for a directory, so the name is the last segment.
    have hsegments : p.segments = before ++ [targetName] := by
      obtain ⟨slashes, hslashes, -⟩ := Text.exists_dropEndWhile_append (· == "") p.segments
      have hle : ¬ (unslashed p).length < p.segments.length :=
        fun hlt => hslashed ⟨rfl, Or.inr (decide_eq_true hlt)⟩
      have hlength := congrArg List.length hslashes
      rw [List.length_append, ← unslashed] at hlength
      have hnil : slashes = [] := List.length_eq_zero_iff.mp (by omega)
      rw [hslashes, hnil, List.append_nil]
      exact hbefore
    rw [hbefore, List.dropLast_concat, follow_append] at hfollow
    obtain ⟨l, hfront, hempty⟩ := bind_eq_ok.mp hfollow
    refine ⟨l, targetName, ⟨?_, ?_⟩, hasDirectory_of_follow hempty, before, hsegments, hfront⟩
    · simpa using (Bool.and_eq_true_iff.mp hentry).1
    · simpa using (Bool.and_eq_true_iff.mp hentry).2
  · cases h

/-- No directory is made where one is entered. -/
theorem Enters.createDirectory_ne (h : d.Enters p l) : d.createDirectory p ≠ .ok e := by
  intro hcreate
  obtain ⟨hfree, -⟩ := createDirectory_eq_setAt hcreate
  have hdirectory := h.directory
  rw [h.place_eq] at hfree
  rw [HasDirectory, hfree] at hdirectory
  cases hdirectory

private theorem Enters.upwards (h : d.Enters p l) (n : Nat) :
    ∀ a ∈ Path.upwards n p, a.text = "" ∨ ∃ m, d.Enters a m := by
  induction n generalizing p l with
  | zero => exact List.forall_mem_singleton.mpr (Or.inr ⟨l, h⟩)
  | succ n ih =>
    rw [Path.upwards]
    split
    · rename_i parent hparent
      refine List.forall_mem_cons.mpr ⟨Or.inr ⟨l, h⟩, ?_⟩
      rcases h.parent hparent with hempty | ⟨m, hm⟩
      · rw [upwards_of_empty hempty]
        exact List.forall_mem_singleton.mpr (Or.inl hempty)
      · exact ih hm
    · exact List.forall_mem_singleton.mpr (Or.inr ⟨l, h⟩)

/-- Whatever is above a directory that is there is there as well. -/
theorem Enters.ancestors (h : d.Enters p l) :
    ∀ a ∈ p.ancestors, a.text = "" ∨ ∃ m, d.Enters a m :=
  h.upwards _

end Disk

namespace Files
open Job

section Asks

variable {P : Call → Prop}

private theorem asks_ensureDirectory {p : Path} (hlook : ∀ q, P (.look q))
    (hcreate : P (.createDirectory p)) : (ensureDirectory p).Asks P := by
  refine Program.asks_bind (Program.asks_ofCall hcreate) fun reply => ?_
  cases reply with
  | ok => exact .done _
  | error f => exact .ask (hlook p) fun _ => .done _

/-- Only the directories of the list are made. -/
theorem asks_ensureDirectories {paths : List Path} (hlook : ∀ q, P (.look q))
    (hcreate : ∀ a ∈ paths, a.text ≠ "" → P (.createDirectory a)) :
    (ensureDirectories paths).Asks P := by
  induction paths with
  | nil => exact .done _
  | cons p above ih =>
    obtain ⟨hp, habove⟩ := List.forall_mem_cons.mp hcreate
    rw [ensureDirectories]
    split
    · exact .done _
    rename_i hne
    refine Program.asks_bind (Program.asks_ofCall (hp hne)) fun reply => ?_
    cases reply with
    | ok => exact .done _
    | error f =>
      dsimp only
      split
      · refine Program.asks_bind (ih habove) fun answer => ?_
        cases answer with
        | ok => exact asks_ensureDirectory hlook (hp hne)
        | error g => exact .done _
      · exact .ask (hlook p) fun _ => .done _

private theorem asks_putInPlace {p : Path} {content : Bytes}
    (hwrite : P (.write p.temporary content))
    (hrename : P (.rename p.temporary p)) : (putInPlace p content).Asks P := by
  refine asks_bind (asks_ask hwrite) fun reply => ?_
  cases reply with
  | ok => exact asks_bind (asks_ask hrename) asks_expect
  | error f => exact asks_throw _

/-- A file is replaced by calls on its temporary file, after the directories above it are made. -/
theorem asks_replace {p : Path} {content : Bytes} (hlook : ∀ q, P (.look q))
    (hcreate : ∀ directory, p.parent? = some directory → ∀ a ∈ directory.ancestors, a.text ≠ "" →
      P (.createDirectory a))
    (hwrite : P (.write p.temporary content)) (hrename : P (.rename p.temporary p))
    (hremove : P (.remove p.temporary)) : (replace p content).Asks P := by
  have hput : (tryCatch (putInPlace p content) fun failure => do
      let _ ← Job.ask (.remove p.temporary)
      throw failure : Job Unit).Asks P :=
    asks_tryCatch (asks_putInPlace hwrite hrename) fun f =>
      asks_bind (asks_ask hremove) fun _ => asks_throw f
  rw [replace]
  split
  · rename_i directory hparent
    split
    · exact asks_bind (asks_lift (asks_ensureDirectories hlook (hcreate directory hparent)))
        fun r => asks_bind (asks_expect r) fun _ => hput
    · exact hput
  · exact hput

end Asks

section Leaves

variable {faulty : Call → Prop} {d e : Disk}

/-- Making directories that are there changes nothing. -/
theorem eq_of_ensureDirectories {paths : List Path} {r : Except Fault Unit}
    (hpaths : ∀ a ∈ paths, a.text = "" ∨ ∃ m, d.Enters a m)
    (h : (ensureDirectories paths).Leaves faulty d r e) : e = d := by
  have hasks : (ensureDirectories paths).Asks fun call =>
      (∃ q, call = .look q) ∨ ∃ q m, call = .createDirectory q ∧ d.Enters q m := by
    refine asks_ensureDirectories (fun q => Or.inl ⟨q, rfl⟩) fun a ha hne => Or.inr ?_
    obtain ⟨m, hm⟩ := (hpaths a ha).resolve_left hne
    exact ⟨a, m, rfl, hm⟩
  refine hasks.leaves (K := (· = d)) ?_ h rfl
  rintro call d' reply e' (⟨q, rfl⟩ | ⟨q, m, rfl, hm⟩) rfl hreply
  · exact (Disk.replies_look.mp hreply).2
  · rcases Disk.replies_createDirectory hreply with ⟨-, hcreate⟩ | ⟨-, rfl⟩
    · exact absurd hcreate hm.createDirectory_ne
    · rfl

/-- What making the directories above a path leaves behind. -/
def Prepares (faulty : Call → Prop) (d : Disk) (p : Path) (e : Disk) : Prop :=
  e = d ∨ ∃ directory r, p.parent? = some directory ∧
    (ensureDirectories directory.ancestors).Leaves faulty d r e

/-- How the replacement of a file ends. -/
inductive Replaces (faulty : Call → Prop) (d : Disk) (p : Path) (content : Bytes) :
    Except Failure Unit → Disk → Prop
  | replaced {m w e : Disk} : Prepares faulty d p m → m.write p.temporary content = .ok w →
      w.rename p.temporary p = .ok e → Replaces faulty d p content (.ok ()) e
  | unwritten {f : Failure} {m : Disk} : Prepares faulty d p m →
      Replaces faulty d p content (.error f) m
  | removed {f : Failure} {m w e : Disk} : Prepares faulty d p m →
      w = m ∨ m.write p.temporary content = .ok w → w.remove p.temporary = .ok e →
      Replaces faulty d p content (.error f) e
  | abandoned {f : Failure} {m w : Disk} : Prepares faulty d p m →
      m.write p.temporary content = .ok w → w.Refuses faulty (.remove p.temporary) →
      Replaces faulty d p content (.error f) w

variable {p : Path} {content : Bytes} {r : Except Failure Unit}

private theorem leaves_putInPlace (h : (putInPlace p content).Leaves faulty d r e) :
    (r = .ok () ∧ ∃ w, d.write p.temporary content = .ok w ∧ w.rename p.temporary p = .ok e) ∨
      (∃ f, r = .error f) ∧ (e = d ∨ d.write p.temporary content = .ok e) := by
  rcases leaves_bind.mp h with ⟨reply, w, hask, hnext⟩ | ⟨f, -, hask⟩
  · obtain ⟨_, ⟨⟩, hreply⟩ := leaves_ask.mp hask
    rcases Disk.replies_write hreply with ⟨rfl, hwrite⟩ | ⟨⟨⟨step, f⟩, rfl⟩, rfl, -⟩
    · rcases leaves_bind.mp hnext with ⟨reply, m, hask, hnext⟩ | ⟨f, -, hask⟩
      · obtain ⟨_, ⟨⟩, hreply⟩ := leaves_ask.mp hask
        obtain ⟨rfl, rfl⟩ := leaves_expect.mp hnext
        rcases Disk.replies_rename hreply with ⟨rfl, hrename⟩ | ⟨⟨f, rfl⟩, rfl, -⟩
        · exact Or.inl ⟨rfl, w, hwrite, hrename⟩
        · exact Or.inr ⟨⟨_, rfl⟩, Or.inr hwrite⟩
      · obtain ⟨_, ⟨⟩, -⟩ := leaves_ask.mp hask
    · obtain ⟨rfl, rfl⟩ := leaves_throw.mp hnext
      exact Or.inr ⟨⟨_, rfl⟩, Or.inl rfl⟩
  · obtain ⟨_, ⟨⟩, -⟩ := leaves_ask.mp hask

private theorem replaces_of_prepares {m : Disk} (hm : Prepares faulty d p m)
    (h : (tryCatch (putInPlace p content) fun failure => do
      let _ ← Job.ask (.remove p.temporary)
      throw failure : Job Unit).Leaves faulty m r e) : Replaces faulty d p content r e := by
  rcases leaves_tryCatch.mp h with ⟨⟨⟩, rfl, hput⟩ | ⟨failure, w, hput, hundo⟩
  · rcases leaves_putInPlace hput with ⟨-, w, hwrite, hrename⟩ | ⟨⟨f, ⟨⟩⟩, -⟩
    exact .replaced hm hwrite hrename
  · rcases leaves_putInPlace hput with ⟨⟨⟩, -⟩ | ⟨-, hw⟩
    rcases leaves_bind.mp hundo with ⟨reply, v, hask, hnext⟩ | ⟨f, -, hask⟩
    · obtain ⟨_, ⟨⟩, hreply⟩ := leaves_ask.mp hask
      obtain ⟨rfl, rfl⟩ := leaves_throw.mp hnext
      rcases Disk.replies_remove hreply with ⟨-, hremove⟩ | ⟨-, rfl, hrefuses⟩
      · exact .removed hm hw hremove
      · rcases hw with rfl | hwrite
        · exact .unwritten hm
        · exact .abandoned hm hwrite hrefuses
    · obtain ⟨_, ⟨⟩, -⟩ := leaves_ask.mp hask

/-- The replacement of a file ends in one of these ways, whichever calls fail. -/
theorem replaces_of_leaves (h : (replace p content).Leaves faulty d r e) :
    Replaces faulty d p content r e := by
  rw [replace] at h
  split at h
  · rename_i directory hparent
    split at h
    · rcases leaves_bind.mp h with ⟨answer, m, hlift, hnext⟩ | ⟨f, -, hlift⟩
      · obtain ⟨_, ⟨⟩, hensure⟩ := leaves_lift.mp hlift
        have hm : Prepares faulty d p m := Or.inr ⟨directory, answer, hparent, hensure⟩
        rcases leaves_bind.mp hnext with ⟨_, m', hexpect, hput⟩ | ⟨f, rfl, hexpect⟩
        · obtain ⟨-, rfl⟩ := leaves_expect.mp hexpect
          exact replaces_of_prepares hm hput
        · obtain ⟨-, rfl⟩ := leaves_expect.mp hexpect
          exact .unwritten hm
      · obtain ⟨_, ⟨⟩, -⟩ := leaves_lift.mp hlift
    · exact replaces_of_prepares (Or.inl rfl) h
  · exact replaces_of_prepares (Or.inl rfl) h

section Views
open Disk Function

variable {l : Location} {name : String}

private theorem frame_of_prepares (h : Prepares faulty d p e) (l : Location) :
    e.current = d.current ∧ (e.view l = d.view l ∨ d.MadeAbove e p l) := by
  rcases h with rfl | ⟨directory, answer, hparent, hensure⟩
  · exact ⟨rfl, Or.inl rfl⟩
  have hasks : (ensureDirectories directory.ancestors).Asks fun call => (∃ q, call = .look q) ∨
      ∃ a, call = .createDirectory a ∧ a ∈ directory.ancestors ∧ a.text ≠ "" :=
    asks_ensureDirectories (fun q => Or.inl ⟨q, rfl⟩) fun a ha hne => Or.inr ⟨a, rfl, ha, hne⟩
  obtain ⟨hcurrent, hview⟩ := hasks.frame (m := l) (fun call hcall d' _ m hm => by
    rcases hcall with ⟨q, rfl⟩ | ⟨a, rfl, -⟩ <;> cases hm) hensure
  refine ⟨hcurrent, hview.imp_right ?_⟩
  rintro ⟨hbefore, hafter, q, ⟨_, ⟨⟩⟩ | ⟨_, ⟨⟩, ha, hne⟩, hplace⟩
  exact ⟨hbefore, hafter, directory, hparent, q, ha, hne, hplace⟩

theorem Prepares.current (h : Prepares faulty d p e) : e.current = d.current :=
  (frame_of_prepares h []).1

/-- Making the directories above a path shows nothing new but directories on the way. -/
theorem Prepares.view (h : Prepares faulty d p e) (l : Location) :
    e.view l = d.view l ∨ d.MadeAbove e p l :=
  (frame_of_prepares h l).2

/-- The temporary file has a name of its own. -/
theorem temporary_ne (name : String) : "." ++ name ++ ".tmp" ≠ name := by
  intro heq
  have hlength := congrArg (fun s => s.toList.length) heq
  simp at hlength
  omega

private theorem view_of_put {w : Disk} (hname : p.fileName? = some name)
    (hwrite : d.write p.temporary content = .ok w) (hrename : w.rename p.temporary p = .ok e) :
    d.Keeps e ∧ e.read p = .ok content ∧
      e.view = update (update d.view (d.place p.temporary) none) (d.place p)
        (some (some content)) := by
  obtain ⟨m, hlocate, -, -⟩ := write_eq_ok.mp hwrite
  obtain ⟨l, htemporary⟩ := leads_temporary_of_locate hname hlocate
  obtain ⟨-, hkeeps, hw⟩ := write_of_leads htemporary hwrite
  have hfile : w.view (w.place p.temporary) = some (some content) := by
    rw [(htemporary.keeps hkeeps).place_eq, hw, update_self]
  obtain ⟨here, last, hleads⟩ := leads_of_rename hfile hrename
  obtain rfl : last = name := Option.some.inj (hleads.fileName?.symm.trans hname)
  have hbeside := hleads.temporary (d.place_of_fileName? hname).1.slashless
  obtain ⟨-, hcheck, hmoved⟩ := moved_of_rename hbeside hleads (temporary_ne last) hrename
  rw [hbeside.place_eq] at hfile
  have hview := hmoved.view_eq hfile
  have hkept := hmoved.keeps (not_hasDirectory hfile)
  refine ⟨hkeeps.trans hkept, (read_of_leads (hleads.keeps hkept)).mpr ⟨hcheck, ?_⟩, ?_⟩
  · rw [hview, update_self]
  · rw [hview, hw, ← hbeside.place_eq, ← hleads.place_eq, place_congr hkeeps.current,
      place_congr hkeeps.current, htemporary.place_eq, update_idem]

private theorem view_of_discard {w : Disk} (hname : p.fileName? = some name)
    (hw : w = d ∨ d.write p.temporary content = .ok w) (hremove : w.remove p.temporary = .ok e) :
    d.Keeps e ∧ e.view = update d.view (d.place p.temporary) none := by
  obtain ⟨m, hlocate, -, -⟩ := remove_eq_ok.mp hremove
  obtain ⟨l, htemporary⟩ := leads_temporary_of_locate hname hlocate
  obtain ⟨-, hkept, hview⟩ := remove_of_leads htemporary hremove
  rw [← htemporary.place_eq] at hview
  rcases hw with rfl | hwrite
  · exact ⟨hkept, hview⟩
  · obtain ⟨m, hlocate, -, -⟩ := write_eq_ok.mp hwrite
    obtain ⟨k, hbefore⟩ := leads_temporary_of_locate hname hlocate
    obtain ⟨-, hkeeps, hw⟩ := write_of_leads hbefore hwrite
    rw [place_congr hkeeps.current, hw, ← hbefore.place_eq, update_idem] at hview
    exact ⟨hkeeps.trans hkept, hview⟩

/-- Replacing a file with a name leaves the new content, or changes at most the temporary file,
once the directories above it are made. The temporary file is left only if it cannot be removed. -/
theorem Replaces.view_of_fileName? (hname : p.fileName? = some name)
    (hr : Replaces faulty d p content r e) :
    ∃ m, Prepares faulty d p m ∧ m.Keeps e ∧
      (r = .ok () ∧ e.read p = .ok content ∧
          e.view = update (update m.view (d.place p.temporary) none) (d.place p)
            (some (some content)) ∨
        (∃ f, r = .error f) ∧ ∃ t, e.view = update m.view (d.place p.temporary) t ∧
          (t = m.view (d.place p.temporary) ∨ t = none ∨ faulty (.remove p.temporary))) := by
  have hplace {m : Disk} (hm : Prepares faulty d p m) (q : Path) : d.place q = m.place q :=
    (place_congr hm.current q).symm
  cases hr with
  | replaced hm hwrite hrename =>
    obtain ⟨hkeeps, hread, hview⟩ := view_of_put hname hwrite hrename
    refine ⟨_, hm, hkeeps, Or.inl ⟨rfl, hread, ?_⟩⟩
    rw [hplace hm, hplace hm, hview]
  | unwritten hm =>
    exact ⟨e, hm, .refl e, Or.inr ⟨⟨_, rfl⟩, _, (update_eq_self _ _).symm, Or.inl rfl⟩⟩
  | removed hm hw hremove =>
    obtain ⟨hkeeps, hview⟩ := view_of_discard hname hw hremove
    refine ⟨_, hm, hkeeps, Or.inr ⟨⟨_, rfl⟩, none, ?_, Or.inr (Or.inl rfl)⟩⟩
    rw [hplace hm, hview]
  | abandoned hm hwrite hrefuses =>
    obtain ⟨m, hlocate, -, -⟩ := write_eq_ok.mp hwrite
    obtain ⟨l, htemporary⟩ := leads_temporary_of_locate hname hlocate
    obtain ⟨hcheck, hkeeps, hw⟩ := write_of_leads htemporary hwrite
    rw [← htemporary.place_eq, ← hplace hm] at hw
    have hfile : e.view (l ++ ["." ++ name ++ ".tmp"]) = some (some content) := by
      rw [hw, hplace hm, htemporary.place_eq, update_self]
    obtain ⟨e', he'⟩ := exists_remove (htemporary.keeps hkeeps) hcheck hfile
    exact ⟨_, hm, hkeeps, Or.inr ⟨⟨_, rfl⟩, _, hw,
      Or.inr (Or.inr (faulty_remove hrefuses he'))⟩⟩

private theorem eq_of_prepares (h : d.Leads p l name) (hm : Prepares faulty d p e) : e = d := by
  rcases hm with rfl | ⟨directory, answer, hparent, hensure⟩
  · rfl
  · obtain ⟨parent, ⟨hparent', -⟩, henters⟩ := h.parent
    rw [hparent] at hparent'
    cases hparent'
    exact eq_of_ensureDirectories henters.ancestors hensure

/-- In a directory that is there, nothing is made on the way. -/
theorem Replaces.view (h : d.Leads p l name) (hname : Slashless name)
    (hr : Replaces faulty d p content r e) :
    d.Keeps e ∧
      (r = .ok () ∧ checkEntry p name = .ok () ∧
          e.view = update (update d.view (l ++ ["." ++ name ++ ".tmp"]) none) (l ++ [name])
            (some (some content)) ∨
        (∃ f, r = .error f) ∧ ∃ t, e.view = update d.view (l ++ ["." ++ name ++ ".tmp"]) t ∧
          (t = d.view (l ++ ["." ++ name ++ ".tmp"]) ∨ t = none ∨
            faulty (.remove p.temporary))) := by
  obtain ⟨m, hm, hkeeps, hends⟩ := hr.view_of_fileName? h.fileName?
  obtain rfl := eq_of_prepares h hm
  rw [h.place_eq, (h.temporary hname).place_eq] at hends
  refine ⟨hkeeps, hends.imp_left fun ⟨hok, hread, hview⟩ => ⟨hok, ?_, hview⟩⟩
  exact ((read_of_leads (h.keeps hkeeps)).mp hread).1

end Views

end Leaves

end Files

end PackageScript
