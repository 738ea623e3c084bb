import PackageScript.Proofs.Files.View
import PackageScript.Proofs.Text.Edges
/-! Paths that lead to a name in a directory, and what calls on such paths do. -/
namespace PackageScript.Disk

/-- A segment that names an entry of a directory. -/
structure IsEntry (name : String) : Prop where
  notIdle : Path.isIdle name = false
  notParent : name ≠ ".."

/-- A path that leads to a name in a directory that is there. -/
structure Leads (d : Disk) (p : Path) (l : Location) (name : String) : Prop where
  entry : IsEntry name
  directory : d.HasDirectory l
  follow : ∃ front, p.segments = front ++ [name] ∧ d.follow (d.startOf p) front = .ok l

/-- Refuses a path that is too long or holds a NUL character, and a name that is too long. -/
def checkEntry (p : Path) (name : String) : Except Fault Unit := do
  checkPath p
  checkName name

/-- A sequence answers if both of its steps do. -/
theorem bind_eq_ok {ε α β : Type} {x : Except ε α} {f : α → Except ε β} {b : β} :
    (x >>= f) = .ok b ↔ ∃ a, x = .ok a ∧ f a = .ok b := by
  cases x with
  | error e => exact ⟨nofun, fun ⟨_, ha, _⟩ => nomatch ha⟩
  | ok a => exact ⟨fun h => ⟨a, rfl, h⟩, fun ⟨_, ha, h⟩ => by cases ha; exact h⟩

theorem map_eq_ok {ε α β : Type} {x : Except ε α} {f : α → β} {b : β} :
    x.map f = .ok b ↔ ∃ a, x = .ok a ∧ f a = b := by
  cases x with
  | error e => exact ⟨nofun, fun ⟨_, ha, _⟩ => nomatch ha⟩
  | ok a => simp [Except.map]

/-- A path is followed part by part. -/
theorem follow_append (d : Disk) (l : Location) (front rest : List String) :
    d.follow l (front ++ rest) = d.follow l front >>= fun m => d.follow m rest := by
  induction front generalizing l with
  | nil => rfl
  | cons segment more ih =>
    rw [List.cons_append, follow, follow]
    split
    · rfl
    · rfl
    · cases stepTo l segment with
      | error f => rfl
      | ok m => exact ih m

/-- From a directory, one segment leads where it says. -/
theorem follow_singleton {d : Disk} {l : Location} (h : d.HasDirectory l) (segment : String) :
    d.follow l [segment] = stepTo l segment := by
  obtain ⟨entries, hl⟩ := hasDirectory_iff.mp h
  rw [follow, hl]
  cases stepTo l segment <;> rfl

private theorem stepTo_entry (l : Location) {name : String} (h : IsEntry name) :
    stepTo l name = (checkName name).map fun _ => l ++ [name] := by
  rw [stepTo, if_neg (by simp [h.notIdle]), if_neg h.notParent]
  cases checkName name <;> rfl

/-- Segments that lead somewhere still do so while the directories are kept. -/
theorem follow_keeps {d e : Disk} (h : d.Keeps e) {l m : Location} {segments : List String}
    (hf : d.follow l segments = .ok m) : e.follow l segments = .ok m := by
  induction segments generalizing l with
  | nil => exact hf
  | cons segment rest ih =>
    rw [follow] at hf
    split at hf
    · cases hf
    · cases hf
    · rename_i entries hl
      obtain ⟨entries', hl'⟩ := hasDirectory_iff.mp
        (h.directories l (hasDirectory_iff.mpr ⟨entries, hl⟩))
      rw [follow, hl']
      cases hstep : stepTo l segment with
      | error f =>
        rw [hstep] at hf
        cases hf
      | ok next =>
        rw [hstep] at hf
        exact ih hf

theorem startOf_keeps {d e : Disk} (h : d.Keeps e) (p : Path) : e.startOf p = d.startOf p := by
  rw [startOf, startOf, h.current]

/-- A path still leads to its name as long as no directory is removed. -/
theorem Leads.keeps {d e : Disk} {p : Path} {l : Location} {name : String} (h : d.Leads p l name)
    (hk : d.Keeps e) : e.Leads p l name := by
  obtain ⟨front, hsegments, hfront⟩ := h.follow
  refine ⟨h.entry, hk.directories l h.directory, front, hsegments, ?_⟩
  rw [startOf_keeps hk]
  exact follow_keeps hk hfront

section Calls

variable {d e : Disk} {p q : Path} {l : Location} {name other : String}

/-- A path that leads to a name is located there, unless it is refused for its length or a NUL. -/
theorem locate_of_leads (h : d.Leads p l name) :
    d.locate p = (checkEntry p name).map fun _ => l ++ [name] := by
  obtain ⟨front, hsegments, hfront⟩ := h.follow
  have hfollow : d.follow (d.startOf p) p.segments = (checkName name).map fun _ => l ++ [name] := by
    rw [hsegments, follow_append, hfront]
    exact (follow_singleton h.directory name).trans (stepTo_entry l h.entry)
  rw [locate, hfollow, checkEntry]
  cases checkPath p <;> rfl

theorem locate_eq_ok (h : d.Leads p l name) {m : Location} :
    d.locate p = .ok m ↔ checkEntry p name = .ok () ∧ m = l ++ [name] := by
  rw [locate_of_leads h]
  cases checkEntry p name with
  | error f => exact ⟨nofun, nofun⟩
  | ok => exact ⟨fun hm => by cases hm; exact ⟨rfl, rfl⟩, fun ⟨_, hm⟩ => by rw [hm]; rfl⟩

/-- Nothing is seen where nothing is, or where the path is refused. -/
theorem kind?_eq_none (h : d.Leads p l name) :
    d.kind? p = none ↔ (checkEntry p name = .ok () → d.view (l ++ [name]) = none) := by
  rw [kind?, find?, locate_of_leads h, view]
  cases checkEntry p name with
  | error f => simp [Except.map]
  | ok => simp [Except.map]

/-- A file is read where a path is located and a file stands there. -/
theorem read_eq_ok {content : Bytes} :
    d.read p = .ok content ↔ ∃ m, d.locate p = .ok m ∧ d.view m = some (some content) := by
  rw [read, bind_eq_ok]
  refine exists_congr fun m => and_congr_right fun _ => ?_
  rw [view_eq_file]
  cases d.at? m with
  | none => exact ⟨nofun, nofun⟩
  | some t => cases t <;> simp [pure, Except.pure, throw, throwThe, MonadExceptOf.throw]

/-- A path that leads to a name reads the file at that name. -/
theorem read_of_leads (h : d.Leads p l name) {content : Bytes} :
    d.read p = .ok content ↔
      checkEntry p name = .ok () ∧ d.view (l ++ [name]) = some (some content) := by
  simp [read_eq_ok, locate_eq_ok h, and_assoc]

/-- A file is written where a path is located and no directory stands there. -/
theorem write_eq_ok {content : Bytes} :
    d.write p content = .ok e ↔
      ∃ m, d.locate p = .ok m ∧ ¬ d.HasDirectory m ∧ e = d.setAt m (some (.file content)) := by
  rw [write, bind_eq_ok]
  refine exists_congr fun m => and_congr_right fun _ => ?_
  rw [hasDirectory_iff]
  cases d.at? m with
  | none => simp [pure, Except.pure, eq_comm]
  | some t => cases t <;> simp [pure, Except.pure, throw, throwThe, MonadExceptOf.throw, eq_comm]

/-- A file is removed where a path is located and a file stands there. -/
theorem remove_eq_ok :
    d.remove p = .ok e ↔
      ∃ m, d.locate p = .ok m ∧ (∃ content, d.view m = some (some content)) ∧
        e = d.setAt m none := by
  rw [remove, bind_eq_ok]
  refine exists_congr fun m => and_congr_right fun _ => ?_
  simp only [view_eq_file]
  cases d.at? m with
  | none => simp [throw, throwThe, MonadExceptOf.throw]
  | some t => cases t <;> simp [pure, Except.pure, throw, throwThe, MonadExceptOf.throw, eq_comm]

/-- A file that is written in a directory shows there, and nowhere else. -/
theorem write_of_leads (h : d.Leads p l name) {content : Bytes} (he : d.write p content = .ok e) :
    checkEntry p name = .ok () ∧ d.Keeps e ∧
      e.view = Function.update d.view (l ++ [name]) (some (some content)) := by
  obtain ⟨m, hlocate, hfree, rfl⟩ := write_eq_ok.mp he
  obtain ⟨hcheck, rfl⟩ := (locate_eq_ok h).mp hlocate
  exact ⟨hcheck, keeps_setAt _ hfree, view_setAt_entry h.directory hfree (by simp [FileTree.content?])⟩

/-- A file that is removed is gone, and nothing else has changed. -/
theorem remove_of_leads (h : d.Leads p l name) (he : d.remove p = .ok e) :
    (∃ content, d.view (l ++ [name]) = some (some content)) ∧ d.Keeps e ∧
      e.view = Function.update d.view (l ++ [name]) none := by
  obtain ⟨m, hlocate, ⟨content, hcontent⟩, rfl⟩ := remove_eq_ok.mp he
  obtain ⟨-, rfl⟩ := (locate_eq_ok h).mp hlocate
  have hfree := not_hasDirectory hcontent
  exact ⟨⟨content, hcontent⟩, keeps_setAt _ hfree, view_setAt_entry h.directory hfree nofun⟩

/-- A file that a path leads to can be removed. -/
theorem exists_remove (h : d.Leads p l name) (hcheck : checkEntry p name = .ok ())
    {content : Bytes} (hview : d.view (l ++ [name]) = some (some content)) :
    ∃ e, d.remove p = .ok e :=
  ⟨_, remove_eq_ok.mpr ⟨_, (locate_eq_ok h).mpr ⟨hcheck, rfl⟩, ⟨content, hview⟩, rfl⟩⟩

theorem createDirectory_eq_ok (h : d.createDirectory p = .ok e) :
    ∃ m, d.follow (d.startOf p) (unslashed p) = .ok m ∧ d.view m = none ∧
      e = d.setAt m (some (.directory [])) := by
  obtain ⟨-, -, h⟩ := bind_eq_ok.mp h
  obtain ⟨m, hfollow, h⟩ := bind_eq_ok.mp h
  refine ⟨m, hfollow, ?_⟩
  split at h
  · cases h
  · rename_i hm
    cases h
    exact ⟨by rw [view, hm]; rfl, rfl⟩

private theorem slot_of_leads (h : d.Leads p l name) :
    d.slot p = (checkPath p).map fun _ => ⟨l, some name, false⟩ := by
  obtain ⟨front, hsegments, hfront⟩ := h.follow
  have hne : name ≠ "" := by
    rintro rfl
    cases h.entry.notIdle
  have hunslashed : unslashed p = front ++ [name] := by
    rw [unslashed, Text.dropEndWhile_eq_rdropWhile, hsegments,
      List.rdropWhile_concat_neg _ _ _ (by simpa using hne)]
  have hfollow : d.follow (d.startOf p) (front ++ [""]) = .ok l := by
    rw [follow_append, hfront]
    exact follow_singleton h.directory ""
  rw [slot, hunslashed]
  dsimp only
  rw [List.dropLast_concat, hfollow]
  cases checkPath p with
  | error f => rfl
  | ok =>
    simp [Except.map, bind, Except.bind, pure, Except.pure, hsegments, h.entry.notIdle,
      h.entry.notParent]

private theorem checkEntry_eq_ok :
    checkEntry p name = .ok () ↔ checkPath p = .ok () ∧ checkName name = .ok () := by
  rw [checkEntry]
  cases checkPath p with
  | error f => exact ⟨nofun, nofun⟩
  | ok => exact ⟨fun h => ⟨rfl, h⟩, fun h => h.2⟩

private theorem hasNul_of_checkPath (h : checkPath p = .ok ()) : p.hasNul = false := by
  rw [checkPath] at h
  cases hnul : p.hasNul with
  | false => rfl
  | true =>
    rw [hnul] at h
    cases h

private theorem rename_eq_ok (h : d.Leads p l name) (h' : d.Leads q l other) (hne : name ≠ other)
    (hr : d.rename p q = .ok e) :
    checkEntry p name = .ok () ∧ checkEntry q other = .ok () ∧
      ∃ moved, d.at? (l ++ [name]) = some moved ∧
        (∀ content, moved = .file content → ¬ d.HasDirectory (l ++ [other])) ∧
        (∀ content, d.at? (l ++ [other]) = some (.file content) →
          ∀ entries, moved ≠ .directory entries) ∧
        e = (d.setAt (l ++ [name]) none).setAt (l ++ [other]) (some moved) := by
  have hstart : l ++ [name] ≠ l ++ [other] := by simpa using hne
  rw [rename] at hr
  split at hr
  · cases hr
  obtain ⟨-, -, hr⟩ := bind_eq_ok.mp hr
  obtain ⟨s, hs, hr⟩ := bind_eq_ok.mp hr
  obtain ⟨t, ht, hr⟩ := bind_eq_ok.mp hr
  rw [slot_of_leads h] at hs
  rw [slot_of_leads h'] at ht
  obtain ⟨⟨⟩, hp, hs⟩ := map_eq_ok.mp hs
  obtain ⟨⟨⟩, hq, ht⟩ := map_eq_ok.mp ht
  cases hs
  cases ht
  obtain ⟨⟨⟩, hname, hr⟩ := bind_eq_ok.mp hr
  dsimp only at hr
  split at hr
  · cases hr
  rename_i moved hmoved
  obtain ⟨⟨⟩, hother, hr⟩ := bind_eq_ok.mp hr
  split at hr
  · cases hr
  split at hr
  · cases hr
  split at hr
  · cases hr
  refine ⟨checkEntry_eq_ok.mpr ⟨hp, hname⟩, checkEntry_eq_ok.mpr ⟨hq, hother⟩, moved, hmoved, ?_⟩
  split at hr
  · cases hr
  · cases hr
  · cases hr
  · rename_i hfile hdirectory _
    cases hr
    refine ⟨fun content hcontent hgoal => ?_, fun content hcontent entries hentries => ?_, rfl⟩
    · obtain ⟨entries, hentries⟩ := hasDirectory_iff.mp hgoal
      exact hfile content entries hcontent hentries
    · exact hdirectory entries content hentries hcontent

/-- The content of a file that is moved to another name, or why it cannot be. -/
def movedContent (p q : Path) (name other : String) (source goal : Option (Option Bytes)) :
    Except Fault Bytes := do
  if p.hasNul || q.hasNul then throw .nulInName
  checkPath p
  checkPath q
  checkName name
  match source with
  | some (some content) =>
    checkName other
    match goal with
    | some none => throw .isADirectory
    | _ => return content
  | _ => throw .notFound

/-- A file that is moved within its directory is taken from one name and set at the other one,
unless the move is refused. -/
theorem rename_eq (h : d.Leads p l name) (h' : d.Leads q l other)
    (hne : name ≠ other) (hsource : ¬ d.HasDirectory (l ++ [name])) :
    d.rename p q =
      (movedContent p q name other (d.view (l ++ [name])) (d.view (l ++ [other]))).map
        fun content => (d.setAt (l ++ [name]) none).setAt (l ++ [other]) (some (.file content)) := by
  have hbelow {a b : String} (hab : a ≠ b) : below (l ++ [a]) (l ++ [b]) = false := by
    simp [below, List.isPrefixOf_iff_prefix, List.prefix_append_right_inj, hab.symm]
  rw [rename, slot_of_leads h, slot_of_leads h']
  unfold movedContent
  -- Each check fails on both sides, or lets both go on.
  cases p.hasNul || q.hasNul with
  | true => rfl
  | false =>
  cases checkPath p with
  | error f => rfl
  | ok =>
  cases checkPath q with
  | error f => rfl
  | ok =>
  simp only [Bool.false_eq_true, if_false, pure, Except.pure, Except.map, bind, Except.bind]
  cases checkName name with
  | error f => rfl
  | ok =>
  simp only [view]
  cases hmoved : d.at? (l ++ [name]) with
  | none => rfl
  | some moved =>
  cases moved with
  | directory entries => exact absurd (hasDirectory_iff.mpr ⟨entries, hmoved⟩) hsource
  | file content =>
  simp only [Option.map_some, FileTree.content?]
  cases checkName other with
  | error f => rfl
  | ok =>
  simp only [FileTree.kind, hbelow hne, hbelow hne.symm, List.append_cancel_left_eq, List.cons.injEq,
    hne, and_true, Bool.false_eq_true, or_self, and_false, if_false]
  cases d.at? (l ++ [other]) with
  | none => rfl
  | some t => cases t <;> rfl

/-- A file that a path leads to can be moved to any other name of its directory that is free or
names a file. -/
theorem exists_rename (h : d.Leads p l name) (h' : d.Leads q l other) (hne : name ≠ other)
    (hp : checkEntry p name = .ok ()) (hq : checkEntry q other = .ok ()) {content : Bytes}
    (hfile : d.view (l ++ [name]) = some (some content))
    (hfree : ¬ d.HasDirectory (l ++ [other])) : ∃ e, d.rename p q = .ok e := by
  obtain ⟨hpathp, hnamep⟩ := checkEntry_eq_ok.mp hp
  obtain ⟨hpathq, hnameq⟩ := checkEntry_eq_ok.mp hq
  rw [rename_eq h h' hne (not_hasDirectory hfile), hfile]
  unfold movedContent
  rw [hasNul_of_checkPath hpathp, hasNul_of_checkPath hpathq, hpathp, hpathq, hnamep, hnameq]
  cases hgoal : d.view (l ++ [other]) with
  | none => exact ⟨_, rfl⟩
  | some entry =>
    cases entry with
    | none => exact absurd hgoal hfree
    | some bytes => exact ⟨_, rfl⟩

/-- What a move leaves: nothing where it starts from, what was there where it leads to, and
all else as it was. -/
structure Moved (d e : Disk) (start goal : Location) : Prop where
  current : e.current = d.current
  source : e.view start = none
  target : e.view goal = d.view start
  others : ∀ m, ¬ start <+: m → ¬ goal <+: m → e.view m = d.view m
  fits : ∀ content, d.view goal = some (some content) → ∃ moved, d.view start = some (some moved)
  keeps : ¬ d.HasDirectory start → d.Keeps e

/-- A file that is moved shows where it leads to, and no longer where it was. -/
theorem Moved.view_eq {start goal : Location} {content : Bytes} (h : Moved d e start goal)
    (hfile : d.view start = some (some content)) :
    e.view = Function.update (Function.update d.view start none) goal (some (some content)) := by
  have hkeeps := h.keeps (not_hasDirectory hfile)
  have hgoal : ¬ e.HasDirectory goal := not_hasDirectory (h.target.trans hfile)
  have hstart : ¬ e.HasDirectory start := not_hasDirectory_of_none h.source
  have hbelow {l m : Location} (hl : ¬ e.HasDirectory l) (hpre : l <+: m) (hne : m ≠ l) :
      e.view m = d.view m := by
    obtain ⟨k, rfl⟩ := hpre
    have hk : k ≠ [] := by
      rintro rfl
      exact hne (List.append_nil _)
    rw [view_below hl hk, view_below (fun hd => hl (hkeeps.directories l hd)) hk]
  funext m
  by_cases hm : m = goal
  · rw [hm, Function.update_self, h.target, hfile]
  rw [Function.update_of_ne hm]
  by_cases hm' : m = start
  · rw [hm', Function.update_self, h.source]
  rw [Function.update_of_ne hm']
  by_cases hpre : start <+: m
  · exact hbelow hstart hpre hm'
  by_cases hpre' : goal <+: m
  · exact hbelow hgoal hpre' hm
  exact h.others m hpre hpre'

theorem not_prefix_of_ne {first second : String} (h : first ≠ second) :
    ¬ l ++ [first] <+: l ++ [second] := by
  simpa [List.prefix_append_right_inj] using h

/-- A move within a directory. -/
theorem moved_of_rename (h : d.Leads p l name) (h' : d.Leads q l other) (hne : name ≠ other)
    (hr : d.rename p q = .ok e) :
    checkEntry p name = .ok () ∧ checkEntry q other = .ok () ∧
      Moved d e (l ++ [name]) (l ++ [other]) := by
  obtain ⟨hp, hq, moved, hmoved, hfile, hfits, rfl⟩ := rename_eq_ok h h' hne hr
  refine ⟨hp, hq, ?_⟩
  have habove : ¬ l ++ [name] <+: l := by
    intro hpre
    have hlength := hpre.length_le
    rw [List.length_append, List.length_singleton] at hlength
    omega
  have hmiddle : (d.setAt (l ++ [name]) none).HasDirectory l := by
    rw [HasDirectory, view_setAt habove]
    exact h.directory
  refine ⟨rfl, ?_, ?_, fun m hstart hgoal => ?_, fun content hgoal => ?_, fun hstart => ?_⟩
  · rw [view_setAt (not_prefix_of_ne hne.symm)]
    exact view_setAt_self _ none h.directory
  · rw [view_setAt_self _ _ hmiddle, view, hmoved, Option.map_some]
  · rw [view_setAt hgoal, view_setAt hstart]
  · cases moved with
    | file moved => exact ⟨moved, view_eq_file.mpr hmoved⟩
    | directory entries => exact absurd rfl (hfits content (view_eq_file.mp hgoal) entries)
  · refine (keeps_setAt none hstart).trans (keeps_setAt _ ?_)
    rw [HasDirectory, view_setAt (not_prefix_of_ne hne)]
    cases moved with
    | file content => exact hfile content rfl
    | directory entries => exact absurd (hasDirectory_iff.mpr ⟨entries, hmoved⟩) hstart

end Calls

end PackageScript.Disk
