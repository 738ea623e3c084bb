import PackageScript.Proofs.Files.Confined
/-! What one call answers on disks that look alike from a directory. -/
namespace PackageScript.Disk
open PackageScript.Path Files

/-- Whether a path leads to the same place on two disks, and to the same there. -/
structure SameAt (d e : Disk) (p : Path) : Prop where
  locate : e.locate p = d.locate p
  view : ∀ l, d.locate p = .ok l → e.view l = d.view l

section Reading

variable {d e : Disk} {p : Path} {here : Location} {name : String}

private theorem read_eq (d : Disk) (p : Path) :
    d.read p = (d.locate p).bind fun l =>
      match d.view l with
      | some (some content) => .ok content
      | some none => .error .isADirectory
      | none => .error .notFound := by
  rw [read]
  cases d.locate p with
  | error f => rfl
  | ok l =>
    simp only [bind, Except.bind, view]
    cases d.at? l with
    | none => rfl
    | some t => cases t <;> rfl

private theorem kind?_eq (d : Disk) (p : Path) :
    d.kind? p = (d.locate p).toOption.bind fun l =>
      (d.view l).map fun content => if content.isSome then .file else .directory := by
  rw [kind?, find?]
  cases d.locate p with
  | error f => rfl
  | ok l =>
    simp only [Except.toOption, Option.bind_some, view]
    cases d.at? l with
    | none => rfl
    | some t => cases t <;> rfl

theorem SameAt.read (h : d.SameAt e p) : e.read p = d.read p := by
  rw [read_eq, read_eq, h.locate]
  cases hlocate : d.locate p with
  | error f => rfl
  | ok l => simp only [Except.bind, h.view l hlocate]

theorem SameAt.kind? (h : d.SameAt e p) : e.kind? p = d.kind? p := by
  rw [kind?_eq, kind?_eq, h.locate]
  cases hlocate : d.locate p with
  | error f => rfl
  | ok l => simp only [Except.toOption, Option.bind_some, h.view l hlocate]

/-- A name in the directory is the same. -/
theorem Agree.sameAt_of_leads (h : Agree here d e) (hleads : d.Leads p here name) :
    d.SameAt e p := by
  refine ⟨?_, fun l hl => ?_⟩
  · rw [locate_of_leads hleads, locate_of_leads (hleads.keeps h.keeps)]
  · obtain ⟨-, rfl⟩ := (locate_eq_ok hleads).mp hl
    exact h.entries name

/-- A directory is the same. -/
theorem Levels.sameAt_of_enters (h : d.Levels e) (henters : d.Enters p here) : d.SameAt e p := by
  refine ⟨?_, fun l hl => ?_⟩
  · rw [henters.locate, (henters.keeps h.keeps).locate]
  · rw [henters.locate] at hl
    obtain ⟨-, -, rfl⟩ := map_eq_ok.mp hl
    exact ((h.directories _).mpr henters.directory).trans henters.directory.symm

private theorem sameAt_of_follow (hstart : e.startOf p = d.startOf p) {before after : List String}
    {there : Location} (hsegments : p.segments = before ++ after)
    (hd : d.follow (d.startOf p) before = .ok there)
    (he : e.follow (d.startOf p) before = .ok there)
    (hafter : e.follow there after = d.follow there after)
    (hview : ∀ l, d.follow there after = .ok l → e.view l = d.view l) : d.SameAt e p := by
  have hfollow : d.follow (d.startOf p) p.segments = d.follow there after := by
    rw [hsegments, follow_append, hd]
    rfl
  have hfollow' : e.follow (e.startOf p) p.segments = d.follow there after := by
    rw [hstart, hsegments, follow_append, he]
    exact hafter
  refine ⟨by rw [locate, locate, hfollow, hfollow'], fun l hl => ?_⟩
  obtain ⟨-, -, hl⟩ := bind_eq_ok.mp hl
  exact hview l (hfollow ▸ hl)

private theorem Agree.follow_last (h : Agree here d e) (hdirectory : d.HasDirectory here)
    {segment : String} (hsegment : isIdle segment = false) {after : List String}
    (hafter : ∀ s ∈ after, isIdle s = true) :
    e.follow here (segment :: after) = d.follow here (segment :: after) ∧
      ∀ l, d.follow here (segment :: after) = .ok l → e.view l = d.view l := by
  rw [follow_cons_of_directory hdirectory,
    follow_cons_of_directory ((h.directories here).mpr hdirectory)]
  cases hstep : stepTo here segment with
  | error f => exact ⟨rfl, nofun⟩
  | ok next =>
    have hview : e.view next = d.view next := by
      rw [stepTo, if_neg (by simp [hsegment])] at hstep
      split at hstep
      · cases hstep
        exact ((h.directories _).mpr hdirectory.above).trans hdirectory.above.symm
      · obtain ⟨-, -, hnext⟩ := bind_eq_ok.mp hstep
        cases hnext
        exact h.entries segment
    refine ⟨follow_idle_congr hview hafter, fun l hl => ?_⟩
    rw [follow_idle hafter hl]
    exact hview

/-- The document of a package is the same wherever its directory looks alike. -/
theorem Agree.sameAt_document (h : Agree here d e) (henters : d.Enters (packageOf p) here) :
    d.SameAt e p := by
  have hstart := startOf_keeps h.keeps p
  rcases segments_cases p with ⟨before, name, after, hsegments, hname, hafter⟩ | ⟨hidle, -, hparent⟩
  · obtain ⟨parent, ⟨hparent, -⟩, ⟨rest, hrest, hrestIdle⟩, hroot⟩ :=
      parent?_of_segments hsegments hname hafter
    rw [packageOf, hparent] at henters
    have hbefore {c : Disk} (hc : c.Enters parent here) : c.follow (c.startOf p) before = .ok here := by
      rw [startOf_of_segments c hsegments hname]
      simp only [← hroot]
      rw [hrest, follow_append, hc.follow]
      exact follow_idle_of_directory hc.directory hrestIdle
    obtain ⟨hsame, hview⟩ := h.follow_last henters.directory hname hafter
    exact sameAt_of_follow hstart hsegments (hbefore henters)
      (hstart ▸ hbefore (henters.keeps h.keeps)) hsame hview
  · -- Such a path names the top or the current directory, which is the one of the package.
    have hplace : d.view (d.startOf p) = some none ∧ e.view (d.startOf p) = some none := by
      rw [startOf]
      split
      · exact ⟨hasDirectory_top d, hasDirectory_top e⟩
      · have hcurrent : here = d.current := by
          have hfollow := henters.follow
          rw [packageOf] at hfollow
          cases hp : p.parent? with
          | none =>
            rw [hp] at hfollow
            exact follow_idle (List.forall_mem_singleton.mpr rfl) hfollow
          | some a =>
            obtain rfl : a = ⟨""⟩ := congrArg Path.mk (hparent a hp)
            rw [hp] at hfollow
            cases hfollow
            rfl
        rw [← hcurrent]
        exact ⟨henters.directory, (h.directories here).mpr henters.directory⟩
    have hsame : e.view (d.startOf p) = d.view (d.startOf p) := hplace.2.trans hplace.1.symm
    refine sameAt_of_follow hstart (List.nil_append p.segments).symm rfl rfl
      (follow_idle_congr hsame hidle) ?_
    intro l hl
    rw [follow_idle hidle hl]
    exact hsame

end Reading

/-- Whether two disks answer a change in the same way: both refuse it with one fault, or both make
it in one directory only, and look alike from there afterwards. -/
inductive SameChange (here : Location) (d e : Disk) {ε : Type} : Except ε Disk → Except ε Disk → Prop
  | refused (f : ε) : SameChange here d e (.error f) (.error f)
  | changed {m n : Disk} : d.Within here m → e.Within here n → Agree here m n →
      SameChange here d e (.ok m) (.ok n)

section Writing

variable {d e : Disk} {p q : Path} {here : Location} {name other : String}

theorem SameChange.mapError {ε ε' : Type} {r s : Except ε Disk} (h : SameChange here d e r s) (g : ε → ε') :
    SameChange here d e (r.mapError g) (s.mapError g) := by
  cases h with
  | refused f => exact .refused (g f)
  | changed hm hn hagree => exact .changed hm hn hagree

private theorem SameChange.after {ε : Type} {r s : Except ε Disk} {m n : Disk}
    (hm : d.Within here m)
    (hn : e.Within here n) (h : SameChange here m n r s) : SameChange here d e r s := by
  cases h with
  | refused f => exact .refused f
  | changed hm' hn' hagree => exact .changed (hm.trans hm') (hn.trans hn') hagree

private theorem sameChange_setEntry (h : Agree here d e) (hdirectory : d.HasDirectory here)
    (hfree : ¬ d.HasDirectory (here ++ [name])) (content : Option Bytes) {ε : Type} :
    SameChange here d e (.ok (d.setEntry here name content) : Except ε Disk)
      (.ok (e.setEntry here name content)) :=
  .changed (within_setEntry hdirectory hfree content)
    (within_setEntry ((h.directories here).mpr hdirectory) (mt (h.directories _).mp hfree) content)
    (h.setEntry hdirectory hfree content)

private theorem write_eq (h : d.Leads p here name) (content : Bytes) :
    d.write p content = (checkEntry p name).bind fun _ =>
      match d.view (here ++ [name]) with
      | some none => .error .isADirectory
      | _ => .ok (d.setEntry here name (some content)) := by
  rw [write, locate_of_leads h]
  cases checkEntry p name with
  | error f => rfl
  | ok =>
    simp only [Except.map, bind, Except.bind, view]
    cases d.at? (here ++ [name]) with
    | none => rfl
    | some t => cases t <;> rfl

/-- Writing a file is one change on all disks that look alike from its directory. -/
theorem sameChange_write (h : Agree here d e) (hleads : d.Leads p here name) (content : Bytes) :
    SameChange here d e (d.write p content) (e.write p content) := by
  rw [write_eq hleads, write_eq (hleads.keeps h.keeps), h.entries name]
  cases checkEntry p name with
  | error f => exact .refused f
  | ok =>
    simp only [Except.bind]
    split
    · exact .refused _
    · rename_i hfree
      exact sameChange_setEntry h hleads.directory hfree _

private theorem remove_eq (h : d.Leads p here name) :
    d.remove p = (checkEntry p name).bind fun _ =>
      match d.view (here ++ [name]) with
      | some (some _) => .ok (d.setEntry here name none)
      | some none => .error .isADirectory
      | none => .error .notFound := by
  rw [remove, locate_of_leads h]
  cases checkEntry p name with
  | error f => rfl
  | ok =>
    simp only [Except.map, bind, Except.bind, view]
    cases d.at? (here ++ [name]) with
    | none => rfl
    | some t => cases t <;> rfl

/-- Removing a file is one change on all disks that look alike from its directory. -/
theorem sameChange_remove (h : Agree here d e) (hleads : d.Leads p here name) :
    SameChange here d e (d.remove p) (e.remove p) := by
  rw [remove_eq hleads, remove_eq (hleads.keeps h.keeps), h.entries name]
  cases checkEntry p name with
  | error f => exact .refused f
  | ok =>
    simp only [Except.bind]
    split
    · rename_i hview
      exact sameChange_setEntry h hleads.directory (not_hasDirectory hview) none
    · exact .refused _
    · exact .refused _

/-- A file that is moved between names of the directory is moved alike. -/
theorem sameChange_rename (h : Agree here d e) (hleads : d.Leads p here name)
    (hleads' : d.Leads q here other) (hne : name ≠ other)
    (hsource : ¬ d.HasDirectory (here ++ [name])) :
    SameChange here d e (d.rename p q) (e.rename p q) := by
  have hsource' := mt (h.directories _).mp hsource
  have hdirectory' := (h.directories here).mpr hleads.directory
  have heq := rename_eq hleads hleads' hne hsource
  rw [heq, rename_eq (hleads.keeps h.keeps)
    (hleads'.keeps h.keeps) hne hsource', h.entries name, h.entries other]
  cases hmoved : movedContent p q name other (d.view (here ++ [name])) (d.view (here ++ [other])) with
  | error f => exact .refused f
  | ok content =>
    rw [hmoved] at heq
    obtain ⟨-, -, hmove⟩ := moved_of_rename hleads hleads' hne heq
    have hgoal : ¬ d.HasDirectory (here ++ [other]) := fun hgoal =>
      hsource (hmove.target.symm.trans ((hmove.keeps hsource).directories _ hgoal))
    have htaken := within_setEntry hleads.directory hsource none
    exact .after htaken (within_setEntry hdirectory' hsource' none)
      (sameChange_setEntry (h.setEntry hleads.directory hsource none)
        ((htaken.directories here).mpr hleads.directory) (mt (htaken.directories _).mp hgoal)
        (some content))

end Writing

end PackageScript.Disk
