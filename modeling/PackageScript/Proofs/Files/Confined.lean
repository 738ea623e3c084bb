import PackageScript.Proofs.Files.Sibling
/-! Disks that look alike from one directory, changes in that directory only, and where paths lead
as far as it can be seen from there. -/
namespace PackageScript.Disk
open PackageScript.Path

/-- Whether two disks have the same directories. -/
structure Levels (d e : Disk) : Prop where
  current : e.current = d.current
  directories : ∀ l, e.HasDirectory l ↔ d.HasDirectory l

/-- Whether two disks look alike from a directory: they have the same directories, and the same
at each of its names. -/
structure Agree (here : Location) (d e : Disk) : Prop extends Levels d e where
  entries : ∀ name, e.view (here ++ [name]) = d.view (here ++ [name])

/-- Whether what is changed from one disk to the other is only at names of one directory, and no
directory is made or removed. -/
structure Within (here : Location) (d e : Disk) : Prop extends Levels d e where
  elsewhere : ∀ l, (∀ name, l ≠ here ++ [name]) → e.view l = d.view l

section Relations

variable {d e f : Disk} {here there : Location}

theorem Levels.refl (d : Disk) : d.Levels d :=
  ⟨rfl, fun _ => Iff.rfl⟩

private theorem Levels.symm (h : d.Levels e) : e.Levels d :=
  ⟨h.current.symm, fun l => (h.directories l).symm⟩

theorem Levels.trans (h : d.Levels e) (h' : e.Levels f) : d.Levels f :=
  ⟨h'.current.trans h.current, fun l => (h'.directories l).trans (h.directories l)⟩

theorem Levels.keeps (h : d.Levels e) : d.Keeps e :=
  ⟨h.current, fun l => (h.directories l).mpr⟩

theorem Levels.enters_iff (h : d.Levels e) {p : Path} {l : Location} :
    e.Enters p l ↔ d.Enters p l :=
  ⟨fun henters => henters.keeps h.symm.keeps, fun henters => henters.keeps h.keeps⟩

theorem Agree.refl (here : Location) (d : Disk) : d.Agree here d :=
  ⟨.refl d, fun _ => rfl⟩

theorem Within.refl (here : Location) (d : Disk) : d.Within here d :=
  ⟨.refl d, fun _ _ => rfl⟩

theorem Within.trans (h : Within here d e) (h' : Within here e f) : Within here d f :=
  ⟨h.toLevels.trans h'.toLevels, fun l hl => (h'.elsewhere l hl).trans (h.elsewhere l hl)⟩

/-- What is changed in one directory is not seen from another one. -/
theorem Within.agree (h : Within here d e) (hne : there ≠ here) : Agree there d e :=
  ⟨h.toLevels, fun _ => h.elsewhere _ fun _ heq => hne (List.append_inj_left' heq rfl)⟩

end Relations

section Entries

variable {d e : Disk} {here : Location} {name : String}

/-- The disk with a file, or nothing, at a name of a directory. -/
def setEntry (d : Disk) (here : Location) (name : String) (content : Option Bytes) : Disk :=
  d.setAt (here ++ [name]) (content.map .file)

private theorem view_setEntry (hdirectory : d.HasDirectory here)
    (hfree : ¬ d.HasDirectory (here ++ [name])) (content : Option Bytes) :
    (d.setEntry here name content).view =
      Function.update d.view (here ++ [name]) (content.map some) := by
  have hcontent : (content.map FileTree.file).map FileTree.content? = content.map some := by
    cases content <;> rfl
  rw [setEntry, view_setAt_entry hdirectory hfree (by cases content <;> simp [FileTree.content?]),
    hcontent]

/-- A file that is set at a name of a directory is a change there only. -/
theorem within_setEntry (hdirectory : d.HasDirectory here)
    (hfree : ¬ d.HasDirectory (here ++ [name])) (content : Option Bytes) :
    d.Within here (d.setEntry here name content) := by
  have hview := view_setEntry hdirectory hfree content
  refine ⟨⟨rfl, fun l => ?_⟩, fun l hl => ?_⟩
  · by_cases hl : l = here ++ [name]
    · rw [hl, HasDirectory, hview, Function.update_self]
      exact iff_of_false (by cases content <;> simp) hfree
    · rw [HasDirectory, hview, Function.update_of_ne hl, HasDirectory]
  · rw [hview, Function.update_of_ne (hl name)]

/-- The same change of an entry leaves disks that look alike. -/
theorem Agree.setEntry (h : Agree here d e) (hdirectory : d.HasDirectory here)
    (hfree : ¬ d.HasDirectory (here ++ [name])) (content : Option Bytes) :
    Agree here (d.setEntry here name content) (e.setEntry here name content) := by
  have hdirectory' := (h.directories here).mpr hdirectory
  have hfree' := mt (h.directories _).mp hfree
  refine ⟨((within_setEntry hdirectory hfree content).toLevels.symm.trans h.toLevels).trans
    (within_setEntry hdirectory' hfree' content).toLevels, fun other => ?_⟩
  rw [view_setEntry hdirectory hfree, view_setEntry hdirectory' hfree']
  by_cases hother : here ++ [other] = here ++ [name]
  · rw [hother, Function.update_self, Function.update_self]
  · rw [Function.update_of_ne hother, Function.update_of_ne hother]
    exact h.entries other

end Entries

section Follow

variable {d e : Disk} {p : Path} {l : Location}

theorem hasDirectory_top (d : Disk) : d.HasDirectory [] :=
  hasDirectory_iff.mpr ⟨d.top, FileTree.at?_nil _⟩

/-- Whatever holds a directory is one. -/
theorem HasDirectory.above (h : d.HasDirectory l) : d.HasDirectory l.dropLast := by
  rcases List.eq_nil_or_concat l with rfl | ⟨above, name, rfl⟩
  · exact h
  · rw [List.concat_eq_append] at h ⊢
    rw [List.dropLast_concat]
    by_contra habove
    rw [HasDirectory, view_below habove (List.cons_ne_nil name [])] at h
    cases h

/-- Where a path leads on to depends on what is seen on the way. -/
theorem follow_cons (d : Disk) (l : Location) (segment : String) (rest : List String) :
    d.follow l (segment :: rest) =
      match d.view l with
      | none => .error .notFound
      | some (some _) => .error .notADirectory
      | some none => stepTo l segment >>= fun next => d.follow next rest := by
  rw [follow, view]
  cases d.at? l with
  | none => rfl
  | some t => cases t <;> rfl

/-- From a directory the first segment is one step, and the others lead on from there. -/
theorem follow_cons_of_directory (h : d.HasDirectory l) (segment : String) (rest : List String) :
    d.follow l (segment :: rest) = stepTo l segment >>= fun next => d.follow next rest := by
  rw [follow_cons, show d.view l = some none from h]

/-- Segments that lead nowhere else leave a path in its directory. -/
theorem follow_idle_of_directory (h : d.HasDirectory l) {segments : List String}
    (hidle : ∀ s ∈ segments, isIdle s = true) : d.follow l segments = .ok l := by
  induction segments with
  | nil => rfl
  | cons s rest ih =>
    obtain ⟨hs, hrest⟩ := List.forall_mem_cons.mp hidle
    rw [follow_cons_of_directory h, stepTo, if_pos hs]
    exact ih hrest

/-- Segments that lead nowhere else only tell whether a directory is there. -/
theorem follow_idle_congr (h : e.view l = d.view l) {segments : List String}
    (hidle : ∀ s ∈ segments, isIdle s = true) : e.follow l segments = d.follow l segments := by
  cases segments with
  | nil => rfl
  | cons s rest =>
    by_cases hl : d.HasDirectory l
    · rw [follow_idle_of_directory hl hidle, follow_idle_of_directory (h.trans hl) hidle]
    · rw [follow_cons, follow_cons, h]
      cases hview : d.view l with
      | none => rfl
      | some content =>
        cases content with
        | none => exact absurd hview hl
        | some bytes => rfl

private theorem Enters.follow_front (h : d.Enters p l) :
    d.follow (d.startOf p) p.front = .ok l := by
  rw [startOf_eq_front]
  exact h.follow

/-- The directory that a path enters is what it leads to. -/
theorem Enters.locate (h : d.Enters p l) : d.locate p = (checkPath p).map fun _ => l := by
  have hfollow : d.follow (d.startOf p) p.segments = .ok l := by
    have hfront := h.follow_front
    rw [front] at hfront
    split at hfront
    · rename_i hlast
      obtain ⟨before, hsegments⟩ := List.getLast?_eq_some_iff.mp hlast
      rw [hsegments, List.dropLast_concat] at hfront
      rw [hsegments, follow_append, hfront]
      exact follow_idle_of_directory h.directory (List.forall_mem_singleton.mpr rfl)
    · exact hfront
  rw [Disk.locate, hfollow]
  cases checkPath p <;> rfl

/-- A directory that is there is not made again. -/
theorem Enters.createDirectory (h : d.Enters p l) :
    d.createDirectory p = (checkPath p).bind fun _ => .error .alreadyExists := by
  obtain ⟨slashes, hslashes, hempty⟩ := Text.exists_dropEndWhile_append (· == "") p.segments
  have hidle : ∀ s ∈ slashes, isIdle s = true := fun s hs => by
    simp [isIdle, beq_iff_eq.mp (hempty s hs)]
  rw [Disk.createDirectory]
  cases hcheck : checkPath p with
  | error f => rfl
  | ok =>
    have hlocate := h.locate
    rw [Disk.locate, hcheck] at hlocate
    replace hlocate : d.follow (d.startOf p) p.segments = .ok l := hlocate
    rw [hslashes, follow_append] at hlocate
    obtain ⟨m, hm, hl⟩ := bind_eq_ok.mp hlocate
    obtain rfl := follow_idle hidle hl
    obtain ⟨entries, hentries⟩ := hasDirectory_iff.mp h.directory
    rw [unslashed, hm]
    simp only [bind, Except.bind, hentries]
    rfl

end Follow

end PackageScript.Disk
