import PackageScript.Proofs.Files.Sibling
/-! Where paths lead if all directories on the way are there, as their segments tell. -/
namespace PackageScript.Disk
open PackageScript.Path

/-- The location reached from another one by a segment, whatever is there. -/
def stepped (here : Location) (segment : String) : Location :=
  if isIdle segment then here
  else if segment = ".." then here.dropLast
  else here ++ [segment]

/-- The location that a path leads to if all directories on the way are there. -/
def place (d : Disk) (p : Path) : Location :=
  p.segments.foldl stepped (d.startOf p)

variable {d e : Disk} {p q : Path} {l m : Location}

/-- Where a path leads depends only on where relative paths start from. -/
theorem place_congr (h : e.current = d.current) (q : Path) : e.place q = d.place q := by
  rw [place, place, startOf, startOf, h]

theorem stepped_entry (here : Location) {name : String} (h : IsEntry name) :
    stepped here name = here ++ [name] := by
  rw [stepped, if_neg (by simp [h.notIdle]), if_neg h.notParent]

private theorem foldl_stepped_idle {segments : List String} (h : ∀ s ∈ segments, isIdle s = true)
    (here : Location) : segments.foldl stepped here = here := by
  induction segments with
  | nil => rfl
  | cons s rest ih =>
    rw [List.foldl_cons, stepped, if_pos (h s List.mem_cons_self)]
    exact ih fun t ht => h t (List.mem_cons_of_mem s ht)

private theorem stepTo_eq_ok {here : Location} {segment : String}
    (h : stepTo here segment = .ok m) : m = stepped here segment := by
  rw [stepTo] at h
  rw [stepped]
  split
  · rename_i hidle
    rw [if_pos hidle] at h
    cases h
    rfl
  rename_i hidle
  rw [if_neg hidle] at h
  split
  · rename_i hparent
    rw [if_pos hparent] at h
    cases h
    rfl
  · rename_i hparent
    rw [if_neg hparent] at h
    obtain ⟨-, -, h⟩ := bind_eq_ok.mp h
    cases h
    rfl

/-- Segments that can be followed lead where they say. -/
theorem follow_eq_ok {segments : List String} (h : d.follow l segments = .ok m) :
    m = segments.foldl stepped l := by
  induction segments generalizing l with
  | nil =>
    cases h
    rfl
  | cons segment rest ih =>
    rw [follow] at h
    split at h
    · cases h
    · cases h
    · obtain ⟨next, hnext, h⟩ := bind_eq_ok.mp h
      rw [List.foldl_cons, ← stepTo_eq_ok hnext]
      exact ih h

/-- A path that can be followed leads to its place. -/
theorem place_of_locate (h : d.locate p = .ok m) : m = d.place p := by
  obtain ⟨-, -, hfollow⟩ := bind_eq_ok.mp h
  exact follow_eq_ok hfollow

/-- Slashes at the end of a path do not count. -/
theorem place_eq_unslashed (d : Disk) (p : Path) :
    d.place p = (unslashed p).foldl stepped (d.startOf p) := by
  obtain ⟨slashes, hslashes, hempty⟩ := Text.exists_dropEndWhile_append (· == "") p.segments
  have hidle : ∀ s ∈ slashes, isIdle s = true := fun s hs => by
    simp [isIdle, beq_iff_eq.mp (hempty s hs)]
  rw [place, hslashes, List.foldl_append, foldl_stepped_idle hidle]
  rfl

/-- The slot of a path is the name at its place. -/
theorem place_of_slot {s : Slot} (h : d.slot p = .ok s) {name : String} (hname : s.name = some name) :
    s.directory ++ [name] = d.place p := by
  obtain ⟨-, -, h⟩ := bind_eq_ok.mp h
  dsimp only at h
  obtain ⟨here, hfollow, h⟩ := bind_eq_ok.mp h
  cases h
  obtain ⟨hlast, hentry⟩ := Option.filter_eq_some_iff.mp hname
  obtain ⟨before, hbefore⟩ := List.getLast?_eq_some_iff.mp hlast
  have hname : IsEntry name := by
    constructor
    · simpa using (Bool.and_eq_true_iff.mp hentry).1
    · simpa using (Bool.and_eq_true_iff.mp hentry).2
  have hhere := follow_eq_ok hfollow
  rw [hbefore, List.dropLast_concat, List.foldl_append] at hhere
  rw [place_eq_unslashed, hbefore, List.foldl_append, List.foldl_cons, List.foldl_nil,
    stepped_entry _ hname, hhere]
  rfl

/-- The directory of a package is at the place of its path. -/
theorem foldl_front (d : Disk) (p : Path) : p.front.foldl stepped (d.startOf p) = d.place p := by
  rw [place, front]
  split
  · rename_i hlast
    obtain ⟨before, hsegments⟩ := List.getLast?_eq_some_iff.mp hlast
    rw [hsegments, List.dropLast_concat, List.foldl_append]
    rfl
  · rfl

/-- A path that enters a directory leads to it. -/
theorem Enters.place_eq (h : d.Enters p l) : d.place p = l := by
  rw [← foldl_front, startOf_eq_front]
  exact (follow_eq_ok h.follow).symm

/-- A name that is joined to a path leads on from where it leads. -/
theorem place_join (d : Disk) (p : Path) {name : String} (h : IsName name) :
    d.place (p.join name) = d.place p ++ [name] := by
  have hsegments := segments_join p h.slashless
  rw [place, startOf_of_segments d hsegments h.entry.notIdle, ← startOf_eq_front, hsegments,
    List.foldl_append, foldl_front, List.foldl_cons, List.foldl_nil, stepped_entry _ h.entry]

/-- The last segment of a path leads on from the place of its parent. -/
theorem place_of_segments (d : Disk) {before after : List String} {name : String}
    (h : p.segments = before ++ name :: after) (hname : isIdle name = false)
    (hafter : ∀ s ∈ after, isIdle s = true) :
    ∃ parent, (p.parent? = some parent ∧ p.core.getLast? = some name) ∧
      d.place p = stepped (d.place parent) name ∧ parent.front <+: before := by
  obtain ⟨parent, hparent, ⟨rest, hrest, hidle⟩, hroot⟩ := parent?_of_segments h hname hafter
  refine ⟨parent, hparent, ?_, by rw [hrest]; exact List.prefix_append _ _⟩
  have hstart : d.startOf p = d.startOf parent := by
    rw [startOf_of_segments d h hname, startOf_eq_front]
    simp only [hroot]
  rw [place, h, List.foldl_append, List.foldl_cons, foldl_stepped_idle hafter, hstart, hrest,
    List.foldl_append, foldl_stepped_idle hidle, foldl_front]

/-- A path that leads to a name is at its place. -/
theorem Leads.place_eq {name : String} (h : d.Leads p l name) : d.place p = l ++ [name] := by
  obtain ⟨front, hsegments, hfront⟩ := h.follow
  rw [place, hsegments, List.foldl_append, ← follow_eq_ok hfront, List.foldl_cons, List.foldl_nil,
    stepped_entry l h.entry]

/-- The name that a path leads to is its file name. -/
theorem Leads.fileName? {name : String} (h : d.Leads p l name) : p.fileName? = some name := by
  obtain ⟨parent, ⟨-, hlast⟩, -⟩ := h.parent
  rw [Path.fileName?, hlast]
  exact if_neg h.entry.notParent

/-- A path with a file name is at that name in its parent, and its temporary file is beside it. -/
theorem place_of_fileName? (d : Disk) {name : String} (h : p.fileName? = some name) :
    IsName name ∧ ∃ parent, p.parent? = some parent ∧ d.place p = d.place parent ++ [name] ∧
      p.temporary = parent.join ("." ++ name ++ ".tmp") := by
  rcases segments_cases p with ⟨before, last, after, hsegments, hlast, hidle⟩ | ⟨-, hnone, -⟩
  · obtain ⟨parent, ⟨hparent, hcore⟩, hplace, -⟩ := place_of_segments d hsegments hlast hidle
    rw [fileName?, hcore] at h
    dsimp only at h
    split at h
    · cases h
    rename_i hdots
    cases h
    have hslashless : Slashless name :=
      slashless_of_mem (hsegments ▸ List.mem_append_right before List.mem_cons_self)
    refine ⟨⟨hslashless, hlast, hdots⟩, parent, hparent, ?_,
      temporary_of_segments hparent hcore hdots⟩
    rw [hplace, stepped_entry _ ⟨hlast, hdots⟩]
  · rw [hnone] at h
    cases h

/-- Without `..`, the parent of a path is right above it. -/
theorem place_of_parent? (d : Disk) {p a : Path} (h : p.parent? = some a) (hne : a.text ≠ "")
    (hdots : ".." ∉ p.segments) :
    (∃ name, d.place p = d.place a ++ [name]) ∧ ".." ∉ a.segments := by
  rcases segments_cases p with ⟨before, name, after, hsegments, hname, hidle⟩ | ⟨-, -, hempty⟩
  · obtain ⟨parent, ⟨hparent, -⟩, hplace, hfront⟩ := place_of_segments d hsegments hname hidle
    rw [h] at hparent
    cases hparent
    rw [hsegments, List.mem_append, List.mem_cons, not_or, not_or] at hdots
    rw [stepped_entry _ ⟨hname, fun heq => hdots.2.1 heq.symm⟩] at hplace
    exact ⟨⟨name, hplace⟩, fun hmem => hdots.1 (hfront.subset (mem_front hmem (by decide)))⟩
  · exact absurd (hempty a h) hne

/-- Without `..` the paths above a path lead to places above its own. -/
theorem place_of_upwards (d : Disk) {p : Path} (hdots : ".." ∉ p.segments) (n : Nat) :
    ∀ a ∈ Path.upwards n p, a.text ≠ "" → d.place a <+: d.place p := by
  induction n generalizing p with
  | zero => exact List.forall_mem_singleton.mpr fun _ => List.prefix_rfl
  | succ n ih =>
    rw [Path.upwards]
    split
    · rename_i parent hparent
      refine List.forall_mem_cons.mpr ⟨fun _ => List.prefix_rfl, fun a ha hne => ?_⟩
      by_cases hempty : parent.text = ""
      · rw [upwards_of_empty hempty, List.mem_singleton] at ha
        exact absurd (ha ▸ hempty) hne
      · obtain ⟨⟨name, hplace⟩, hdots'⟩ := place_of_parent? d hparent hempty hdots
        rw [hplace]
        exact (ih hdots' a ha hne).trans (List.prefix_append _ _)
    · exact List.forall_mem_singleton.mpr fun _ => List.prefix_rfl

/-- The package of a document that is joined to a path is at the place of that path. -/
theorem place_packageOf_join (d : Disk) (p : Path) {name : String} (h : IsName name) :
    d.place (Files.packageOf (p.join name)) = d.place p := by
  have hsegments := segments_join p h.slashless
  obtain ⟨parent, ⟨hparent, -⟩, hplace, -⟩ :=
    place_of_segments d hsegments h.entry.notIdle (List.forall_mem_nil _)
  rw [place_join d p h, stepped_entry _ h.entry] at hplace
  rw [Files.packageOf, hparent]
  exact (List.append_inj_left' hplace rfl).symm

end PackageScript.Disk
