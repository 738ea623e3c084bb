import PackageScript.Files.Compilation
import PackageScript.Proofs.Files.Place
/-! Paths of one directory: those that are joined to it, and the parents of these. -/
namespace PackageScript

/-- Whether a text can be a segment: no slash is in it. -/
def Slashless (name : String) : Prop :=
  '/' ∉ name.toList

instance (name : String) : Decidable (Slashless name) :=
  inferInstanceAs (Decidable ('/' ∉ name.toList))

theorem Slashless.append {name more : String} (h : Slashless name) (h' : Slashless more) :
    Slashless (name ++ more) := by
  rw [Slashless, String.toList_append, List.mem_append]
  exact not_or.mpr ⟨h, h'⟩

namespace Path
open Text

private theorem slashPieces_slashless {name : String} (h : Slashless name) :
    slashPieces name.toList = [name] := by
  have hnone : ∀ c ∈ name.toList, (c == '/') = false := fun c hc =>
    beq_eq_false_iff_ne.mpr fun heq => h (heq ▸ hc)
  rw [slashPieces, pieces_of_none hnone, List.map_singleton, String.ofList_toList]

private theorem slashPieces_append (front rest : List Char) :
    slashPieces (front ++ '/' :: rest) = slashPieces front ++ slashPieces rest := by
  rw [slashPieces, pieces_separator rfl, List.map_append]
  rfl

private theorem slashPieces_cons {name : String} (h : Slashless name) (rest : List Char) :
    slashPieces (name.toList ++ '/' :: rest) = name :: slashPieces rest := by
  rw [slashPieces_append, slashPieces_slashless h, List.singleton_append]

private theorem exists_of_slashPieces_cons {cs : List Char} {first second : String}
    {rest : List String} (h : slashPieces cs = first :: second :: rest) :
    ∃ more, cs = first.toList ++ '/' :: more ∧ slashPieces more = second :: rest := by
  rw [slashPieces] at h
  obtain ⟨a, as, hpieces, rfl, has⟩ := List.map_eq_cons_iff.mp h
  obtain ⟨b, bs, rfl, rfl, rfl⟩ := List.map_eq_cons_iff.mp has
  obtain ⟨c, more, hc, rfl, hmore⟩ := exists_of_pieces_cons hpieces
  refine ⟨more, ?_, by rw [slashPieces, hmore, List.map_cons]⟩
  rw [String.toList_ofList, beq_iff_eq.mp hc]

theorem slashless_of_mem {cs : List Char} {segment : String} (h : segment ∈ slashPieces cs) :
    Slashless segment := by
  obtain ⟨piece, hpiece, rfl⟩ := List.mem_map.mp h
  intro hslash
  rw [String.toList_ofList] at hslash
  exact absurd (not_of_mem_pieces hpiece '/' hslash) (by decide)

private theorem slashPieces_joinWith {names : List String} (hne : names ≠ [])
    (h : ∀ name ∈ names, Slashless name) :
    slashPieces (joinWith "/" names).toList = names := by
  induction names with
  | nil => exact absurd rfl hne
  | cons name rest ih =>
    have hname := h name List.mem_cons_self
    cases rest with
    | nil => exact slashPieces_slashless hname
    | cons other more =>
      have hslash : ("/" : String).toList = ['/'] := rfl
      rw [toList_joinWith_cons, hslash, List.singleton_append, slashPieces_cons hname,
        ih (List.cons_ne_nil other more) fun s hs => h s (List.mem_cons_of_mem name hs)]

/-- The segments that lead to a directory, without an empty one at the end. -/
def front (p : Path) : List String :=
  if p.segments.getLast? = some "" then p.segments.dropLast else p.segments

/-- A name without slashes is joined behind one slash. -/
theorem join_of_slashless (p : Path) {name : String} (h : Slashless name) :
    p.join name = if p.text = "" || ['/'].isSuffixOf p.text.toList then ⟨p.text ++ name⟩
      else ⟨p.text ++ "/" ++ name⟩ := by
  have hroot : ['/'].isPrefixOf name.toList = false := by
    cases hname : name.toList with
    | nil => rfl
    | cons c rest =>
      rw [Slashless, hname, List.mem_cons, not_or] at h
      simp [List.isPrefixOf, h.1]
  rw [join, hroot, if_neg Bool.false_ne_true]

/-- A name is joined to a directory as one more segment. -/
theorem segments_join (p : Path) {name : String} (h : Slashless name) :
    (p.join name).segments = p.front ++ [name] := by
  have hslash : ("/" : String).toList = ['/'] := rfl
  rw [join_of_slashless p h]
  rcases List.eq_nil_or_concat p.text.toList with hempty | ⟨cs, c, htext⟩
  · have htext : p.text = "" := String.toList_injective hempty
    have hsegments : p.segments = [""] := by rw [segments, hempty]; rfl
    rw [if_pos (by simp [htext]), front, hsegments]
    simp [segments, htext, slashPieces_slashless h]
  · have hne : p.text ≠ "" := by
      intro hempty
      rw [hempty] at htext
      exact absurd htext (by simp)
    by_cases hc : c = '/'
    · have hsegments : p.segments = slashPieces cs ++ [""] := by
        rw [segments, htext, List.concat_eq_append, hc, slashPieces_append]
        rfl
      rw [if_pos (by simp [htext, hc, List.isSuffixOf]), front, hsegments, if_pos (by simp),
        List.dropLast_concat, segments]
      simp [htext, hc, slashPieces_append, slashPieces_slashless h]
    · have hlast : p.segments.getLast? ≠ some "" := by
        intro hlast
        rw [segments, htext, List.concat_eq_append, slashPieces, List.getLast?_map,
          Option.map_eq_some_iff] at hlast
        obtain ⟨piece, hpiece, hempty⟩ := hlast
        exact getLast?_pieces (by simpa using hc) piece hpiece (String.ofList_eq_empty_iff.mp hempty)
      have hc' : '/' ≠ c := Ne.symm hc
      rw [if_neg (by simp [hne, htext, hc', List.isSuffixOf]), front, if_neg hlast, segments,
        segments]
      simp [hslash, slashPieces_append, slashPieces_slashless h]

private theorem parent?_of_body {p : Path} {above after : List String} {name : String}
    (h : p.body = above ++ name :: after) (hname : isIdle name = false)
    (hafter : ∀ s ∈ after, isIdle s = true) :
    p.parent? = some ⟨p.lead ++ joinWith "/" (dropEndWhile isIdle above)⟩ ∧
      p.core.getLast? = some name := by
  have hcore : p.core = above ++ [name] := by
    rw [core, h, dropEndWhile_append_cons above hname hafter]
  refine ⟨?_, by rw [hcore, List.getLast?_concat]⟩
  rw [parent?]
  split
  · rename_i hnil
    simp [hcore] at hnil
  · rw [hcore, List.dropLast_concat]

private theorem body_of_lead {p : Path} (h : p.lead = "") : p.body = p.segments := by
  rw [body, h]
  rfl

/-- The first segment of a path from the root is its lead. -/
theorem body_of_root {p : Path} {second : String} {more : List String}
    (h : p.segments = "" :: second :: more) : p.lead = "/" ∧ p.body = second :: more := by
  have hlead : p.lead = "/" := by simp [lead, h]
  obtain ⟨cs, htext, hcs⟩ := exists_of_slashPieces_cons h
  refine ⟨hlead, ?_⟩
  rw [body, hlead, htext, ← hcs]
  rfl

/-- A leading dot leaves an empty segment to the body, before the slash. -/
theorem body_of_dot {p : Path} {rest : List String} (h : p.segments = "." :: rest) :
    p.lead = "." ∧ p.body = "" :: rest := by
  have hlead : p.lead = "." := by simp [lead, h]
  refine ⟨hlead, ?_⟩
  cases rest with
  | nil =>
    obtain ⟨piece, hpieces, hpiece⟩ := List.map_eq_singleton_iff.mp h
    have htext : p.text.toList = ".".toList := by
      rw [eq_of_pieces_singleton hpieces, ← hpiece, String.toList_ofList]
    rw [body, hlead, htext]
    rfl
  | cons second more =>
    obtain ⟨cs, htext, hcs⟩ := exists_of_slashPieces_cons h
    rw [body, hlead, htext, ← hcs]
    exact slashPieces_append [] cs

section Front

variable {names : List String}

private theorem front_of_segments {p : Path} {segments : List String}
    (h : p.segments = segments) (hlast : segments.getLast? ≠ some "") : p.front = segments := by
  rw [front, h, if_neg hlast]

private theorem getLast?_dropEndWhile (names : List String) :
    (dropEndWhile isIdle names).getLast? ≠ some "" := by
  intro hlast
  rw [dropEndWhile_eq_rdropWhile] at hlast
  obtain ⟨ys, hys⟩ := List.getLast?_eq_some_iff.mp hlast
  have hne : names.rdropWhile isIdle ≠ [] := by simp [hys]
  have hidle := List.rdropWhile_last_not isIdle names hne
  simp [hys, isIdle] at hidle

private theorem getLast?_cons_dropEndWhile (first : String) {a : String} {as : List String}
    (h : dropEndWhile isIdle names = a :: as) : (first :: a :: as).getLast? ≠ some "" := by
  have hlast := getLast?_dropEndWhile names
  rw [h] at hlast
  simpa using hlast

private theorem slashless_dropEndWhile (h : ∀ s ∈ names, Slashless s) :
    ∀ s ∈ dropEndWhile isIdle names, Slashless s := by
  intro s hs
  rw [dropEndWhile_eq_rdropWhile] at hs
  exact h s ((List.rdropWhile_prefix isIdle names).subset hs)

private theorem front_root (h : ∀ s ∈ names, Slashless s) :
    (⟨"/" ++ joinWith "/" (dropEndWhile isIdle names)⟩ : Path).front =
      "" :: dropEndWhile isIdle names := by
  have hkept := slashless_dropEndWhile h
  cases hkeep : dropEndWhile isIdle names with
  | nil => rfl
  | cons a as =>
    rw [hkeep] at hkept
    refine front_of_segments ?_ (getLast?_cons_dropEndWhile "" hkeep)
    have htoList : ("/" ++ joinWith "/" (a :: as)).toList =
        [] ++ '/' :: (joinWith "/" (a :: as)).toList := by simp
    rw [segments, htoList, slashPieces_append, slashPieces_joinWith (List.cons_ne_nil a as) hkept]
    rfl

private theorem front_dot (h : ∀ s ∈ names, Slashless s) :
    (⟨"." ++ joinWith "/" (dropEndWhile isIdle ("" :: names))⟩ : Path).front =
      "." :: dropEndWhile isIdle names := by
  have hkept := slashless_dropEndWhile h
  rw [dropEndWhile]
  cases hkeep : dropEndWhile isIdle names with
  | nil => rfl
  | cons a as =>
    rw [hkeep] at hkept
    refine front_of_segments ?_ (getLast?_cons_dropEndWhile "." hkeep)
    have htoList : ("." ++ joinWith "/" ("" :: a :: as)).toList =
        ['.'] ++ '/' :: (joinWith "/" (a :: as)).toList := by simp [toList_joinWith_cons]
    refine (congrArg slashPieces htoList).trans ?_
    rw [slashPieces_append, slashPieces_joinWith (List.cons_ne_nil a as) hkept]
    rfl

private theorem front_relative {first : String} (hfirst : isIdle first = false)
    (h : ∀ s ∈ first :: names, Slashless s) :
    (⟨"" ++ joinWith "/" (dropEndWhile isIdle (first :: names))⟩ : Path).front =
      first :: dropEndWhile isIdle names := by
  have hkeep : dropEndWhile isIdle (first :: names) = first :: dropEndWhile isIdle names := by
    rw [dropEndWhile]
    split
    · rename_i hnil
      rw [hnil, if_neg (by simp [hfirst])]
    · rename_i hcons
      rw [hcons]
  have hkept := slashless_dropEndWhile h
  have hlast := getLast?_dropEndWhile (first :: names)
  rw [hkeep] at hkept hlast ⊢
  refine front_of_segments ?_ hlast
  rw [segments, String.empty_append]
  exact slashPieces_joinWith (List.cons_ne_nil first _) hkept

end Front

/-- The parent of a path has the same segments before the last one that is not idle, idle ones
at the end aside. -/
theorem parent?_of_segments {p : Path} {before after : List String} {name : String}
    (h : p.segments = before ++ name :: after) (hname : isIdle name = false)
    (hafter : ∀ s ∈ after, isIdle s = true) :
    ∃ parent, (p.parent? = some parent ∧ p.core.getLast? = some name) ∧
      (∃ rest, before = parent.front ++ rest ∧ ∀ s ∈ rest, isIdle s = true) ∧
      (parent.front.head? = some "" ↔ before.head? = some "") := by
  have hslashless : ∀ s ∈ before, Slashless s := fun s hs =>
    slashless_of_mem (h ▸ List.mem_append_left (name :: after) hs)
  cases before with
  | nil =>
    have hempty : name ≠ "" ∧ name ≠ "." := by simpa [isIdle] using hname
    have hlead : p.lead = "" := by simp [lead, h, hempty]
    have hbody : p.body = [] ++ name :: after := (body_of_lead hlead).trans h
    have hfront : (⟨p.lead ++ joinWith "/" (dropEndWhile isIdle [])⟩ : Path).front = [] := by
      rw [hlead]
      rfl
    exact ⟨_, parent?_of_body hbody hname hafter, ⟨[], by rw [hfront]; rfl, nofun⟩, by rw [hfront]⟩
  | cons first above =>
    have habove : ∀ s ∈ above, Slashless s := (List.forall_mem_cons.mp hslashless).2
    obtain ⟨rest, hrest, hidle⟩ := exists_dropEndWhile_append isIdle above
    -- the lead takes nothing, or it is the first segment, which every parent keeps
    have hparent : ∃ kept, p.body = kept ++ name :: after ∧
        (⟨p.lead ++ joinWith "/" (dropEndWhile isIdle kept)⟩ : Path).front =
          first :: dropEndWhile isIdle above := by
      by_cases hroot : first = ""
      · subst hroot
        obtain ⟨second, more, hmore⟩ := List.exists_cons_of_ne_nil
          (List.append_ne_nil_of_right_ne_nil above (List.cons_ne_nil name after))
        rw [List.cons_append, hmore] at h
        obtain ⟨hlead, hbody⟩ := body_of_root h
        exact ⟨above, hbody.trans hmore.symm, by rw [hlead, front_root habove]⟩
      by_cases hdot : first = "."
      · subst hdot
        obtain ⟨hlead, hbody⟩ := body_of_dot h
        exact ⟨"" :: above, hbody, by rw [hlead, front_dot habove]⟩
      · have hlead : p.lead = "" := by simp [lead, h, hroot, hdot]
        have hfirst : isIdle first = false := by simp [isIdle, hroot, hdot]
        exact ⟨first :: above, (body_of_lead hlead).trans h,
          by rw [hlead, front_relative hfirst hslashless]⟩
    obtain ⟨kept, hbody, hfront⟩ := hparent
    exact ⟨_, parent?_of_body hbody hname hafter,
      ⟨rest, by rw [hfront, List.cons_append, ← hrest], hidle⟩, by rw [hfront]; rfl⟩

/-- The temporary file stands beside its path, as an entry of the parent. -/
theorem temporary_of_segments {p parent : Path} {name : String} (h : p.parent? = some parent)
    (hlast : p.core.getLast? = some name) (hname : name ≠ "..") :
    p.temporary = parent.join ("." ++ name ++ ".tmp") := by
  have hfile : p.fileName? = some name := by
    simp [fileName?, hlast, hname]
  simp [temporary, withFileName, hfile, h]

/-- The lead takes no segment that counts from the body. -/
theorem filter_body (p : Path) : p.body.filter (!isIdle ·) = p.segments.filter (!isIdle ·) := by
  by_cases hlead : p.lead = ""
  · rw [body_of_lead hlead]
  rcases hsegments : p.segments with _ | ⟨first, rest⟩
  · exact absurd (by rw [lead, hsegments]) hlead
  by_cases hdot : first = "."
  · subst hdot
    rw [(body_of_dot hsegments).2]
    rfl
  cases rest with
  | nil => exact absurd (by simp [lead, hsegments, hdot]) hlead
  | cons second more =>
    by_cases hroot : first = ""
    · subst hroot
      rw [(body_of_root hsegments).2]
      rfl
    · exact absurd (by simp [lead, hsegments, hroot, hdot]) hlead

private theorem isIdle_of_mem_body {p : Path} (h : ∀ s ∈ p.segments, isIdle s = true) :
    ∀ s ∈ p.body, isIdle s = true := by
  have hnone : p.body.filter (!isIdle ·) = [] := by
    rw [filter_body, List.filter_eq_nil_iff]
    simpa using h
  simpa using List.filter_eq_nil_iff.mp hnone

/-- The lead is what the first segment of the front says. -/
theorem lead_eq_front (p : Path) : p.lead =
    match p.front.head? with
    | some "" => "/"
    | some "." => "."
    | _ => "" := by
  rw [lead, front]
  rcases p.segments with _ | ⟨s, _ | ⟨t, more⟩⟩
  · rfl
  · by_cases hs : s = "" <;> by_cases hdot : s = "." <;> simp [hs, hdot]
  · have hhead : (if (s :: t :: more).getLast? = some "" then (s :: t :: more).dropLast
        else s :: t :: more).head? = some s := by
      split <;> rfl
    rw [hhead]
    by_cases hs : s = "" <;> by_cases hdot : s = "." <;> simp [hs, hdot]

/-- The front of a path keeps all segments but empty ones. -/
theorem mem_front {p : Path} {s : String} (h : s ∈ p.segments) (hs : s ≠ "") : s ∈ p.front := by
  rw [front]
  split
  · rename_i hlast
    obtain ⟨before, hsegments⟩ := List.getLast?_eq_some_iff.mp hlast
    rw [hsegments] at h ⊢
    rw [List.dropLast_concat]
    rcases List.mem_append.mp h with h | h
    · exact h
    · exact absurd (List.mem_singleton.mp h) hs
  · exact h

/-- Nothing is above the empty path. -/
theorem upwards_of_empty {p : Path} (h : p.text = "") (n : Nat) : upwards n p = [p] := by
  obtain rfl : p = ⟨""⟩ := congrArg Path.mk h
  cases n <;> rfl

/-- A path has a last segment that is not idle, or neither a name at its end nor a parent but the
empty one. -/
theorem segments_cases (p : Path) :
    (∃ before name after, p.segments = before ++ name :: after ∧ isIdle name = false ∧
      ∀ s ∈ after, isIdle s = true) ∨
      (∀ s ∈ p.segments, isIdle s = true) ∧ p.fileName? = none ∧
        ∀ a, p.parent? = some a → a.text = "" := by
  obtain ⟨after, hsegments, hidle⟩ := exists_dropEndWhile_append isIdle p.segments
  rcases List.eq_nil_or_concat (dropEndWhile isIdle p.segments) with hnil | ⟨before, name, hkept⟩
  · have hall : ∀ s ∈ p.segments, isIdle s = true := by rwa [hsegments, hnil]
    have hcore : p.core = [] := by
      rw [core, dropEndWhile_eq_rdropWhile, List.rdropWhile_eq_nil_iff]
      exact isIdle_of_mem_body hall
    refine Or.inr ⟨hall, by rw [fileName?, hcore]; rfl, fun a ha => ?_⟩
    rw [parent?, hcore] at ha
    dsimp only at ha
    split at ha <;> cases ha
    rfl
  · rw [List.concat_eq_append] at hkept
    have hname : isIdle name = false := by
      rw [dropEndWhile_eq_rdropWhile] at hkept
      have hlast := List.rdropWhile_last_not isIdle p.segments (by simp [hkept])
      simpa [hkept] using hlast
    rw [hkept, List.append_assoc, List.singleton_append] at hsegments
    exact Or.inl ⟨before, name, after, hsegments, hname, hidle⟩

end Path

namespace Disk
open PackageScript.Path

/-- Whether names that are joined to a path are entries of the directory at a location. -/
structure Enters (d : Disk) (p : Path) (l : Location) : Prop where
  directory : d.HasDirectory l
  follow : d.follow (if p.front.head? = some "" then [] else d.current) p.front = .ok l

theorem startOf_of_segments (d : Disk) {p : Path} {before after : List String} {name : String}
    (h : p.segments = before ++ name :: after) (hname : isIdle name = false) :
    d.startOf p = if before.head? = some "" then [] else d.current := by
  have hempty : name ≠ "" ∧ name ≠ "." := by simpa [isIdle] using hname
  cases before with
  | nil => simp [startOf, lead, h, hempty]
  | cons first above =>
    obtain ⟨second, more, hmore⟩ := List.exists_cons_of_ne_nil
      (List.append_ne_nil_of_right_ne_nil above (List.cons_ne_nil name after))
    rw [List.cons_append, hmore] at h
    by_cases hroot : first = ""
    · simp [startOf, lead, h, hroot]
    · by_cases hdot : first = "."
      · simp [startOf, lead, h, hdot]
      · simp [startOf, lead, h, hroot, hdot]

/-- Whether a path starts from the top shows at its front. -/
theorem startOf_eq_front (d : Disk) (p : Path) :
    d.startOf p = if p.front.head? = some "" then [] else d.current := by
  rw [startOf, lead_eq_front]
  split
  · rename_i hroot
    rw [hroot]
    rfl
  · rename_i hdot
    rw [hdot]
    rfl
  · rename_i hroot _
    rw [if_neg hroot]
    rfl

/-- A directory is still entered as long as none is removed. -/
theorem Enters.keeps {d e : Disk} {p : Path} {l : Location} (h : d.Enters p l) (hk : d.Keeps e) :
    e.Enters p l := by
  refine ⟨hk.directories l h.directory, ?_⟩
  rw [hk.current]
  exact follow_keeps hk h.follow

/-- A name that is joined to a directory that is entered leads to an entry. -/
theorem Enters.leads {d : Disk} {p : Path} {l : Location} (h : d.Enters p l) {name : String}
    (hname : Slashless name) (hentry : IsEntry name) : d.Leads (p.join name) l name := by
  have hsegments := segments_join p hname
  refine ⟨hentry, h.directory, p.front, hsegments, ?_⟩
  rw [startOf_of_segments d hsegments hentry.notIdle]
  exact h.follow

/-- Segments that lead nowhere else do not change where a path leads. -/
theorem follow_idle {d : Disk} {l m : Location} {rest : List String}
    (hidle : ∀ s ∈ rest, isIdle s = true) (h : d.follow l rest = .ok m) : m = l := by
  induction rest with
  | nil =>
    cases h
    rfl
  | cons s more ih =>
    rw [follow] at h
    split at h
    · cases h
    · cases h
    · rw [stepTo, if_pos (hidle s List.mem_cons_self)] at h
      exact ih (fun t ht => hidle t (List.mem_cons_of_mem s ht)) h

private theorem enters_parent {d : Disk} {p : Path} {before after : List String} {name : String}
    {l : Location} (hsegments : p.segments = before ++ name :: after) (hname : isIdle name = false)
    (hafter : ∀ s ∈ after, isIdle s = true) (hdirectory : d.HasDirectory l)
    (h : d.follow (d.startOf p) before = .ok l) :
    ∃ parent, (p.parent? = some parent ∧ p.core.getLast? = some name) ∧ d.Enters parent l := by
  obtain ⟨parent, hparent, ⟨rest, hrest, hidle⟩, hroot⟩ :=
    parent?_of_segments hsegments hname hafter
  refine ⟨parent, hparent, hdirectory, ?_⟩
  rw [startOf_of_segments d hsegments hname] at h
  simp only [← hroot] at h
  rw [hrest, follow_append] at h
  obtain ⟨m, hm, hl⟩ := bind_eq_ok.mp h
  rw [follow_idle hidle hl]
  exact hm

end Disk

/-- Whether a text names an entry of a directory when it is joined to the directory. -/
structure IsName (name : String) : Prop where
  slashless : Slashless name
  entry : Disk.IsEntry name

instance (name : String) : Decidable (IsName name) :=
  decidable_of_iff (Slashless name ∧ Path.isIdle name = false ∧ name ≠ "..")
    ⟨fun ⟨hslash, hidle, hparent⟩ => ⟨hslash, hidle, hparent⟩,
      fun h => ⟨h.slashless, h.entry.notIdle, h.entry.notParent⟩⟩

namespace Disk
open PackageScript.Path

private theorem isEntry_of_length {name : String} (h : 2 < name.toList.length) : IsEntry name := by
  have hne : ∀ short : String, short.toList.length ≤ 2 → name ≠ short := by
    rintro short hshort rfl
    omega
  refine ⟨?_, hne ".." (by decide)⟩
  simp [isIdle, hne "" (by decide), hne "." (by decide)]

/-- More characters after the name of an entry give the name of an entry again. -/
theorem IsEntry.append {name : String} (h : IsEntry name) (more : String) :
    IsEntry (name ++ more) := by
  have hname : name ≠ "" ∧ name ≠ "." := by simpa [isIdle] using h.notIdle
  have hdots : ¬ name.toList <+: ['.', '.'] := by
    intro hpre
    rcases List.prefix_cons_iff.mp hpre with hnil | ⟨t, ht, hpre⟩
    · exact hname.1 (String.toList_injective hnil)
    rcases List.prefix_cons_iff.mp hpre with rfl | ⟨u, rfl, hrest⟩
    · exact hname.2 (String.toList_injective ht)
    · rw [List.prefix_nil.mp hrest] at ht
      exact h.notParent (String.toList_injective ht)
  have hne : ∀ short : String, short.toList <+: ['.', '.'] → name ++ more ≠ short := by
    rintro short hshort rfl
    rw [String.toList_append] at hshort
    exact hdots ((List.prefix_append _ _).trans hshort)
  refine ⟨?_, hne ".." (by decide)⟩
  simp [isIdle, hne "" (by decide), hne "." (by decide)]

/-- The parent of a path that leads to a name leads to the directory that holds the name. -/
theorem Leads.parent {d : Disk} {p : Path} {l : Location} {name : String} (h : d.Leads p l name) :
    ∃ parent, (p.parent? = some parent ∧ p.core.getLast? = some name) ∧ d.Enters parent l := by
  obtain ⟨before, hsegments, hbefore⟩ := h.follow
  exact enters_parent hsegments h.entry.notIdle nofun h.directory hbefore

/-- The name of a temporary file is a name. -/
theorem isName_temporary {name : String} (h : Slashless name) : IsName ("." ++ name ++ ".tmp") := by
  have hdot : Slashless "." := by decide
  have htail : Slashless ".tmp" := by decide
  exact ⟨(hdot.append h).append htail, isEntry_of_length (by simp)⟩

/-- The temporary file of a path is in the same directory. -/
theorem Leads.temporary {d : Disk} {p : Path} {l : Location} {name : String} (h : d.Leads p l name)
    (hname : Slashless name) : d.Leads p.temporary l ("." ++ name ++ ".tmp") := by
  obtain ⟨parent, ⟨hparent, hlast⟩, henters⟩ := h.parent
  rw [temporary_of_segments hparent hlast h.entry.notParent]
  have htemporary := isName_temporary hname
  exact henters.leads htemporary.slashless htemporary.entry

/-- Only from a directory a path leads on. -/
theorem hasDirectory_of_follow {d : Disk} {l m : Location} {segment : String}
    {rest : List String} (h : d.follow l (segment :: rest) = .ok m) : d.HasDirectory l := by
  rw [follow] at h
  split at h
  · cases h
  · cases h
  · exact hasDirectory_iff.mpr ⟨_, ‹_›⟩

/-- A file that is read is in the directory of its package. -/
theorem enters_packageOf {d : Disk} {p : Path} {content : Bytes} (h : d.read p = .ok content) :
    ∃ l, d.Enters (Files.packageOf p) l := by
  obtain ⟨m, hlocate, hview⟩ := read_eq_ok.mp h
  obtain ⟨-, -, hfollow⟩ := bind_eq_ok.mp hlocate
  rcases List.eq_nil_or_concat p.segments with hnil | ⟨before, name, hsegments⟩
  · exact absurd (List.map_eq_nil_iff.mp hnil) (Text.pieces_ne_nil _ _)
  · rw [List.concat_eq_append] at hsegments
    rw [hsegments, follow_append] at hfollow
    obtain ⟨l, hbefore, hlast⟩ := bind_eq_ok.mp hfollow
    have hdirectory := hasDirectory_of_follow hlast
    have hidle : isIdle name = false := by
      by_contra hidle
      have hsame := follow_idle (List.forall_mem_singleton.mpr (by simpa using hidle)) hlast
      rw [hsame, hdirectory] at hview
      cases hview
    obtain ⟨parent, ⟨hparent, -⟩, henters⟩ := enters_parent hsegments hidle nofun hdirectory hbefore
    rw [Files.packageOf, hparent]
    exact ⟨l, henters⟩

/-- The parent of a path that leads to a directory leads to one, if it is not empty. -/
theorem Enters.parent {d : Disk} {p a : Path} {l : Location} (h : d.Enters p l)
    (hparent : p.parent? = some a) : a.text = "" ∨ ∃ m, d.Enters a m := by
  rcases segments_cases p with ⟨before, name, after, hsegments, hname, hidle⟩ | ⟨-, -, hempty⟩
  · have hfront : ∃ rest, p.front = before ++ name :: rest := by
      rw [front, hsegments]
      split
      · cases after with
        | nil => simp_all [isIdle]
        | cons a rest => exact ⟨(a :: rest).dropLast, by simp [List.dropLast_append_of_ne_nil]⟩
      · exact ⟨after, rfl⟩
    obtain ⟨rest, hrest⟩ := hfront
    have hfollow := h.follow
    rw [← startOf_eq_front, hrest, follow_append] at hfollow
    obtain ⟨m, hbefore, hname'⟩ := bind_eq_ok.mp hfollow
    obtain ⟨parent, ⟨hp, -⟩, henters⟩ :=
      enters_parent hsegments hname hidle (hasDirectory_of_follow hname') hbefore
    rw [hp] at hparent
    cases hparent
    exact Or.inr ⟨m, henters⟩
  · exact Or.inl (hempty a hparent)

/-- If a name that is joined to a path is located, then the path leads to a directory. -/
theorem enters_of_locate {d : Disk} {p : Path} {name : String} {m : Location}
    (hname : Slashless name) (hentry : IsEntry name) (h : d.locate (p.join name) = .ok m) :
    ∃ l, d.Enters p l := by
  obtain ⟨-, -, hfollow⟩ := bind_eq_ok.mp h
  have hsegments := segments_join p hname
  rw [startOf_of_segments d hsegments hentry.notIdle, hsegments, follow_append] at hfollow
  obtain ⟨l, hfront, hlast⟩ := bind_eq_ok.mp hfollow
  exact ⟨l, hasDirectory_of_follow hlast, hfront⟩

/-- If something is moved to a name that is joined to a path, then the path leads to a directory. -/
theorem enters_of_rename {d e : Disk} {p q : Path} {name : String} (hname : Slashless name)
    (hentry : IsEntry name) (h : d.rename q (p.join name) = .ok e) : ∃ l, d.Enters p l := by
  have hsegments := segments_join p hname
  have hne : name ≠ "" := by
    rintro rfl
    cases hentry.notIdle
  have hunslashed : unslashed (p.join name) = p.front ++ [name] := by
    rw [unslashed, Text.dropEndWhile_eq_rdropWhile, hsegments,
      List.rdropWhile_concat_neg _ _ _ (by simpa using hne)]
  rw [rename] at h
  split at h
  · cases h
  obtain ⟨-, -, h⟩ := bind_eq_ok.mp h
  obtain ⟨s, -, h⟩ := bind_eq_ok.mp h
  obtain ⟨t, hslot, -⟩ := bind_eq_ok.mp h
  obtain ⟨-, -, hslot⟩ := bind_eq_ok.mp hslot
  dsimp only at hslot
  obtain ⟨l, hfollow, -⟩ := bind_eq_ok.mp hslot
  rw [hunslashed, List.dropLast_concat, startOf_of_segments d hsegments hentry.notIdle,
    follow_append] at hfollow
  obtain ⟨m, hfront, hlast⟩ := bind_eq_ok.mp hfollow
  exact ⟨m, hasDirectory_of_follow hlast, hfront⟩

end Disk

end PackageScript
