import Mathlib.Logic.Function.Basic
import PackageScript.Files.Disk
/-! What is at each location of a disk, and what one change at a location leaves as it is. -/
namespace PackageScript

variable {α : Type}

namespace FileTree

/-- The content of a file. Directories have none. -/
def content? : FileTree α → Option α
  | .file content => some content
  | .directory _ => none

theorem at?_nil (t : FileTree α) : t.at? [] = some t := by
  cases t <;> rfl

theorem at?_append (t : FileTree α) (l k : Location) :
    t.at? (l ++ k) = (t.at? l).bind fun u => u.at? k := by
  induction l generalizing t with
  | nil => rw [List.nil_append, at?_nil, Option.bind_some]
  | cons name below ih =>
    cases t with
    | file content => rfl
    | directory entries =>
      rw [List.cons_append, at?, at?]
      cases Directory.child? name entries with
      | none => rfl
      | some u => exact ih u

end FileTree

namespace Directory
open FileTree

private theorem setAt_cons (name : String) {below : Location} (h : below ≠ [])
    (t : Option (FileTree α)) (d : Directory α) :
    setAt (name :: below) t d =
      match child? name d with
      | some (.directory inner) => put name (.directory (setAt below t inner)) d
      | _ => d := by
  cases below with
  | nil => exact absurd rfl h
  | cons => rfl

/-- A change at one location shows there and below it only. -/
theorem at?_setAt (l m : Location) (t : Option (FileTree α)) (d : Directory α) :
    ((FileTree.directory (setAt l t d)).at? m).map content? =
        ((FileTree.directory d).at? m).map content? ∨
      ∃ k, m = l ++ k ∧ (FileTree.directory (setAt l t d)).at? m = t.bind fun u => u.at? k := by
  induction l generalizing m d with
  | nil => exact Or.inl rfl
  | cons name below ih =>
    cases m with
    | nil => exact Or.inl rfl
    | cons x rest =>
      cases below with
      | nil =>
        by_cases hx : name = x
        · subst hx
          refine Or.inr ⟨rest, rfl, ?_⟩
          rw [setAt, at?, child?_set, if_pos rfl]
          cases t <;> rfl
        · rw [setAt, at?, at?, child?_set, if_neg hx]
          exact Or.inl rfl
      | cons b below =>
        rw [setAt_cons name (List.cons_ne_nil b below)]
        split
        · rename_i inner hchild
          by_cases hx : name = x
          · subst hx
            rw [at?, at?, child?_put, if_pos rfl, hchild]
            rcases ih rest inner with hsame | ⟨k, rfl, hnew⟩
            · exact Or.inl hsame
            · exact Or.inr ⟨k, rfl, hnew⟩
          · rw [at?, at?, child?_put, if_neg hx]
            exact Or.inl rfl
        · exact Or.inl rfl

/-- A change below a directory is found there. -/
theorem at?_setAt_self {l : Location} (name : String) (t : Option (FileTree α)) {d : Directory α}
    {entries : Directory α} (h : (FileTree.directory d).at? l = some (.directory entries)) :
    (FileTree.directory (setAt (l ++ [name]) t d)).at? (l ++ [name]) = t := by
  induction l generalizing d with
  | nil =>
    rw [List.nil_append, setAt, at?, child?_set, if_pos rfl]
    cases t with
    | none => rfl
    | some u => exact at?_nil u
  | cons x below ih =>
    rw [at?] at h
    cases hchild : child? x d with
    | none =>
      rw [hchild] at h
      cases h
    | some u =>
      rw [hchild] at h
      cases u with
      | file content => cases below <;> cases h
      | directory inner =>
        rw [List.cons_append, setAt_cons x (by simp), hchild, at?, child?_put, if_pos rfl]
        exact ih h

end Directory

namespace Disk

/-- What is at a location, without the entries of a directory. -/
def view (d : Disk) (l : Location) : Option (Option Bytes) :=
  (d.at? l).map FileTree.content?

/-- Whether a directory is at a location. -/
def HasDirectory (d : Disk) (l : Location) : Prop :=
  d.view l = some none

theorem hasDirectory_iff {d : Disk} {l : Location} :
    d.HasDirectory l ↔ ∃ entries, d.at? l = some (.directory entries) := by
  rw [HasDirectory, view]
  cases d.at? l with
  | none => simp
  | some t => cases t <;> simp [FileTree.content?]

/-- A file shows its content. -/
theorem view_eq_file {d : Disk} {l : Location} {content : Bytes} :
    d.view l = some (some content) ↔ d.at? l = some (.file content) := by
  rw [view]
  cases d.at? l with
  | none => simp
  | some t => cases t <;> simp [FileTree.content?]

theorem not_hasDirectory {d : Disk} {l : Location} {content : Bytes}
    (h : d.view l = some (some content)) : ¬ d.HasDirectory l := by
  simp [HasDirectory, h]

theorem not_hasDirectory_of_none {d : Disk} {l : Location} (h : d.view l = none) :
    ¬ d.HasDirectory l := by
  simp [HasDirectory, h]

/-- Below what is not a directory there is nothing. -/
theorem view_below {d : Disk} {l k : Location} (h : ¬ d.HasDirectory l) (hk : k ≠ []) :
    d.view (l ++ k) = none := by
  have hsplit : d.at? (l ++ k) = (d.at? l).bind fun u => u.at? k :=
    FileTree.at?_append _ l k
  rw [view, hsplit]
  cases hl : d.at? l with
  | none => rfl
  | some t =>
    cases t with
    | file content =>
      cases k with
      | nil => exact absurd rfl hk
      | cons => rfl
    | directory entries => exact absurd (hasDirectory_iff.mpr ⟨entries, hl⟩) h

/-- A change shows only at its location and below it. -/
theorem view_setAt_cases (d : Disk) (l m : Location) (t : Option (FileTree Bytes)) :
    (d.setAt l t).view m = d.view m ∨
      ∃ k, m = l ++ k ∧ (d.setAt l t).view m = (t.bind fun u => u.at? k).map FileTree.content? := by
  rcases Directory.at?_setAt l m t d.top with hsame | ⟨k, hk, hnew⟩
  · exact Or.inl hsame
  · exact Or.inr ⟨k, hk, congrArg (Option.map FileTree.content?) hnew⟩

/-- A change at a location leaves all others as they are, those below it aside. -/
theorem view_setAt {d : Disk} {l m : Location} {t : Option (FileTree Bytes)} (h : ¬ l <+: m) :
    (d.setAt l t).view m = d.view m := by
  rcases view_setAt_cases d l m t with hsame | ⟨k, rfl, -⟩
  · exact hsame
  · exact absurd (List.prefix_append l k) h

/-- What is set below a directory shows there. -/
theorem view_setAt_self {d : Disk} {l : Location} (name : String) (t : Option (FileTree Bytes))
    (h : d.HasDirectory l) :
    (d.setAt (l ++ [name]) t).view (l ++ [name]) = t.map FileTree.content? := by
  obtain ⟨entries, hl⟩ := hasDirectory_iff.mp h
  have hself := Directory.at?_setAt_self name t hl
  exact congrArg (Option.map FileTree.content?) hself

/-- A file that is put at a name of a directory, or removed there, shows nowhere else. -/
theorem view_setAt_entry {d : Disk} {l : Location} {name : String} {t : Option (FileTree Bytes)}
    (hdirectory : d.HasDirectory l) (hfree : ¬ d.HasDirectory (l ++ [name]))
    (ht : t.map FileTree.content? ≠ some none) :
    (d.setAt (l ++ [name]) t).view =
      Function.update d.view (l ++ [name]) (t.map FileTree.content?) := by
  have hself := view_setAt_self name t hdirectory
  funext m
  by_cases hm : m = l ++ [name]
  · rw [hm, Function.update_self, hself]
  rw [Function.update_of_ne hm]
  by_cases hpre : l ++ [name] <+: m
  · obtain ⟨k, rfl⟩ := hpre
    have hk : k ≠ [] := by
      rintro rfl
      exact hm (List.append_nil _)
    have hafter : ¬ (d.setAt (l ++ [name]) t).HasDirectory (l ++ [name]) := by
      rw [HasDirectory, hself]
      exact ht
    rw [view_below hfree hk, view_below hafter hk]
  · exact view_setAt hpre

/-- Whether all directories of a disk are there on another one as well. -/
structure Keeps (d e : Disk) : Prop where
  current : e.current = d.current
  directories : ∀ l, d.HasDirectory l → e.HasDirectory l

theorem Keeps.refl (d : Disk) : d.Keeps d :=
  ⟨rfl, fun _ h => h⟩

theorem Keeps.trans {d e f : Disk} (h : d.Keeps e) (h' : e.Keeps f) : d.Keeps f :=
  ⟨h'.current.trans h.current, fun l hl => h'.directories l (h.directories l hl)⟩

/-- A change where no directory is keeps all directories. -/
theorem keeps_setAt {d : Disk} {l : Location} (t : Option (FileTree Bytes))
    (h : ¬ d.HasDirectory l) : d.Keeps (d.setAt l t) := by
  refine ⟨rfl, fun m hm => ?_⟩
  by_cases hpre : l <+: m
  · obtain ⟨k, rfl⟩ := hpre
    by_cases hk : k = []
    · rw [hk, List.append_nil] at hm
      exact absurd hm h
    · rw [HasDirectory, view_below h hk] at hm
      cases hm
  · rw [HasDirectory, view_setAt hpre]
    exact hm

end Disk

end PackageScript
