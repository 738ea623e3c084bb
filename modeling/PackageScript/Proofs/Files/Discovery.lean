import Mathlib.Data.List.Sort
import PackageScript.Proofs.Files.Search
/-! The documents that a command finds: which ones, in which order, and when it fails. -/
namespace PackageScript.Files

section Spec

/-- What a path of a command stands for: a file for itself, a directory for the document in it, or
with a search for all documents below it. -/
inductive StandsFor (d : Disk) (name : String) : Bool → Path → List Path → Prop
  | file {recursive : Bool} {p : Path} : d.kind? p = some .file → StandsFor d name recursive p [p]
  | document {p : Path} : d.kind? p = some .directory → d.kind? (p.join name) = some .file →
      StandsFor d name false p [p.join name]
  | search {p : Path} {entries : Directory Bytes} {found : List Path} :
      d.find? p = some (.directory entries) →
      (∀ q, q ∈ found ↔ ∃ l, Reaches name (.directory entries) l ∧ q = p.under (l ++ [name])) →
      found.Pairwise Path.Before → StandsFor d name true p found

/-- A path that stands for nothing, with the one that is reported to be missing. -/
inductive Lacks (d : Disk) (name : String) : Bool → Path → Path → Prop
  | argument {recursive : Bool} {p : Path} : d.kind? p ≠ some .file → d.kind? p ≠ some .directory →
      Lacks d name recursive p p
  | document {p : Path} : d.kind? p = some .directory → d.kind? (p.join name) ≠ some .file →
      Lacks d name false p (p.join name)

end Spec

section Runs

variable {α β : Type} {d : Disk}

/-- A job that answers on a disk, and leaves it as it is without a warning. -/
def Tells (d : Disk) (job : Job α) (r : Except Failure α) : Prop :=
  job.run.run d = ⟨r, d, []⟩

private theorem tells_look (p : Path) : Tells d (Job.ask (.look p)) (.ok (d.kind? p)) := rfl

private theorem tells_survey (p : Path) : Tells d (Job.ask (.survey p)) (.ok (d.survey p)) := rfl

private theorem tells_pure (a : α) : Tells d (pure a) (.ok a) := rfl

private theorem tells_throw (f : Failure) : Tells d (throw f : Job α) (.error f) := rfl

/-- A sequence goes on with what its first part tells. -/
theorem tells_bind {job : Job α} {f : α → Job β} {a : α} {r : Except Failure β}
    (hjob : Tells d job (.ok a)) (hf : Tells d (f a) r) : Tells d (job >>= f) r := by
  have hrun : (job >>= f).run.run d = _ := Program.run_bind job.run (ExceptT.bindCont f) d
  rw [hjob] at hrun
  exact hrun.trans hf

private theorem tells_bind_error {job : Job α} {e : Failure} (f : α → Job β)
    (hjob : Tells d job (.error e)) : Tells d (job >>= f) (.error e) := by
  have hrun : (job >>= f).run.run d = _ := Program.run_bind job.run (ExceptT.bindCont f) d
  rw [hjob] at hrun
  exact hrun

/-- A job tells one result only. -/
theorem Tells.unique {job : Job α} {r s : Except Failure α} (h : Tells d job r)
    (h' : Tells d job s) : r = s :=
  congrArg Run.result (h.symm.trans h')

end Runs

section Arguments

variable {d : Disk} {name : String} {recursive : Bool} {p : Path}

/-- What a path leads to is what stands at its location. -/
theorem find?_eq_some_iff {t : FileTree Bytes} :
    d.find? p = some t ↔ ∃ l, d.locate p = .ok l ∧ d.at? l = some t := by
  rw [Disk.find?]
  cases d.locate p with
  | ok l =>
    constructor
    · exact fun h => ⟨l, rfl, h⟩
    · rintro ⟨_, hl, h⟩
      cases hl
      exact h
  | error f =>
    refine iff_of_false (by simp) ?_
    rintro ⟨_, hl, -⟩
    cases hl

private theorem survey_of_find? {entries : Directory Bytes}
    (h : d.find? p = some (.directory entries)) : d.survey p = .ok (FileTree.outlines entries) := by
  obtain ⟨l, hl, hat⟩ := find?_eq_some_iff.mp h
  simp only [Disk.survey, hl, bind, Except.bind, hat]
  rfl

private theorem find?_of_kind? (h : d.kind? p = some .directory) :
    ∃ entries, d.find? p = some (.directory entries) := by
  obtain ⟨t, ht, hkind⟩ := Option.map_eq_some_iff.mp h
  cases t with
  | file content => cases hkind
  | directory entries => exact ⟨entries, ht⟩

/-- The search of a tree finds what it holds, in the order of the paths. -/
theorem searchTree_exact {entries : Directory Bytes} {root : Path}
    (h : (FileTree.directory entries).WellFormed) :
    (∀ q, q ∈ searchTree name root (FileTree.outlines entries) ↔
      ∃ l, Reaches name (.directory entries) l ∧ q = root.under (l ++ [name])) ∧
    (searchTree name root (FileTree.outlines entries)).Pairwise Path.Before := by
  have hwell : (FileTree.directory (FileTree.outlines entries)).WellFormed := h.outline
  refine ⟨fun q => ?_, pairwise_searchTree hwell⟩
  rw [mem_searchTree_iff hwell]
  exact exists_congr fun l => and_congr_left' (reaches_outline (t := .directory entries))

/-- A path that stands for something tells what, and another one tells what is missing. -/
theorem tells_documentsAt (hd : (FileTree.directory d.top).WellFormed) (name : String)
    (recursive : Bool) (p : Path) :
    (∃ found, StandsFor d name recursive p found ∧
      Tells d (documentsAt name recursive p) (.ok found)) ∨
    ∃ q, Lacks d name recursive p q ∧
      Tells d (documentsAt name recursive p) (.error (.ofProblem (.noDocument q.text))) := by
  have hlook := @tells_look d p
  match hkind : d.kind? p with
  | some .file =>
    rw [hkind] at hlook
    exact Or.inl ⟨[p], .file hkind, tells_bind hlook (tells_pure _)⟩
  | some .directory =>
    rw [hkind] at hlook
    cases recursive with
    | true =>
      obtain ⟨entries, hentries⟩ := find?_of_kind? hkind
      have hsurvey := @tells_survey d p
      rw [survey_of_find? hentries] at hsurvey
      obtain ⟨l, -, hat⟩ := find?_eq_some_iff.mp hentries
      obtain ⟨hmem, hsorted⟩ := @searchTree_exact name entries p (hd.at? hat)
      exact Or.inl ⟨_, .search hentries hmem hsorted,
        tells_bind hlook (tells_bind hsurvey (tells_pure _))⟩
    | false =>
      have hinner := @tells_look d (p.join name)
      by_cases hfile : d.kind? (p.join name) = some .file
      · refine Or.inl ⟨_, .document hkind hfile, tells_bind hlook (tells_bind hinner ?_)⟩
        rw [if_pos hfile]
        exact tells_pure _
      · refine Or.inr ⟨_, .document hkind hfile, tells_bind hlook (tells_bind hinner ?_)⟩
        rw [if_neg hfile]
        exact tells_throw _
  | some .other =>
    rw [hkind] at hlook
    exact Or.inr ⟨p, .argument (by simp [hkind]) (by simp [hkind]),
      tells_bind hlook (tells_throw _)⟩
  | none =>
    rw [hkind] at hlook
    exact Or.inr ⟨p, .argument (by simp [hkind]) (by simp [hkind]),
      tells_bind hlook (tells_throw _)⟩

/-- A path stands for one list only. -/
theorem StandsFor.unique {found other : List Path} (h : StandsFor d name recursive p found)
    (h' : StandsFor d name recursive p other) : found = other := by
  cases h with
  | file hfile =>
    cases h' with
    | file => rfl
    | document hdirectory => simp [hfile] at hdirectory
    | search hfind => simp [Disk.kind?, hfind, FileTree.kind] at hfile
  | document hdirectory =>
    cases h' with
    | file hfile => simp [hfile] at hdirectory
    | document => rfl
  | search hfind hmem hsorted =>
    cases h' with
    | file hfile => simp [Disk.kind?, hfind, FileTree.kind] at hfile
    | search hfind' hmem' hsorted' =>
      rw [hfind] at hfind'
      cases hfind'
      exact hsorted.eq_of_mem_iff hsorted' fun q => (hmem q).trans (hmem' q).symm

private theorem StandsFor.not_lacks {found : List Path} {q : Path}
    (h : StandsFor d name recursive p found) :
    ¬Lacks d name recursive p q := by
  intro h'
  cases h with
  | file hfile =>
    cases h' with
    | argument hnot => exact hnot hfile
    | document hdirectory => simp [hfile] at hdirectory
  | document hdirectory hfile =>
    cases h' with
    | argument _ hnot => exact hnot hdirectory
    | document _ hnot => exact hnot hfile
  | search hfind =>
    cases h' with
    | argument _ hnot => exact hnot (by simp [Disk.kind?, hfind, FileTree.kind])

private theorem Lacks.unique {q r : Path} (h : Lacks d name recursive p q)
    (h' : Lacks d name recursive p r) : q = r := by
  cases h with
  | argument _ hnot =>
    cases h' with
    | argument => rfl
    | document hdirectory => exact absurd hdirectory hnot
  | document hdirectory =>
    cases h' with
    | argument _ hnot => exact absurd hdirectory hnot
    | document => rfl

end Arguments

section Lists

variable {d : Disk} {name : String} {recursive : Bool}

/-- The first of some paths that stands for nothing, with the one that is reported. -/
def LacksFirst (d : Disk) (name : String) (recursive : Bool) (paths : List Path) (q : Path) : Prop :=
  ∃ before p after, paths = before ++ p :: after ∧
    (∀ r ∈ before, ∃ found, StandsFor d name recursive r found) ∧ Lacks d name recursive p q

/-- Paths that all stand for something tell it, and others tell what is missing first. -/
theorem tells_mapM (hd : (FileTree.directory d.top).WellFormed) (name : String) (recursive : Bool)
    (paths : List Path) :
    (∃ lists, List.Forall₂ (StandsFor d name recursive) paths lists ∧
      Tells d (paths.mapM (documentsAt name recursive)) (.ok lists)) ∨
    ∃ q, LacksFirst d name recursive paths q ∧
      Tells d (paths.mapM (documentsAt name recursive))
        (.error (.ofProblem (.noDocument q.text))) := by
  induction paths with
  | nil => exact Or.inl ⟨[], .nil, tells_pure _⟩
  | cons p rest ih =>
    rw [List.mapM_cons]
    rcases tells_documentsAt hd name recursive p with ⟨found, hfound, htells⟩ | ⟨q, hq, htells⟩
    · rcases ih with ⟨lists, hlists, hrest⟩ | ⟨q, ⟨before, r, after, rfl, hbefore, hr⟩, hrest⟩
      · exact Or.inl ⟨found :: lists, .cons hfound hlists,
          tells_bind htells (tells_bind hrest (tells_pure _))⟩
      · refine Or.inr ⟨q, ⟨p :: before, r, after, rfl, ?_, hr⟩,
          tells_bind htells (tells_bind_error _ hrest)⟩
        exact List.forall_mem_cons.mpr ⟨⟨found, hfound⟩, hbefore⟩
    · exact Or.inr ⟨q, ⟨[], p, rest, rfl, List.forall_mem_nil _, hq⟩, tells_bind_error _ htells⟩

/-- Each of the lists is what one of the paths stands for. -/
theorem exists_of_forall_standsFor {paths : List Path} {lists : List (List Path)}
    (h : List.Forall₂ (StandsFor d name recursive) paths lists) {found : List Path}
    (hfound : found ∈ lists) : ∃ p ∈ paths, StandsFor d name recursive p found := by
  induction h with
  | nil => cases hfound
  | @cons p _ _ _ hfirst _ ih =>
    rcases List.mem_cons.mp hfound with rfl | hfound
    · exact ⟨p, List.mem_cons_self, hfirst⟩
    · obtain ⟨q, hq, hstands⟩ := ih hfound
      exact ⟨q, List.mem_cons_of_mem p hq, hstands⟩

private theorem LacksFirst.unique {paths : List Path} {q r : Path}
    (h : LacksFirst d name recursive paths q) (h' : LacksFirst d name recursive paths r) : q = r := by
  obtain ⟨before, p, after, rfl, hbefore, hp⟩ := h
  obtain ⟨before', p', after', heq, hbefore', hp'⟩ := h'
  induction before generalizing before' with
  | nil =>
    cases before' with
    | nil =>
      cases heq
      exact hp.unique hp'
    | cons =>
      cases heq
      obtain ⟨found, hfound⟩ := hbefore' p List.mem_cons_self
      exact absurd hp hfound.not_lacks
  | cons s rest ih =>
    obtain ⟨⟨found, hfound⟩, hrest⟩ := List.forall_mem_cons.mp hbefore
    cases before' with
    | nil =>
      cases heq
      exact absurd hp' hfound.not_lacks
    | cons t more =>
      exact ih hrest more (List.cons.inj heq).2 (List.forall_mem_cons.mp hbefore').2

private theorem distinctAfter_eq (earlier paths : List Path) : distinctAfter earlier paths =
    (paths.filter fun p => !earlier.any (·.same p)).eraseDupsBy Path.same := by
  induction paths generalizing earlier with
  | nil => rfl
  | cons p rest ih =>
    have hsymm : ∀ q : Path, q.same p = p.same q := fun q => Bool.beq_comm
    rw [distinctAfter]
    split
    · rename_i hany
      rw [ih, List.filter_cons_of_neg (by simp [hany])]
    · rename_i hnew
      have hrest : (rest.filter fun q => !(p :: earlier).any (·.same q)) =
          rest.filter fun q => decide (q.same p = false) && !earlier.any (·.same q) :=
        List.filter_congr fun q _ => by simp [hsymm q]
      rw [ih, List.filter_cons_of_pos (by simpa using hnew), List.eraseDupsBy_cons,
        List.filter_filter, hrest]

/-- Removing repetitions keeps the first path of each sequence of components. -/
theorem distinctAfter_nil (paths : List Path) :
    distinctAfter [] paths = paths.eraseDupsBy Path.same := by
  rw [distinctAfter_eq]
  simp

/-- What stands for the arguments is found without repetitions, unless an argument stands for
nothing. -/
theorem tells_findDocuments (hd : (FileTree.directory d.top).WellFormed) (name : String)
    (recursive : Bool) (paths : List Path) :
    (∃ lists, List.Forall₂ (StandsFor d name recursive) paths lists ∧
      Tells d (findDocuments name recursive paths) (.ok (lists.flatten.eraseDupsBy Path.same))) ∨
    ∃ q, LacksFirst d name recursive paths q ∧
      Tells d (findDocuments name recursive paths) (.error (.ofProblem (.noDocument q.text))) := by
  rcases tells_mapM hd name recursive paths with ⟨lists, hlists, htells⟩ | ⟨q, hq, htells⟩
  · refine Or.inl ⟨lists, hlists, ?_⟩
    rw [← distinctAfter_nil]
    exact tells_bind htells (tells_pure _)
  · exact Or.inr ⟨q, hq, tells_bind_error _ htells⟩

end Lists

end PackageScript.Files
