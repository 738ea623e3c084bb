import PackageScript.Proofs.Files.Components
import PackageScript.Proofs.Files.Found
import PackageScript.Proofs.List.Repetitions
/-! What a search finds below a directory, and in which order. -/
namespace PackageScript

namespace Directory

variable {α : Type}

/-- Where names differ, an entry is the one of its name. -/
theorem child?_eq_some_iff {entries : Directory α} (h : (entries.map Prod.fst).Nodup)
    {name : String} {t : FileTree α} : entries.child? name = some t ↔ (name, t) ∈ entries := by
  refine ⟨FileTree.mem_of_child?, fun hmem => ?_⟩
  induction entries with
  | nil => cases hmem
  | cons entry rest ih =>
    obtain ⟨hfirst, hrest⟩ := List.nodup_cons.mp h
    rw [child?]
    rcases List.mem_cons.mp hmem with rfl | hmem
    · exact if_pos rfl
    · rw [if_neg fun hname => hfirst (List.mem_map.mpr ⟨_, hmem, hname.symm⟩)]
      exact ih hrest hmem

end Directory

namespace FileTree

variable {α : Type}

/-- A tree in which the entries of every directory have names that differ from each other. -/
inductive WellFormed : FileTree α → Prop
  | file (content : α) : WellFormed (.file content)
  | directory {entries : Directory α} : (∀ entry ∈ entries, IsName entry.1) →
      (entries.map Prod.fst).Nodup → (∀ entry ∈ entries, WellFormed entry.2) →
      WellFormed (.directory entries)

@[simp] theorem wellFormed_file (content : α) : (file content).WellFormed :=
  .file content

@[simp] theorem wellFormed_directory {entries : Directory α} :
    (directory entries).WellFormed ↔ (∀ entry ∈ entries, IsName entry.1) ∧
      (entries.map Prod.fst).Nodup ∧ ∀ entry ∈ entries, entry.2.WellFormed :=
  ⟨fun (.directory hnames hdistinct htrees) => ⟨hnames, hdistinct, htrees⟩,
    fun ⟨hnames, hdistinct, htrees⟩ => .directory hnames hdistinct htrees⟩

/-- What stands in a tree whose names differ is such a tree itself. -/
theorem WellFormed.at? {t u : FileTree α} {l : Location} (h : t.WellFormed)
    (hu : t.at? l = some u) : u.WellFormed :=
  of_at? (fun _ (.directory _ _ htrees) => htrees) h hu

/-- What leads to something are names. -/
theorem WellFormed.isName_of_at? {t u : FileTree α} {l : Location} (h : t.WellFormed)
    (hu : t.at? l = some u) : ∀ name ∈ l, IsName name := by
  induction l generalizing t with
  | nil => exact List.forall_mem_nil _
  | cons name below ih =>
    cases h with
    | file content => cases hu
    | directory hnames _ htrees =>
      rw [at?_cons, Option.bind_eq_some_iff] at hu
      obtain ⟨v, hv, hu⟩ := hu
      have hmem := mem_of_child? hv
      exact List.forall_mem_cons.mpr ⟨hnames _ hmem, ih (htrees _ hmem) hu⟩

theorem WellFormed.outline {t : FileTree α} (h : t.WellFormed) : t.outline.WellFormed := by
  induction h with
  | file content => exact .file ()
  | directory hnames hdistinct _ ih =>
    rw [FileTree.outline, outlines_eq_map]
    refine .directory (List.forall_mem_map.mpr hnames) ?_ (List.forall_mem_map.mpr ih)
    rwa [List.map_map]

private theorem child?_outlines (name : String) (entries : Directory α) :
    (outlines entries).child? name = (entries.child? name).map FileTree.outline := by
  induction entries with
  | nil => rfl
  | cons entry rest ih =>
    rw [outlines, Directory.child?, Directory.child?, ih]
    split <;> rfl

/-- An outline has the same locations. -/
theorem at?_outline (t : FileTree α) (l : Location) :
    t.outline.at? l = (t.at? l).map FileTree.outline := by
  induction l generalizing t with
  | nil => rw [at?_nil, at?_nil, Option.map_some]
  | cons name below ih =>
    cases t with
    | file content => rfl
    | directory entries =>
      rw [FileTree.outline, at?_cons, at?_cons, child?_outlines]
      cases Directory.child? name entries with
      | none => rfl
      | some u => exact ih u

end FileTree

namespace Files

variable {α : Type} {name : String}

/-- Directories that lead down to a file of a name. None of them is skipped. -/
structure Reaches (name : String) (t : FileTree α) (directories : Location) : Prop where
  file : ∃ content, t.at? (directories ++ [name]) = some (.file content)
  entered : ∀ s ∈ directories, s ∉ skippedDirectories

/-- An outline shows which directories lead to a file. -/
theorem reaches_outline {t : FileTree α} {l : Location} :
    Reaches name t.outline l ↔ Reaches name t l := by
  have hfile : (∃ content, t.outline.at? (l ++ [name]) = some (.file content)) ↔
      ∃ content, t.at? (l ++ [name]) = some (.file content) := by
    rw [FileTree.at?_outline]
    cases t.at? (l ++ [name]) with
    | none => simp
    | some u => cases u <;> simp [FileTree.outline]
  exact ⟨fun h => ⟨hfile.mp h.file, h.entered⟩, fun h => ⟨hfile.mpr h.file, h.entered⟩⟩

private theorem reaches_nil {entries : Directory α} :
    Reaches name (.directory entries) [] ↔ ∃ content, entries.child? name = some (.file content) := by
  have hat : (FileTree.directory entries).at? ([] ++ [name]) = entries.child? name := by
    rw [List.nil_append, FileTree.at?_cons]
    simp only [FileTree.at?_nil, Option.bind_fun_some]
  exact ⟨fun h => hat ▸ h.file, fun h => ⟨hat ▸ h, List.forall_mem_nil _⟩⟩

private theorem reaches_cons {entries : Directory α} {s : String} {l : Location} :
    Reaches name (.directory entries) (s :: l) ↔ s ∉ skippedDirectories ∧
      ∃ inner, entries.child? s = some (.directory inner) ∧ Reaches name (.directory inner) l := by
  constructor
  · rintro ⟨⟨content, hfile⟩, hentered⟩
    obtain ⟨hs, hl⟩ := List.forall_mem_cons.mp hentered
    rw [List.cons_append, FileTree.at?_cons, Option.bind_eq_some_iff] at hfile
    obtain ⟨t, ht, hfile⟩ := hfile
    cases t with
    | file other => cases l <;> cases hfile
    | directory inner => exact ⟨hs, inner, ht, ⟨content, hfile⟩, hl⟩
  · rintro ⟨hs, inner, ht, ⟨content, hfile⟩, hl⟩
    refine ⟨⟨content, ?_⟩, List.forall_mem_cons.mpr ⟨hs, hl⟩⟩
    rw [List.cons_append, FileTree.at?_cons, ht]
    exact hfile

/-- Where names differ, one of the entries leads to each file. -/
theorem reaches_iff_exists {entries : Directory α} (h : (entries.map Prod.fst).Nodup)
    {l : Location} : Reaches name (.directory entries) l ↔
      ∃ entry ∈ entries, Reaches name (.directory [entry]) l := by
  have hone : ∀ (entry : String × FileTree α) (s : String) (t : FileTree α),
      Directory.child? s [entry] = some t ↔ entry = (s, t) := by
    rintro ⟨other, u⟩ s t
    by_cases hs : other = s <;> simp [Directory.child?, hs]
  cases l with
  | nil =>
    simp only [reaches_nil, hone, Directory.child?_eq_some_iff h]
    constructor
    · rintro ⟨content, hmem⟩
      exact ⟨_, hmem, content, rfl⟩
    · rintro ⟨_, hmem, content, rfl⟩
      exact ⟨content, hmem⟩
  | cons s rest =>
    simp only [reaches_cons, hone, Directory.child?_eq_some_iff h]
    constructor
    · rintro ⟨hs, inner, hmem, hrest⟩
      exact ⟨_, hmem, hs, inner, rfl, hrest⟩
    · rintro ⟨_, hmem, hs, inner, rfl, hrest⟩
      exact ⟨hs, inner, hmem, hrest⟩

section Members

variable {q : Path}

private theorem mem_searchTree_of_entries {root : Path} {entries : Directory Unit}
    (hd : (entries.map Prod.fst).Nodup)
    (h : ∀ e ∈ entries, q ∈ documentsFrom name (root.join e.1) e.1 e.2 ↔
      ∃ l, Reaches name (.directory [e]) l ∧ q = root.under (l ++ [name])) :
    q ∈ searchTree name root entries ↔
      ∃ l, Reaches name (.directory entries) l ∧ q = root.under (l ++ [name]) := by
  rw [mem_searchTree]
  constructor
  · rintro ⟨e, he, hq⟩
    obtain ⟨l, hl, hq⟩ := (h e he).mp hq
    exact ⟨l, (reaches_iff_exists hd).mpr ⟨e, he, hl⟩, hq⟩
  · rintro ⟨l, hl, hq⟩
    obtain ⟨e, he, hl⟩ := (reaches_iff_exists hd).mp hl
    exact ⟨e, he, (h e he).mpr ⟨l, hl, hq⟩⟩

private theorem reaches_file {entry : String} {content : α} {l : Location} :
    Reaches name (.directory [(entry, .file content)]) l ↔ entry = name ∧ l = [] := by
  cases l with
  | nil => simp [reaches_nil, Directory.child?]
  | cons s rest =>
    rw [reaches_cons]
    by_cases hs : entry = s <;> simp [Directory.child?, hs]

private theorem reaches_directory {entry : String} {inner : Directory α} {l : Location} :
    Reaches name (.directory [(entry, .directory inner)]) l ↔
      entry ∉ skippedDirectories ∧ ∃ rest, l = entry :: rest ∧ Reaches name (.directory inner) rest := by
  cases l with
  | nil =>
    rw [reaches_nil]
    by_cases hs : entry = name <;> simp [Directory.child?, hs]
  | cons s rest =>
    rw [reaches_cons]
    by_cases hs : entry = s
    · simp [Directory.child?, hs]
    · simp [Directory.child?, hs, Ne.symm hs]

/-- What is found from an entry are the files that it leads to. -/
theorem mem_documentsFrom {t : FileTree Unit} (ht : t.WellFormed) {above : Path} {entry : String} :
    q ∈ documentsFrom name (above.join entry) entry t ↔
      ∃ l, Reaches name (.directory [(entry, t)]) l ∧ q = above.under (l ++ [name]) := by
  induction ht generalizing above entry with
  | file content =>
    simp only [reaches_file]
    rw [documentsFrom]
    split
    · rename_i hname
      simp [hname, Path.under]
    · rename_i hname
      simp [hname]
  | @directory inner _ hd _ ih =>
    simp only [reaches_directory]
    rw [documentsFrom_directory]
    split
    · rename_i hskipped
      simp [hskipped]
    · rename_i hentered
      rw [mem_searchTree_of_entries hd fun e he => ih e he]
      constructor
      · rintro ⟨l, hl, rfl⟩
        exact ⟨entry :: l, ⟨hentered, l, rfl, hl⟩, rfl⟩
      · rintro ⟨_, ⟨-, l, rfl, hl⟩, rfl⟩
        exact ⟨l, hl, rfl⟩

/-- A search finds the files of the name that are reached through no directory that is skipped. -/
theorem mem_searchTree_iff {root : Path} {entries : Directory Unit}
    (h : (FileTree.directory entries).WellFormed) : q ∈ searchTree name root entries ↔
      ∃ l, Reaches name (.directory entries) l ∧ q = root.under (l ++ [name]) := by
  cases h with
  | directory _ hd htrees =>
    exact mem_searchTree_of_entries hd fun e he => mem_documentsFrom (htrees e he)

end Members

section Order

private theorem isName_of_reaches {t : FileTree α} (ht : t.WellFormed) {l : Location}
    (h : Reaches name t l) : ∀ s ∈ l ++ [name], IsName s := by
  obtain ⟨content, hfile⟩ := h.file
  exact ht.isName_of_at? hfile

private theorem exists_of_mem_documentsFrom {above : Path} {e : String × FileTree Unit} {q : Path}
    (he : IsName e.1) (ht : e.2.WellFormed) (h : q ∈ documentsFrom name (above.join e.1) e.1 e.2) :
    ∃ l, q = above.under (e.1 :: l) ∧ ∀ s ∈ e.1 :: l, IsName s := by
  obtain ⟨entry, t⟩ := e
  obtain ⟨l, hl, rfl⟩ := (mem_documentsFrom ht).mp h
  have hwell : (FileTree.directory [(entry, t)]).WellFormed :=
    .directory (List.forall_mem_singleton.mpr he) (List.nodup_singleton _)
      (List.forall_mem_singleton.mpr ht)
  have hnames := isName_of_reaches hwell hl
  cases ht with
  | file content =>
    obtain ⟨rfl, rfl⟩ := reaches_file.mp hl
    exact ⟨[], rfl, hnames⟩
  | directory =>
    obtain ⟨-, rest, rfl, -⟩ := reaches_directory.mp hl
    exact ⟨rest ++ [name], rfl, hnames⟩

private theorem pairwise_sorted {found : List (String × List Path)}
    (h : (found.map Prod.fst).Nodup) :
    (found.mergeSort (fun a b => decide (a.1 ≤ b.1))).Pairwise fun a b => a.1 < b.1 := by
  have hle := @List.pairwise_mergeSort _ (fun a b : String × List Path => decide (a.1 ≤ b.1))
    (fun a b c hab hbc => decide_eq_true (String.le_trans (of_decide_eq_true hab)
      (of_decide_eq_true hbc)))
    (fun a b => by simpa using String.le_total a.1 b.1) found
  have hne : (found.mergeSort (fun a b => decide (a.1 ≤ b.1))).Pairwise fun a b => a.1 ≠ b.1 := by
    rw [← List.pairwise_map]
    exact ((List.mergeSort_perm found _).map Prod.fst).nodup_iff.mpr h
  exact (hle.and hne).imp fun ⟨hab, hne⟩ =>
    String.not_le.mp fun hba => hne (String.le_antisymm (of_decide_eq_true hab) hba)

private theorem pairwise_searchTree_of_entries {root : Path} {entries : Directory Unit}
    (hwell : (FileTree.directory entries).WellFormed)
    (h : ∀ e ∈ entries, (documentsFrom name (root.join e.1) e.1 e.2).Pairwise Path.Before) :
    (searchTree name root entries).Pairwise Path.Before := by
  cases hwell with
  | directory hnames hd htrees =>
    have hsorted := @pairwise_sorted (documentsBelow name root entries) <| by
      rwa [documentsBelow_eq_map, List.map_map]
    rw [searchTree, inNameOrder, List.pairwise_flatMap]
    have hfound : ∀ found ∈ (documentsBelow name root entries).mergeSort
        (fun a b => decide (a.1 ≤ b.1)), ∃ e ∈ entries,
          found = (e.1, documentsFrom name (root.join e.1) e.1 e.2) := fun found hmem => by
      rw [List.mem_mergeSort, documentsBelow_eq_map, List.mem_map] at hmem
      obtain ⟨e, he, rfl⟩ := hmem
      exact ⟨e, he, rfl⟩
    constructor
    · intro found hmem
      obtain ⟨e, he, rfl⟩ := hfound found hmem
      exact h e he
    · refine hsorted.imp_of_mem fun {a b} ha hb hlt x hx y hy => ?_
      obtain ⟨e, he, rfl⟩ := hfound a ha
      obtain ⟨f, hf, rfl⟩ := hfound b hb
      obtain ⟨l, rfl, hl⟩ := exists_of_mem_documentsFrom (hnames e he) (htrees e he) hx
      obtain ⟨m, rfl, hm⟩ := exists_of_mem_documentsFrom (hnames f hf) (htrees f hf) hy
      exact root.before_under hlt hl hm

private theorem pairwise_documentsFrom {t : FileTree Unit} (ht : t.WellFormed) (here : Path)
    (entry : String) : (documentsFrom name here entry t).Pairwise Path.Before := by
  induction ht generalizing here entry with
  | file content =>
    rw [documentsFrom]
    split
    · exact List.pairwise_singleton _ _
    · exact .nil
  | directory hnames hd htrees ih =>
    rw [documentsFrom_directory]
    split
    · exact .nil
    · exact pairwise_searchTree_of_entries (.directory hnames hd htrees) fun e he => ih e he _ _

/-- A search goes through the paths in their order, and to each of them once. -/
theorem pairwise_searchTree {root : Path} {entries : Directory Unit}
    (h : (FileTree.directory entries).WellFormed) :
    (searchTree name root entries).Pairwise Path.Before := by
  cases h with
  | directory hnames hd htrees =>
    exact pairwise_searchTree_of_entries (.directory hnames hd htrees) fun e he =>
      pairwise_documentsFrom (htrees e he) _ _

end Order

end Files

end PackageScript
