import PackageScript.Proofs.Files.Discovery
/-! One document under several paths: components are compared as they are written, so that only
paths with the same start and without `..` are told apart by where they lead. -/
namespace PackageScript.Files
open Disk

variable {d : Disk} {name : String} {recursive : Bool}

private theorem at_place_of_kind? {q : Path} (h : d.kind? q = some .file) :
    ∃ content, d.at? (d.place q) = some (.file content) := by
  obtain ⟨t, ht, hkind⟩ := Option.map_eq_some_iff.mp h
  obtain ⟨l, hl, hat⟩ := find?_eq_some_iff.mp ht
  rw [place_of_locate hl] at hat
  cases t with
  | file content => exact ⟨content, hat⟩
  | directory entries => cases hkind

/-- What a path stands for are files, and they are called by names that lead on from it. -/
theorem StandsFor.under {p q : Path} {found : List Path}
    (hd : (FileTree.directory d.top).WellFormed) (hname : IsName name)
    (h : StandsFor d name recursive p found) (hq : q ∈ found) :
    (∃ content, d.at? (d.place q) = some (.file content)) ∧
      ∃ l, (∀ s ∈ l, IsName s) ∧ q = p.under l := by
  cases h with
  | file hfile =>
    obtain rfl := List.mem_singleton.mp hq
    exact ⟨at_place_of_kind? hfile, [], List.forall_mem_nil _, rfl⟩
  | document _ hfile =>
    obtain rfl := List.mem_singleton.mp hq
    exact ⟨at_place_of_kind? hfile, [name], List.forall_mem_singleton.mpr hname, rfl⟩
  | @search _ entries _ hfind hmem =>
    obtain ⟨l, hl, rfl⟩ := (hmem q).mp hq
    obtain ⟨m, hm, hat⟩ := find?_eq_some_iff.mp hfind
    rw [place_of_locate hm] at hat
    obtain ⟨content, hfile⟩ := hl.file
    have hnames : ∀ s ∈ l ++ [name], IsName s := (hd.at? hat).isName_of_at? hfile
    refine ⟨⟨content, ?_⟩, l ++ [name], hnames, rfl⟩
    rw [place_under d p hnames, Disk.at?, FileTree.at?_append]
    exact (congrArg (Option.bind · _) hat).trans hfile

section Found

variable {paths documents : List Path}

private theorem lists_of_tells (hd : (FileTree.directory d.top).WellFormed)
    (h : Tells d (findDocuments name recursive paths) (.ok documents)) :
    ∃ lists, List.Forall₂ (StandsFor d name recursive) paths lists ∧
      documents = lists.flatten.eraseDupsBy Path.same := by
  rcases tells_findDocuments hd name recursive paths with ⟨lists, hlists, htells⟩ | ⟨q, -, htells⟩
  · exact ⟨lists, hlists, Except.ok.inj (h.unique htells)⟩
  · cases h.unique htells

/-- Every document that is found is a file, and it is called by one of the arguments. -/
theorem under_of_found (hd : (FileTree.directory d.top).WellFormed) (hname : IsName name)
    (h : Tells d (findDocuments name recursive paths) (.ok documents)) {q : Path}
    (hq : q ∈ documents) : (∃ content, d.at? (d.place q) = some (.file content)) ∧
      ∃ p ∈ paths, ∃ l, (∀ s ∈ l, IsName s) ∧ q = p.under l := by
  obtain ⟨lists, hlists, rfl⟩ := lists_of_tells hd h
  obtain ⟨found, hfound, hq⟩ := List.mem_flatten.mp ((eraseDupsBy_sublist _ _).mem hq)
  obtain ⟨p, hp, hstands⟩ := exists_of_forall_standsFor hlists hfound
  obtain ⟨hfile, l, hl, hq⟩ := hstands.under hd hname hq
  exact ⟨hfile, p, hp, l, hl, hq⟩

/-- What is found starts as an argument does, and goes up only if that argument does. -/
theorem start_of_found (hd : (FileTree.directory d.top).WellFormed) (hname : IsName name)
    (h : Tells d (findDocuments name recursive paths) (.ok documents)) {q : Path}
    (hq : q ∈ documents) : ∃ p ∈ paths, q.lead = p.lead ∧
      (.parent ∉ p.components → .parent ∉ q.components) := by
  obtain ⟨-, p, hp, l, hl, rfl⟩ := under_of_found hd hname h hq
  refine ⟨p, hp, p.lead_under hl, fun hstraight hmem => ?_⟩
  rw [p.components_under hl, List.mem_append] at hmem
  rcases hmem with hmem | hmem
  · exact hstraight hmem
  · obtain ⟨_, -, heq⟩ := List.mem_map.mp hmem
    cases heq

private theorem nodup_components (hd : (FileTree.directory d.top).WellFormed)
    (h : Tells d (findDocuments name recursive paths) (.ok documents)) :
    (documents.map Path.components).Nodup := by
  obtain ⟨lists, -, rfl⟩ := lists_of_tells hd h
  rw [List.Nodup, List.pairwise_map]
  exact (pairwise_eraseDupsBy _ _).imp fun hsame heq => by simp [Path.same, heq] at hsame

end Found

section Straight

variable {p q : Path}

/-- Without `..`, paths with the same start lead to one place only if they have the same
components. -/
theorem components_of_place (hp : .parent ∉ p.components) (hq : .parent ∉ q.components)
    (hlead : p.lead = q.lead) (h : d.place p = d.place q) : p.components = q.components := by
  obtain ⟨l, hpl, hplace⟩ := exists_names d hp
  obtain ⟨m, hqm, hplace'⟩ := exists_names d hq
  have hstart : d.startOf p = d.startOf q := by rw [startOf, startOf, hlead]
  rw [hplace, hplace', hstart, List.append_cancel_left_eq] at h
  have hcomponents : p.leadComponents = q.leadComponents := by
    rw [Path.leadComponents, Path.leadComponents, hlead]
  rw [hpl, hqm, h, hcomponents]

/-- Without `..`, relative paths lead to one place only if at most a dot at the start tells them
apart. -/
theorem components_of_place_relative (hp : p.lead ≠ "/" ∧ .parent ∉ p.components)
    (hq : q.lead ≠ "/" ∧ .parent ∉ q.components) (h : d.place p = d.place q) :
    p.components = q.components ∨ p.components = .current :: q.components ∨
      q.components = .current :: p.components := by
  obtain ⟨l, hpl, hplace⟩ := exists_names d hp.2
  obtain ⟨m, hqm, hplace'⟩ := exists_names d hq.2
  have hstart : d.startOf p = d.startOf q := by
    rw [startOf, startOf, if_neg hp.1, if_neg hq.1]
  rw [hplace, hplace', hstart, List.append_cancel_left_eq] at h
  subst h
  rw [hpl, hqm]
  rcases p.lead_cases with ⟨hlead, -⟩ | ⟨-, hp'⟩ | ⟨-, hp'⟩
  · exact absurd hlead hp.1
  all_goals
    rcases q.lead_cases with ⟨hlead, -⟩ | ⟨-, hq'⟩ | ⟨-, hq'⟩
    · exact absurd hlead hq.1
    all_goals simp [hp', hq']

end Straight

/-- Every document that is found is a file, and no two of them are spelled alike. Where the
arguments are relative and without `..`, one is found twice exactly if it is spelled once with a dot
at its start and once without. Where they all start alike and are without `..`, none is. -/
theorem found_twice_iff {paths documents : List Path}
    (hd : (FileTree.directory d.top).WellFormed) (hname : IsName name)
    (h : Tells d (findDocuments name recursive paths) (.ok documents)) :
    (∀ q ∈ documents, ∃ content, d.at? (d.place q) = some (.file content)) ∧
    (documents.map Path.components).Nodup ∧
    ((∀ p ∈ paths, p.lead ≠ "/" ∧ .parent ∉ p.components) →
      ((documents.map d.place).Nodup ↔
        ∀ p ∈ documents, ∀ q ∈ documents, p.components ≠ .current :: q.components)) ∧
    ((∀ p ∈ paths, .parent ∉ p.components) → (∀ p ∈ paths, ∀ q ∈ paths, p.lead = q.lead) →
      (documents.map d.place).Nodup) := by
  have hdistinct := nodup_components hd h
  have hsame : ∀ p ∈ documents, ∀ q ∈ documents, p.components = q.components → p = q :=
    fun p hp q hq heq => List.inj_on_of_nodup_map hdistinct hp hq heq
  have hnodup := List.Nodup.of_map _ hdistinct
  refine ⟨fun q hq => (under_of_found hd hname h hq).1, hdistinct, fun hrelative => ?_,
    fun hstraight hleads => ?_⟩
  · have hfound : ∀ q ∈ documents, q.lead ≠ "/" ∧ .parent ∉ q.components := fun q hq => by
      obtain ⟨p, hp, hlead, hup⟩ := start_of_found hd hname h hq
      exact ⟨hlead ▸ (hrelative p hp).1, hup (hrelative p hp).2⟩
    constructor
    · intro hplaces p hp q hq hdot
      have hplace : d.place p = d.place q := by
        rw [place_eq_components, place_eq_components, hdot]
        rfl
      rw [List.inj_on_of_nodup_map hplaces hp hq hplace] at hdot
      exact absurd (congrArg List.length hdot) (by simp)
    · refine fun hdots => List.Nodup.map_on (fun p hp q hq hplace => ?_) hnodup
      rcases components_of_place_relative (hfound p hp) (hfound q hq) hplace with heq | hdot | hdot
      · exact hsame p hp q hq heq
      · exact absurd hdot (hdots p hp q hq)
      · exact absurd hdot (hdots q hq p hp)
  · refine List.Nodup.map_on (fun p hp q hq hplace => hsame p hp q hq ?_) hnodup
    obtain ⟨a, ha, hleada, hupa⟩ := start_of_found hd hname h hp
    obtain ⟨b, hb, hleadb, hupb⟩ := start_of_found hd hname h hq
    exact components_of_place (hupa (hstraight a ha)) (hupb (hstraight b hb))
      (hleada.trans ((hleads a ha b hb).trans hleadb.symm)) hplace

def twoPackages : Disk where
  top := [("lib", .directory [("hscript.yml", .file [])]),
    ("pkg", .directory [("hscript.yml", .file [])])]

/-- Doubled slashes and a dot inside of a path do not count. -/
theorem found_twice_iff_slashes :
    Tells twoPackages (findDocuments "hscript.yml" false [⟨"pkg//."⟩, ⟨"pkg/hscript.yml"⟩, ⟨"lib"⟩])
        (.ok [⟨"pkg//./hscript.yml"⟩, ⟨"lib/hscript.yml"⟩]) ∧
      ([⟨"pkg//./hscript.yml"⟩, ⟨"lib/hscript.yml"⟩].map twoPackages.place).Nodup := by
  have hwell : (FileTree.directory twoPackages.top).WellFormed := by
    simp [twoPackages]
    decide
  have htells : Tells twoPackages (findDocuments "hscript.yml" false
      [⟨"pkg//."⟩, ⟨"pkg/hscript.yml"⟩, ⟨"lib"⟩])
        (.ok [⟨"pkg//./hscript.yml"⟩, ⟨"lib/hscript.yml"⟩]) := rfl
  exact ⟨htells, (found_twice_iff hwell (by decide) htells).2.2.2 (by decide) (by decide)⟩

/-- With a dot at its start, the path of a document is not taken for the same one. -/
theorem document_found_twice :
    Tells twoPackages (findDocuments "hscript.yml" false [⟨"pkg"⟩, ⟨"./pkg"⟩])
        (.ok [⟨"pkg/hscript.yml"⟩, ⟨"./pkg/hscript.yml"⟩]) ∧
      twoPackages.place ⟨"pkg/hscript.yml"⟩ = twoPackages.place ⟨"./pkg/hscript.yml"⟩ :=
  ⟨rfl, by decide +kernel⟩

end PackageScript.Files
