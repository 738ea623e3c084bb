import PackageScript.Proofs.Files.Document
/-! The documents that a command finds: what finding them leaves as it is, and where they are. -/
namespace PackageScript

open Job Files Disk

namespace FileTree

/-- Whether every name in a tree is a name. -/
inductive Named {α : Type} : FileTree α → Prop
  | file (content : α) : Named (.file content)
  | directory {entries : Directory α} : (∀ entry ∈ entries, IsName entry.1) →
      (∀ entry ∈ entries, Named entry.2) → Named (.directory entries)

variable {α : Type}

theorem mem_of_child? {name : String} {entries : Directory α} {t : FileTree α}
    (h : entries.child? name = some t) : (name, t) ∈ entries := by
  induction entries with
  | nil => cases h
  | cons entry rest ih =>
    rw [Directory.child?] at h
    split at h
    · rename_i hname
      cases h
      rw [← hname]
      exact List.mem_cons_self
    · exact List.mem_cons_of_mem entry (ih h)

theorem at?_cons (entries : Directory α) (name : String) (below : Location) :
    (directory entries).at? (name :: below) =
      (entries.child? name).bind fun t => t.at? below := by
  rw [FileTree.at?]
  cases Directory.child? name entries <;> rfl

/-- What the entries of a directory have from it, all below it have. -/
theorem of_at? {P : FileTree α → Prop}
    (hP : ∀ entries, P (directory entries) → ∀ entry ∈ entries, P entry.2) {t u : FileTree α}
    {l : Location} (h : P t) (hu : t.at? l = some u) : P u := by
  induction l generalizing t with
  | nil =>
    rw [at?_nil] at hu
    cases hu
    exact h
  | cons name below ih =>
    cases t with
    | file content => cases hu
    | directory entries =>
      rw [at?_cons, Option.bind_eq_some_iff] at hu
      obtain ⟨v, hv, hu⟩ := hu
      exact ih (hP entries h _ (mem_of_child? hv)) hu

private theorem Named.at? {t u : FileTree α} {l : Location} (h : t.Named) (hu : t.at? l = some u) :
    u.Named :=
  of_at? (fun _ (.directory _ htrees) => htrees) h hu

theorem outlines_eq_map (entries : Directory α) :
    outlines entries = entries.map fun entry => (entry.1, entry.2.outline) := by
  induction entries with
  | nil => rfl
  | cons entry rest ih => rw [outlines, ih, List.map_cons]

private theorem Named.outline {t : FileTree α} (h : t.Named) : t.outline.Named := by
  induction h with
  | file content => exact .file ()
  | directory hnames _ ih =>
    rw [FileTree.outline, outlines_eq_map]
    exact .directory (List.forall_mem_map.mpr hnames) (List.forall_mem_map.mpr ih)

end FileTree

namespace Command

def found (i : Invocation) (p : Preferences) (d : Disk) : Except Failure (List Path) :=
  ((findDocuments p.documentName (i.has .recursive) i.paths).run.run d).result

end Command

namespace Files

private def Sure {α : Type} (job : Job α) : Prop :=
  ∀ (faulty : Call → Prop) (d e : Disk) (a : α), job.Leaves faulty d (.ok a) e →
    job.Leaves (fun _ => False) d (.ok a) e

private theorem sure_pure {α : Type} (a : α) : Sure (pure a : Job α) :=
  fun _ _ _ _ h => leaves_pure.mpr (leaves_pure.mp h)

private theorem sure_throw {α : Type} (f : Failure) : Sure (throw f : Job α) :=
  fun _ _ _ _ h => nomatch (leaves_throw.mp h).1

private theorem sure_bind {α β : Type} {job : Job α} {f : α → Job β} (hjob : Sure job)
    (hf : ∀ a, Sure (f a)) : Sure (job >>= f) := by
  intro faulty d e b h
  rcases leaves_bind.mp h with ⟨a, m, hfirst, hnext⟩ | ⟨_, ⟨⟩, -⟩
  exact leaves_bind.mpr (Or.inl ⟨a, m, hjob _ _ _ _ hfirst, hf a _ _ _ _ hnext⟩)

private theorem sure_look (q : Path) : Sure (ask (.look q)) := by
  intro faulty d e kind h
  obtain ⟨_, ⟨⟩, hreply⟩ := leaves_ask.mp h
  exact leaves_ask.mpr ⟨kind, rfl, replies_look.mpr (replies_look.mp hreply)⟩

private theorem sure_survey (context : String) (q : Path) :
    Sure (do expect context (← ask (.survey q))) := by
  intro faulty d e entries h
  rcases leaves_bind.mp h with ⟨reply, m, hask, hexpect⟩ | ⟨_, ⟨⟩, -⟩
  obtain ⟨_, ⟨⟩, hreply⟩ := leaves_ask.mp hask
  obtain ⟨hok, rfl⟩ := leaves_expect.mp hexpect
  refine leaves_bind.mpr (Or.inl ⟨reply, e, leaves_ask.mpr ⟨reply, rfl, ?_⟩,
    leaves_expect.mpr ⟨hok, rfl⟩⟩)
  cases hreply with
  | answered => exact .answered
  | failed _ hfail =>
    obtain ⟨f, rfl⟩ := hfail
    cases hok

private theorem sure_documentsAt (name : String) (recursive : Bool) (q : Path) :
    Sure (documentsAt name recursive q) := by
  refine sure_bind (sure_look q) fun kind => ?_
  match kind with
  | some .file => exact sure_pure _
  | some .directory =>
    cases recursive with
    | true =>
      have hsurvey := sure_bind (sure_survey ("Failed to search " ++ q.text) q) fun entries =>
        sure_pure (searchTree name q entries)
      rwa [bind_assoc] at hsurvey
    | false =>
      refine sure_bind (sure_look _) fun kind => ?_
      split
      · exact sure_pure _
      · exact sure_throw _
  | some .other => exact sure_throw _
  | none => exact sure_throw _

private theorem asks_documentsAt (name : String) (recursive : Bool) (q : Path) :
    (documentsAt name recursive q).Asks fun call => (∃ r, call = .look r) ∨ ∃ r, call = .survey r := by
  refine asks_bind (asks_ask (Or.inl ⟨q, rfl⟩)) fun kind => ?_
  match kind with
  | some .file => exact asks_pure _
  | some .directory =>
    cases recursive with
    | true =>
      exact asks_bind (asks_ask (Or.inr ⟨q, rfl⟩)) fun reply =>
        asks_bind (asks_expect reply) fun _ => asks_pure _
    | false =>
      refine asks_bind (asks_ask (Or.inl ⟨_, rfl⟩)) fun kind => ?_
      split
      · exact asks_pure _
      · exact asks_throw _
  | some .other => exact asks_throw _
  | none => exact asks_throw _

private theorem sure_mapM {α β : Type} {f : α → Job β} (hf : ∀ a, Sure (f a)) (as : List α) :
    Sure (as.mapM f) := by
  induction as with
  | nil => exact sure_pure []
  | cons a rest ih =>
    rw [List.mapM_cons]
    exact sure_bind (hf a) fun b => sure_bind ih fun bs => sure_pure (b :: bs)

private theorem asks_mapM {α β : Type} {P : Call → Prop} {f : α → Job β} (hf : ∀ a, (f a).Asks P)
    (as : List α) : (as.mapM f : Job (List β)).Asks P := by
  induction as with
  | nil => exact asks_pure []
  | cons a rest ih =>
    rw [List.mapM_cons]
    exact asks_bind (hf a) fun b => asks_bind ih fun bs => asks_pure (b :: bs)

/-- Finding documents changes nothing, and finds those that the disk holds or fails. -/
theorem leaves_findDocuments {faulty : Call → Prop} {i : Command.Invocation} {p : Preferences}
    {d e : Disk} {r : Except Failure (List Path)}
    (h : (findDocuments p.documentName (i.has .recursive) i.paths).Leaves faulty d r e) :
    e = d ∧ ∀ documents, r = .ok documents → Command.found i p d = .ok documents := by
  have hasks := asks_bind (asks_mapM (asks_documentsAt p.documentName (i.has .recursive)) i.paths)
    fun found => asks_pure (distinctAfter [] found.flatten)
  have hsure := sure_bind (sure_mapM (sure_documentsAt p.documentName (i.has .recursive)) i.paths)
    fun found => sure_pure (distinctAfter [] found.flatten)
  refine ⟨hasks.leaves (K := (· = d)) ?_ h rfl, ?_⟩
  · rintro call d' reply e' (⟨q, rfl⟩ | ⟨q, rfl⟩) rfl hreply
    · exact (replies_look.mp hreply).2
    · exact (replies_survey hreply).1
  · rintro documents rfl
    exact (Program.run_of_leaves (hsure _ _ _ _ h)).1

section Places

variable {d : Disk} {name : String}

/-- The files below a directory are listed entry by entry. -/
theorem documentsBelow_eq_map (here : Path) (entries : Directory Unit) :
    documentsBelow name here entries =
      entries.map fun e => (e.1, documentsFrom name (here.join e.1) e.1 e.2) := by
  induction entries with
  | nil => rfl
  | cons entry rest ih => rw [documentsBelow, ih, List.map_cons]

/-- What is found below a directory is found from one of its entries. -/
theorem mem_searchTree {root : Path} {entries : Directory Unit} {q : Path} :
    q ∈ searchTree name root entries ↔
      ∃ e ∈ entries, q ∈ documentsFrom name (root.join e.1) e.1 e.2 := by
  rw [searchTree, inNameOrder, documentsBelow_eq_map, List.mem_flatMap]
  simp only [List.mem_mergeSort, List.mem_map, exists_exists_and_eq_and]

/-- A directory is searched unless a search skips its name. -/
theorem documentsFrom_directory (here : Path) (entry : String) (inner : Directory Unit) :
    documentsFrom name here entry (.directory inner) =
      if entry ∈ skippedDirectories then [] else searchTree name here inner := by
  rw [documentsFrom, List.contains_eq_mem]
  simp only [decide_eq_true_eq]
  rfl

private theorem place_of_documentsFrom {above : Path} {entry : String} {t : FileTree Unit}
    (hentry : IsName entry) (ht : t.Named) {q : Path}
    (hq : q ∈ documentsFrom name (above.join entry) entry t) :
    d.place above <+: d.place (packageOf q) := by
  induction ht generalizing above entry with
  | file =>
    rw [documentsFrom] at hq
    split at hq
    · rw [List.mem_singleton.mp hq]
      exact ⟨[], by rw [List.append_nil, place_packageOf_join d above hentry]⟩
    · cases hq
  | directory hnames _ ih =>
    rw [documentsFrom_directory] at hq
    split at hq
    · cases hq
    obtain ⟨inner, hinner, hq⟩ := mem_searchTree.mp hq
    have hbelow := ih inner hinner (hnames inner hinner) hq
    rw [place_join d above hentry] at hbelow
    exact (List.prefix_append _ _).trans hbelow

/-- The packages of documents that are found below a directory are there or further below. -/
theorem place_of_searchTree {root : Path} {entries : Directory Unit}
    (h : (FileTree.directory entries).Named) {q : Path} (hq : q ∈ searchTree name root entries) :
    d.place root <+: d.place (packageOf q) := by
  cases h with
  | directory hnames htrees =>
    obtain ⟨inner, hinner, hq⟩ := mem_searchTree.mp hq
    exact place_of_documentsFrom (hnames inner hinner) (htrees inner hinner) hq

private theorem mem_distinctAfter {earlier paths : List Path} {q : Path}
    (h : q ∈ distinctAfter earlier paths) : q ∈ paths := by
  induction paths generalizing earlier with
  | nil => cases h
  | cons path rest ih =>
    rw [distinctAfter] at h
    split at h
    · exact List.mem_cons_of_mem path (ih h)
    · rcases List.mem_cons.mp h with rfl | h
      · exact List.mem_cons_self
      · exact List.mem_cons_of_mem path (ih h)

private theorem kind?_of_enters {root : Path} {l : Location} (h : d.Enters root l) :
    d.kind? root = none ∨ d.kind? root = some .directory := by
  obtain ⟨entries, hentries⟩ := hasDirectory_iff.mp h.directory
  rw [kind?, find?]
  cases hlocate : d.locate root with
  | error f => exact Or.inl rfl
  | ok m =>
    have hm : d.at? m = some (.directory entries) := by
      rw [place_of_locate hlocate, h.place_eq, hentries]
    dsimp only
    rw [hm]
    exact Or.inr rfl

private theorem survey_eq_ok {root : Path} {l : Location} {entries : Directory Unit}
    (henters : d.Enters root l) (h : d.survey root = .ok entries) :
    ∃ inner, d.at? l = some (.directory inner) ∧ entries = FileTree.outlines inner := by
  obtain ⟨inner, hinner⟩ := hasDirectory_iff.mp henters.directory
  obtain ⟨m, hlocate, h⟩ := bind_eq_ok.mp h
  rw [place_of_locate hlocate, henters.place_eq, hinner] at h
  cases h
  exact ⟨inner, hinner, rfl⟩

private theorem place_of_documentsAt {root : Path} {l : Location} {recursive : Bool}
    {paths : List Path} {e : Disk} (hd : (FileTree.directory d.top).Named) (hname : IsName name)
    (henters : d.Enters root l)
    (h : (documentsAt name recursive root).Leaves (fun _ => False) d (.ok paths) e) :
    ∀ q ∈ paths, l <+: d.place (packageOf q) := by
  obtain ⟨kind, m, hask, hnext⟩ | ⟨_, ⟨⟩, -⟩ := leaves_bind.mp h
  obtain ⟨_, ⟨⟩, hreply⟩ := leaves_ask.mp hask
  obtain ⟨hkind, rfl⟩ := replies_look.mp hreply
  rw [hkind] at hnext
  rcases kind?_of_enters henters with hkind | hkind <;> rw [hkind] at hnext
  · cases (leaves_throw.mp hnext).1
  cases recursive with
  | true =>
    obtain ⟨reply, m', hask, hexpect⟩ | ⟨_, ⟨⟩, -⟩ := leaves_bind.mp hnext
    obtain ⟨_, ⟨⟩, hreply⟩ := leaves_ask.mp hask
    obtain ⟨rfl, hsurvey⟩ := replies_survey hreply
    obtain ⟨entries, _, hexpect, hlast⟩ | ⟨_, ⟨⟩, -⟩ := leaves_bind.mp hexpect
    obtain ⟨hok, -⟩ := leaves_expect.mp hexpect
    cases (leaves_pure.mp hlast).1
    obtain rfl | ⟨f, rfl⟩ := hsurvey
    · cases hsurvey : m'.survey root with
      | error f =>
        rw [hsurvey] at hok
        cases hok
      | ok found =>
        rw [hsurvey] at hok
        cases hok
        obtain ⟨inner, hinner, rfl⟩ := survey_eq_ok henters hsurvey
        have hnamed : (FileTree.directory (FileTree.outlines inner)).Named :=
          (hd.at? hinner).outline
        intro q hq
        rw [← henters.place_eq]
        exact place_of_searchTree hnamed hq
    · cases hok
  | false =>
    obtain ⟨kind, _, hask, hlast⟩ | ⟨_, ⟨⟩, -⟩ := leaves_bind.mp hnext
    split at hlast
    · cases (leaves_pure.mp hlast).1
      have hplace := (place_packageOf_join _ root hname).trans henters.place_eq
      exact List.forall_mem_singleton.mpr ⟨[], by rw [List.append_nil, hplace]⟩
    · cases (leaves_throw.mp hlast).1

/-- The packages of the documents that are found for one directory are there or further below. -/
theorem place_of_found {i : Command.Invocation} {p : Preferences} {root : Path} {l : Location}
    {documents : List Path} (hd : (FileTree.directory d.top).Named) (hname : IsName p.documentName)
    (henters : d.Enters root l) (hpaths : i.paths = [root])
    (h : Command.found i p d = .ok documents) :
    ∀ q ∈ documents, l <+: d.place (packageOf q) := by
  obtain ⟨e, hleaves⟩ : ∃ e, (findDocuments p.documentName (i.has .recursive) [root]).Leaves
      (fun _ => False) d (.ok documents) e := by
    rw [← h, Command.found, hpaths]
    exact ⟨_, Program.leaves_run _ _ d⟩
  rw [findDocuments, List.mapM_cons, List.mapM_nil] at hleaves
  obtain ⟨lists, m, hlists, hlast⟩ | ⟨_, ⟨⟩, -⟩ := leaves_bind.mp hleaves
  obtain ⟨paths, m', hpaths, hnil⟩ | ⟨_, ⟨⟩, -⟩ := leaves_bind.mp hlists
  cases (leaves_pure.mp hlast).1
  rw [pure_bind] at hnil
  cases (leaves_pure.mp hnil).1
  intro q hq
  have hmem := mem_distinctAfter hq
  rw [List.flatten_singleton] at hmem
  exact place_of_documentsAt hd hname henters hpaths q hmem

end Places

end Files

end PackageScript
