import PackageScript.Proofs.Text.Edges
import PackageScript.Dependency
/-! Classified dependencies: their order and kinds, and their return from the lists that they are
written to. -/
namespace PackageScript

/-- The place of a visibility among the blocks of a classified list. -/
def Visibility.rank (v : Visibility) : Nat :=
  if v.isPublic then 0 else if v.isPrivate then 1 else 2

def Visibility.isDeclared (v : Visibility) : Bool :=
  v.isPublic || v.isPrivate

namespace Visibility

private theorem isDeclared_iff_rank {v : Visibility} : v.isDeclared = true ↔ v.rank ≤ 1 := by
  obtain ⟨isPublic, isPrivate, isRuntime⟩ := v
  cases isPublic <;> cases isPrivate <;> simp [isDeclared, rank]

private theorem isPublic_eq_rank (v : Visibility) :
    v.isPublic = (decide (v.rank ≤ 0) && v.isDeclared) := by
  obtain ⟨isPublic, isPrivate, isRuntime⟩ := v
  cases isPublic <;> cases isPrivate <;> rfl

private theorem isPrivate_eq_rank {v : Visibility} (h : v.isPublic = true → v.isPrivate = false) :
    v.isPrivate = (decide (0 < v.rank) && v.isDeclared) := by
  obtain ⟨isPublic, isPrivate, isRuntime⟩ := v
  cases isPublic with
  | true => exact h rfl
  | false => cases isPrivate <;> rfl

end Visibility

namespace Dependency
open Text

/-- A dependency whose entry reads back: a name without blanks, and a trimmed version. -/
structure Readable (d : Dependency) : Prop where
  name : ∀ c ∈ d.name.toList, isBlank c = false
  version : ∀ v ∈ d.version, v.toList ≠ [] ∧ Trimmed v.toList ∧ d.name.toList ≠ []

private theorem splitFirst?_spec (p : Char → Bool) (cs : List Char) :
    (splitFirst? p cs = none ∧ ∀ c ∈ cs, p c = false) ∨
      ∃ name c rest, cs = name ++ c :: rest ∧ p c = true ∧ (∀ x ∈ name, p x = false) ∧
        splitFirst? p cs = some (name, rest) := by
  cases h : cs.dropWhile (fun c => !p c) with
  | nil =>
    refine Or.inl ⟨by rw [splitFirst?, h], ?_⟩
    simpa [List.dropWhile_eq_nil_iff] using h
  | cons c rest =>
    refine Or.inr ⟨cs.takeWhile (fun c => !p c), c, rest, ?_, ?_, ?_, by rw [splitFirst?, h]⟩
    · rw [← h, List.takeWhile_append_dropWhile]
    · have := List.head?_dropWhile_not (fun c => !p c) cs
      simpa [h] using this
    · intro x hx
      simpa using List.mem_takeWhile_imp hx

private theorem splitFirst?_append {p : Char → Bool} {name rest : List Char} {c : Char}
    (h : ∀ x ∈ name, p x = false) (hc : p c = true) :
    splitFirst? p (name ++ c :: rest) = some (name, rest) := by
  have hname : ∀ x ∈ name, (!p x) = true := by simpa using h
  simp [splitFirst?, List.dropWhile_append_of_pos hname, List.takeWhile_append_of_pos hname, hc]

/-- Every entry is read as something that its own source says again. -/
theorem readable_parse (entry : String) (visibility : Visibility) :
    (parse entry visibility).Readable := by
  have htrim := trimmed_strip entry.toList
  simp only [parse]
  rcases splitFirst?_spec isBlank (strip entry.toList) with ⟨h, hnone⟩ |
    ⟨name, c, rest, hcs, hc, hname, h⟩
  · simp only [h]
    exact ⟨by simpa using hnone, by simp⟩
  · simp only [h]
    have hne : name ≠ [] := by
      rintro rfl
      have := htrim.1 c (by rw [hcs]; rfl)
      simp [hc] at this
    cases hrest : strip rest with
    | nil =>
      -- only blanks after the name would leave one at the end of the trimmed entry
      exfalso
      have hlast : ∃ x, (c :: rest).getLast? = some x ∧ isBlank x = true := by
        refine ⟨(c :: rest).getLast (by simp), List.getLast?_eq_some_getLast _, ?_⟩
        rcases List.mem_cons.mp (List.getLast_mem (List.cons_ne_nil c rest)) with hx | hx
        · rw [hx, hc]
        · exact strip_eq_nil_iff.mp hrest _ hx
      obtain ⟨x, hx, hblank⟩ := hlast
      have := htrim.2 x (by rw [hcs, List.getLast?_append_of_ne_nil _ (by simp), hx]; rfl)
      simp [hblank] at this
    | cons v version =>
      refine ⟨by simpa using hname, ?_⟩
      rintro _ ⟨⟩
      have hversion : Trimmed (v :: version) := hrest ▸ trimmed_strip rest
      simpa [hne] using hversion

theorem visibility_parse (entry : String) (visibility : Visibility) :
    (parse entry visibility).visibility = visibility := by
  simp only [parse]
  split
  · rfl
  · split <;> rfl

/-- The source of a dependency is read back with its name and version. -/
theorem parse_source {d : Dependency} (h : d.Readable) (visibility : Visibility) :
    parse d.source visibility = ⟨d.name, d.version, visibility⟩ := by
  obtain ⟨name, version, v⟩ := d
  cases version with
  | none =>
    have hstrip := strip_of_trimmed (trimmed_of_no_blank h.name)
    rcases splitFirst?_spec isBlank name.toList with ⟨hnone, -⟩ | ⟨_, c, _, hcs, hc, -, -⟩
    · simp [parse, source, hstrip, hnone]
    · exact absurd (h.name c (by simp [hcs])) (by simp [hc])
  | some version =>
    obtain ⟨hne, htrim, hname⟩ := h.version version rfl
    have hsource : (source ⟨name, some version, v⟩).toList =
        name.toList ++ ' ' :: version.toList := by simp [source]
    have htrimmed : Trimmed (name.toList ++ ' ' :: version.toList) := by
      constructor
      · intro c hc
        rw [List.head?_append_of_ne_nil _ hname] at hc
        exact h.name c (List.mem_of_mem_head? hc)
      · intro c hc
        rw [← List.singleton_append, ← List.append_assoc, List.getLast?_append_of_ne_nil _ hne] at hc
        exact htrim.2 c hc
    have hsplit : splitFirst? isBlank (name.toList ++ ' ' :: version.toList) =
        some (name.toList, version.toList) := splitFirst?_append h.name (by decide)
    simp only [parse, hsource, strip_of_trimmed htrimmed, hsplit, strip_of_trimmed htrim,
      String.ofList_toList]

/-- What a classified list of dependencies keeps to: public records come before private ones, and
these before those that are needed at runtime only; no record is public and private; and a record
that is needed at runtime is the first one of its name. -/
structure Classified (deps : List Dependency) : Prop where
  readable : ∀ d ∈ deps, d.Readable
  kinds : ∀ d ∈ deps, d.visibility.isPublic = true → d.visibility.isPrivate = false
  visible : ∀ d ∈ deps, d.visibility.isDeclared = true ∨ d.visibility.isRuntime = true
  blocks : deps.Pairwise fun d e => d.visibility.rank ≤ e.visibility.rank
  first : deps.Pairwise fun d e => e.visibility.isRuntime = true → d.name ≠ e.name

/-- A list in the order of its ranks is its front up to a rank, followed by the rest. -/
theorem filter_rank_append {deps : List Dependency}
    (h : deps.Pairwise fun d e => d.visibility.rank ≤ e.visibility.rank) (k : Nat) :
    deps.filter (·.visibility.rank ≤ k) ++ deps.filter (k < ·.visibility.rank) = deps := by
  induction deps with
  | nil => rfl
  | cons d rest ih =>
    obtain ⟨hfirst, hrest⟩ := List.pairwise_cons.mp h
    by_cases hd : d.visibility.rank ≤ k
    · have hlast : ¬k < d.visibility.rank := Nat.not_lt.mpr hd
      simpa [hd, hlast] using ih hrest
    · have hlast : k < d.visibility.rank := Nat.lt_of_not_le hd
      have hnone : rest.filter (·.visibility.rank ≤ k) = [] := by
        rw [List.filter_eq_nil_iff]
        intro e he
        simpa using hlast.trans_le (hfirst e he)
      have hall := ih hrest
      rw [hnone, List.nil_append] at hall
      simp [hd, hlast, hnone, hall]

/-- The record that a need at runtime leaves in place of one with its name. -/
def needed (e d : Dependency) : Dependency :=
  ⟨e.name, e.version.or d.version, e.visibility.union .atRuntime⟩

/-- A need at runtime goes to the first record of its name, or else to the end. -/
theorem needAtRuntime_cases (d : Dependency) (deps : List Dependency) :
    (∃ before e after, deps = before ++ e :: after ∧ (∀ f ∈ before, f.name ≠ d.name) ∧
        e.name = d.name ∧ needAtRuntime d deps = before ++ needed e d :: after) ∨
      (∀ f ∈ deps, f.name ≠ d.name) ∧ needAtRuntime d deps = deps ++ [d] := by
  induction deps with
  | nil => exact Or.inr ⟨by simp, rfl⟩
  | cons e rest ih =>
    by_cases h : e.name = d.name
    · exact Or.inl ⟨[], e, rest, rfl, by simp, h, by simp [needAtRuntime, h, needed]⟩
    · rcases ih with ⟨before, f, after, rfl, hbefore, hf, hresult⟩ | ⟨hnone, hresult⟩
      · refine Or.inl ⟨e :: before, f, after, rfl, ?_, hf, by simp [needAtRuntime, h, hresult]⟩
        simpa [h] using hbefore
      · exact Or.inr ⟨by simpa [h] using hnone, by simp [needAtRuntime, h, hresult]⟩

/-- A need passes the records of other names. -/
theorem needAtRuntime_append {d : Dependency} {before rest : List Dependency}
    (h : ∀ f ∈ before, f.name ≠ d.name) :
    needAtRuntime d (before ++ rest) = before ++ needAtRuntime d rest := by
  induction before with
  | nil => rfl
  | cons e more ih =>
    rw [List.cons_append, needAtRuntime, if_neg (h e List.mem_cons_self),
      ih fun f hf => h f (List.mem_cons_of_mem _ hf), List.cons_append]

private theorem readable_needed {e d : Dependency} (he : e.Readable) (hd : d.Readable)
    (h : e.name = d.name) : (needed e d).Readable := by
  refine ⟨he.name, fun v hv => ?_⟩
  rcases Option.or_eq_some_iff.mp hv with hv | ⟨-, hv⟩
  · exact he.version v hv
  · have := hd.version v hv
    rwa [← h] at this

private theorem rank_needed (e d : Dependency) :
    (needed e d).visibility.rank = e.visibility.rank := by
  simp [needed, Visibility.union, Visibility.rank, Visibility.atRuntime]

private theorem runtime_last {d : Dependency} (h : d.visibility = .atRuntime) :
    ∀ e : Dependency, e.visibility.rank ≤ d.visibility.rank := by
  intro e
  rw [h]
  simp only [Visibility.rank, Visibility.atRuntime]
  split
  · simp
  · split <;> simp

/-- One need at runtime keeps a list classified. -/
theorem classified_needAtRuntime {d : Dependency} {deps : List Dependency} (hd : d.Readable)
    (hv : d.visibility = .atRuntime) (h : Classified deps) :
    Classified (needAtRuntime d deps) := by
  rcases needAtRuntime_cases d deps with ⟨before, e, after, rfl, hbefore, he, hresult⟩ |
    ⟨hnone, hresult⟩
  · rw [hresult]
    obtain ⟨hread, hkinds, hvisible, hblocks, hfirst⟩ := h
    simp only [List.forall_mem_append, List.forall_mem_cons] at hread hkinds hvisible
    simp only [List.pairwise_append, List.pairwise_cons, List.forall_mem_cons] at hblocks hfirst
    constructor
    · simp only [List.forall_mem_append, List.forall_mem_cons]
      exact ⟨hread.1, readable_needed hread.2.1 hd he, hread.2.2⟩
    · simp only [List.forall_mem_append, List.forall_mem_cons]
      refine ⟨hkinds.1, ?_, hkinds.2.2⟩
      simpa [needed, Visibility.union, Visibility.atRuntime] using hkinds.2.1
    · simp only [List.forall_mem_append, List.forall_mem_cons]
      refine ⟨hvisible.1, Or.inr ?_, hvisible.2.2⟩
      simp [needed, Visibility.union, Visibility.atRuntime]
    · simpa only [List.pairwise_append, List.pairwise_cons, List.forall_mem_cons, rank_needed]
        using hblocks
    · simp only [List.pairwise_append, List.pairwise_cons, List.forall_mem_cons]
      refine ⟨hfirst.1, ⟨hfirst.2.1.1, hfirst.2.1.2⟩, fun f hf => ⟨fun _ => ?_, (hfirst.2.2 f hf).2⟩⟩
      have := hbefore f hf
      rwa [← he] at this
  · rw [hresult]
    obtain ⟨hread, hkinds, hvisible, hblocks, hfirst⟩ := h
    constructor
    · exact List.forall_mem_append.mpr ⟨hread, List.forall_mem_singleton.mpr hd⟩
    · exact List.forall_mem_append.mpr ⟨hkinds, List.forall_mem_singleton.mpr (by simp [hv,
        Visibility.atRuntime])⟩
    · exact List.forall_mem_append.mpr ⟨hvisible, List.forall_mem_singleton.mpr (by simp [hv,
        Visibility.atRuntime])⟩
    · exact List.pairwise_append.mpr ⟨hblocks, List.pairwise_singleton _ _, fun e _ f hf => by
        rw [List.mem_singleton.mp hf]
        exact runtime_last hv e⟩
    · exact List.pairwise_append.mpr ⟨hfirst, List.pairwise_singleton _ _, fun e he f hf _ => by
        rw [List.mem_singleton.mp hf]
        exact hnone e he⟩

private theorem classified_declared (publicly privately : List String) :
    Classified (publicly.map (parse · .atPublic) ++ privately.map (parse · .atPrivate)) := by
  have hpublic : ∀ d ∈ publicly.map (parse · .atPublic),
      d.Readable ∧ d.visibility = .atPublic := by
    intro d hd
    obtain ⟨entry, -, rfl⟩ := List.mem_map.mp hd
    exact ⟨readable_parse _ _, visibility_parse _ _⟩
  have hprivate : ∀ d ∈ privately.map (parse · .atPrivate),
      d.Readable ∧ d.visibility = .atPrivate := by
    intro d hd
    obtain ⟨entry, -, rfl⟩ := List.mem_map.mp hd
    exact ⟨readable_parse _ _, visibility_parse _ _⟩
  have hboth := List.forall_mem_append.mpr ⟨fun d hd => Or.inl (hpublic d hd),
    fun d hd => Or.inr (hprivate d hd)⟩
  have hruntime : ∀ d ∈ publicly.map (parse · .atPublic) ++ privately.map (parse · .atPrivate),
      d.visibility.isRuntime = false := by
    intro d hd
    rcases hboth d hd with ⟨-, h⟩ | ⟨-, h⟩ <;> simp [h, Visibility.atPublic, Visibility.atPrivate]
  constructor
  · exact fun d hd => (hboth d hd).elim And.left And.left
  · intro d hd
    rcases hboth d hd with ⟨-, h⟩ | ⟨-, h⟩ <;> simp [h, Visibility.atPublic, Visibility.atPrivate]
  · intro d hd
    rcases hboth d hd with ⟨-, h⟩ | ⟨-, h⟩ <;>
      simp [h, Visibility.isDeclared, Visibility.atPublic, Visibility.atPrivate]
  · refine List.pairwise_append.mpr ⟨?_, ?_, ?_⟩
    · exact List.pairwise_of_forall_mem_list fun d hd e he => by
        rw [(hpublic d hd).2, (hpublic e he).2]
    · exact List.pairwise_of_forall_mem_list fun d hd e he => by
        rw [(hprivate d hd).2, (hprivate e he).2]
    · intro d hd e he
      rw [(hpublic d hd).2, (hprivate e he).2]
      decide
  · exact List.pairwise_of_forall_mem_list fun d hd e he h => by
      rw [hruntime e he] at h
      cases h

/-- Classification keeps to its order and kinds, whatever is declared. -/
theorem classified_classify (publicly privately atRuntime : List String) :
    Classified (classify publicly privately atRuntime) := by
  rw [classify]
  generalize hdeclared : publicly.map (parse · .atPublic) ++ privately.map (parse · .atPrivate) =
    deps
  have h : Classified deps := hdeclared ▸ classified_declared publicly privately
  clear hdeclared
  induction atRuntime generalizing deps with
  | nil => exact h
  | cons entry rest ih =>
    exact ih _ (classified_needAtRuntime (readable_parse _ _) (visibility_parse _ _) h)

/-- A record as its declaration alone makes it. -/
def declared (d : Dependency) : Dependency :=
  ⟨d.name, d.version, { d.visibility with isRuntime := false }⟩

/-- The records that are declared public or private, before any need at runtime. -/
def declarations (deps : List Dependency) : List Dependency :=
  (deps.filter (·.visibility.isDeclared)).map declared

private theorem declarations_cons (d : Dependency) (rest : List Dependency) :
    declarations (d :: rest) =
      (if d.visibility.isDeclared then [declared d] else []) ++ declarations rest := by
  cases hd : d.visibility.isDeclared <;> simp [declarations, hd]

private theorem needed_declared {d : Dependency} (h : d.visibility.isRuntime = true) :
    needed (declared d) ⟨d.name, d.version, .atRuntime⟩ = d := by
  obtain ⟨name, version, isPublic, isPrivate, isRuntime⟩ := d
  simp only at h
  subst h
  simp [needed, declared, Visibility.union, Visibility.atRuntime]

private theorem declared_of_not_runtime {d : Dependency} (h : d.visibility.isRuntime = false) :
    declared d = d := by
  obtain ⟨name, version, isPublic, isPrivate, isRuntime⟩ := d
  simp only at h
  subst h
  rfl

private theorem eq_atRuntime {d : Dependency} (h : d.visibility.isRuntime = true)
    (hd : d.visibility.isDeclared = false) : d = ⟨d.name, d.version, .atRuntime⟩ := by
  obtain ⟨name, version, isPublic, isPrivate, isRuntime⟩ := d
  simp only [Visibility.isDeclared, Bool.or_eq_false_iff] at h hd
  rw [h, hd.1, hd.2]
  rfl

private theorem declarations_after_runtime {d : Dependency} {rest : List Dependency}
    (hblocks : ∀ e ∈ rest, d.visibility.rank ≤ e.visibility.rank)
    (hd : d.visibility.isDeclared = false) : declarations rest = [] := by
  rw [declarations, List.map_eq_nil_iff, List.filter_eq_nil_iff]
  intro e he hdeclared
  have hlow : d.visibility.rank ≤ 1 :=
    (hblocks e he).trans (Visibility.isDeclared_iff_rank.mp hdeclared)
  rw [Visibility.isDeclared_iff_rank.mpr hlow] at hd
  cases hd

private theorem needAtRuntime_declarations {d : Dependency} {rest : List Dependency}
    (hblocks : ∀ e ∈ rest, d.visibility.rank ≤ e.visibility.rank)
    (hr : d.visibility.isRuntime = true) :
    needAtRuntime ⟨d.name, d.version, .atRuntime⟩ (declarations (d :: rest)) =
      d :: declarations rest := by
  rw [declarations_cons]
  cases hd : d.visibility.isDeclared with
  | true =>
    have hmerged : needAtRuntime ⟨d.name, d.version, .atRuntime⟩
        (declared d :: declarations rest) = needed (declared d) _ :: declarations rest := if_pos rfl
    rw [if_pos rfl, List.singleton_append, hmerged, needed_declared hr]
  | false =>
    rw [declarations_after_runtime hblocks hd]
    exact congrArg (fun e => [e]) (eq_atRuntime hr hd).symm

private theorem needAtRuntime_source {before rest : List Dependency} {d : Dependency}
    (h : Classified (before ++ d :: rest)) (hr : d.visibility.isRuntime = true) :
    needAtRuntime (parse d.source .atRuntime) (before ++ declarations (d :: rest)) =
      before ++ d :: declarations rest := by
  have hblocks := (List.pairwise_cons.mp (List.pairwise_append.mp h.blocks).2.1).1
  -- The need passes the records before this one, which have other names.
  have hfirst : ∀ e ∈ before, e.name ≠ d.name := fun e he =>
    (List.pairwise_append.mp h.first).2.2 e he d List.mem_cons_self hr
  rw [parse_source (h.readable d (by simp))]
  calc
    needAtRuntime ⟨d.name, d.version, .atRuntime⟩ (before ++ declarations (d :: rest))
      = before ++ needAtRuntime ⟨d.name, d.version, .atRuntime⟩ (declarations (d :: rest)) :=
        needAtRuntime_append hfirst
    _ = before ++ d :: declarations rest := by rw [needAtRuntime_declarations hblocks hr]

private theorem need_again (before after : List Dependency) (h : Classified (before ++ after)) :
    ((after.filter (·.visibility.isRuntime)).map source).foldl
        (fun deps entry => needAtRuntime (parse entry .atRuntime) deps)
        (before ++ declarations after) =
      before ++ after := by
  -- The records before are complete already, and only the declarations of the others are listed.
  induction after generalizing before with
  | nil => simp [declarations]
  | cons d rest ih =>
    have hrest := ih (before ++ [d]) (by simpa using h)
    simp only [List.append_assoc, List.singleton_append] at hrest
    cases hr : d.visibility.isRuntime with
    | true =>
      rw [List.filter_cons, if_pos hr, List.map_cons, List.foldl_cons, needAtRuntime_source h hr,
        hrest]
    | false =>
      have hvisible := h.visible d (by simp)
      have hd : d.visibility.isDeclared = true := by simpa [hr] using hvisible
      rw [List.filter_cons, if_neg (by simp [hr]), declarations_cons, if_pos hd,
        declared_of_not_runtime hr, List.singleton_append, hrest]

private theorem map_parse_source {deps : List Dependency} (h : Classified deps)
    (visible : Visibility → Bool) {visibility : Visibility}
    (hv : ∀ d ∈ deps, visible d.visibility = true → (declared d).visibility = visibility) :
    ((deps.filter fun d => visible d.visibility).map source).map (parse · visibility) =
      (deps.filter fun d => visible d.visibility).map declared := by
  rw [List.map_map]
  refine List.map_congr_left fun d hd => ?_
  obtain ⟨hmem, hvisible⟩ := List.mem_filter.mp hd
  rw [Function.comp_apply, parse_source (h.readable d hmem), ← hv d hmem hvisible]
  rfl

private theorem filter_public_append_private {deps : List Dependency} (h : Classified deps) :
    deps.filter (·.visibility.isPublic) ++ deps.filter (·.visibility.isPrivate) =
      deps.filter (·.visibility.isDeclared) := by
  have hpublic : ∀ d ∈ deps, d.visibility.isPublic =
      (decide (d.visibility.rank ≤ 0) && d.visibility.isDeclared) :=
    fun d _ => d.visibility.isPublic_eq_rank
  have hprivate : ∀ d ∈ deps, d.visibility.isPrivate =
      (decide (0 < d.visibility.rank) && d.visibility.isDeclared) :=
    fun d hd => Visibility.isPrivate_eq_rank (h.kinds d hd)
  rw [List.filter_congr hpublic, List.filter_congr hprivate, ← List.filter_filter,
    ← List.filter_filter]
  exact filter_rank_append (h.blocks.filter _) 0

private theorem declarations_eq {deps : List Dependency} (h : Classified deps) :
    ((deps.filter (·.visibility.isPublic)).map source).map (parse · .atPublic) ++
        ((deps.filter (·.visibility.isPrivate)).map source).map (parse · .atPrivate) =
      declarations deps := by
  have hpublic : ∀ d ∈ deps, d.visibility.isPublic = true →
      (declared d).visibility = .atPublic := by
    intro d hd hp
    simp [declared, hp, h.kinds d hd hp, Visibility.atPublic]
  have hprivate : ∀ d ∈ deps, d.visibility.isPrivate = true →
      (declared d).visibility = .atPrivate := by
    intro d hd hq
    have hp : d.visibility.isPublic = false := by
      by_contra hp
      rw [h.kinds d hd (by simpa using hp)] at hq
      cases hq
    simp [declared, hp, hq, Visibility.atPrivate]
  rw [map_parse_source h (·.isPublic) hpublic, map_parse_source h (·.isPrivate) hprivate,
    ← List.map_append, filter_public_append_private h, declarations]

/-- A classified list comes back from the sources of its public, private and runtime records. -/
theorem classify_sources {deps : List Dependency} (h : Classified deps) :
    classify ((deps.filter (·.visibility.isPublic)).map source)
        ((deps.filter (·.visibility.isPrivate)).map source)
        ((deps.filter (·.visibility.isRuntime)).map source) =
      deps := by
  rw [classify, declarations_eq h]
  exact need_again [] deps h

/-- The classified lists are exactly those that classification gives. -/
theorem classified_iff_exists {deps : List Dependency} :
    Classified deps ↔
      ∃ publicly privately atRuntime, classify publicly privately atRuntime = deps := by
  constructor
  · intro h
    exact ⟨_, _, _, classify_sources h⟩
  · rintro ⟨publicly, privately, atRuntime, rfl⟩
    exact classified_classify publicly privately atRuntime

/-- Whatever is declared, the entries of the public, private and runtime records that come of it
are classified as the same records again. A record with two of these visibilities has two entries,
which merge again, and not with a namesake. -/
theorem classify_again (publicly privately atRuntime : List String) :
    let deps := classify publicly privately atRuntime
    classify ((deps.filter (·.visibility.isPublic)).map source)
        ((deps.filter (·.visibility.isPrivate)).map source)
        ((deps.filter (·.visibility.isRuntime)).map source) =
      deps := by
  intro deps
  have h : Classified deps := classified_classify publicly privately atRuntime
  exact classify_sources h

-- The entries are not those that were declared: the first public one has a version now, and the
-- needs come in the order of the records.
example :
    let deps := classify ["A", "A 2"] ["A"] ["B", "A 1"]
    (deps.filter (·.visibility.isPublic)).map source = ["A 1", "A 2"] ∧
      (deps.filter (·.visibility.isRuntime)).map source = ["A 1", "B"] := by decide

end Dependency

end PackageScript
