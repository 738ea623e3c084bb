import Mathlib.Data.List.Nodup
import PackageScript.Yaml.Reading
/-! Keys of maps: what holds of every map in a tree, and that documents have no key twice. -/
namespace PackageScript.Yaml.Tree

/-- Whether a property holds of the entries of every map in a tree. -/
inductive EveryMap (p : Entries → Prop) : Tree → Prop
  | null : EveryMap p .null
  | bool (value : Bool) : EveryMap p (.bool value)
  | number (value : Number) : EveryMap p (.number value)
  | text (value : String) : EveryMap p (.text value)
  | list {items : List Tree} : (∀ t ∈ items, EveryMap p t) → EveryMap p (.list items)
  | map {entries : Entries} : p entries → (∀ e ∈ entries, EveryMap p e.1) →
      (∀ e ∈ entries, EveryMap p e.2) → EveryMap p (.map entries)
  | tagged {tag : String} {content : Tree} : EveryMap p content → EveryMap p (.tagged tag content)

/-- Whether no key of a map comes twice. -/
def DistinctKeys (entries : Entries) : Prop :=
  entries.Pairwise fun a b => a.1.same b.1 = false

/-- Whether no key of a map is a tagged value. -/
def UntaggedKeys (entries : Entries) : Prop :=
  ∀ e ∈ entries, ∀ tag content, e.1 ≠ .tagged tag content

section EveryMap

variable {p : Entries → Prop} {t : Tree} {entries : Entries}

private theorem everyMap_untagged (h : t.EveryMap p) : t.untagged.EveryMap p := by
  induction h with
  | null => exact .null
  | bool value => exact .bool value
  | number value => exact .number value
  | text value => exact .text value
  | list h => exact .list h
  | map hp hk hv => exact .map hp hk hv
  | tagged _ ih => exact ih

/-- What holds of every map holds of the entries under any tags, and in their values. -/
theorem everyMap_entries? (h : t.EveryMap p) (he : t.entries? = some entries) :
    p entries ∧ ∀ e ∈ entries, e.2.EveryMap p := by
  have hu := everyMap_untagged h
  rw [entries?] at he
  split at he
  · rename_i heq
    cases he
    rw [heq] at hu
    cases hu with
    | map hp _ hv => exact ⟨hp, hv⟩
  · cases he

@[simp] theorem everyMap_text (value : String) : (text value).EveryMap p :=
  .text value

@[simp] theorem everyMap_list {items : List Tree} :
    (list items).EveryMap p ↔ ∀ t ∈ items, t.EveryMap p := by
  refine ⟨fun h => ?_, .list⟩
  cases h with
  | list hitems => exact hitems

@[simp] theorem everyMap_map {entries : Entries} :
    (map entries).EveryMap p ↔ p entries ∧ ∀ e ∈ entries, e.1.EveryMap p ∧ e.2.EveryMap p := by
  refine ⟨fun h => ?_, fun h => .map h.1 (fun e he => (h.2 e he).1) fun e he => (h.2 e he).2⟩
  cases h with
  | map hp hk hv => exact ⟨hp, fun e he => ⟨hk e he, hv e he⟩⟩

end EveryMap

section Lookup

variable {entries : Entries} {name : String} {t : Tree}

theorem lookup?_cons_self (t : Tree) (rest : Entries) :
    lookup? name ((.text name, t) :: rest) = some t := by
  rw [lookup?, if_pos rfl]

theorem lookup?_cons_of_ne {e : Tree × Tree} (h : e.1 ≠ .text name) (rest : Entries) :
    lookup? name (e :: rest) = lookup? name rest := by
  obtain ⟨key, value⟩ := e
  rw [lookup?.eq_def]
  split
  · rename_i heq
    cases heq
  · rename_i other _ _ heq
    cases heq
    rw [if_neg fun hname => h (congrArg Tree.text hname)]
  · rename_i heq
    cases heq
    rfl

/-- An entry under another key does not matter, wherever it stands. -/
theorem lookup?_append_cons_of_ne {e : Tree × Tree} (h : e.1 ≠ .text name)
    (before after : Entries) :
    lookup? name (before ++ e :: after) = lookup? name (before ++ after) := by
  induction before with
  | nil => exact lookup?_cons_of_ne h after
  | cons f before ih =>
    obtain ⟨key, value⟩ := f
    by_cases hkey : key = .text name
    · subst hkey
      rw [List.cons_append, List.cons_append, lookup?_cons_self, lookup?_cons_self]
    · rw [List.cons_append, List.cons_append, lookup?_cons_of_ne hkey, lookup?_cons_of_ne hkey, ih]

theorem mem_of_lookup? (h : lookup? name entries = some t) : (.text name, t) ∈ entries := by
  induction entries with
  | nil => cases h
  | cons e rest ih =>
    obtain ⟨key, value⟩ := e
    by_cases hkey : key = .text name
    · subst hkey
      rw [lookup?_cons_self] at h
      cases h
      exact List.mem_cons_self
    · rw [lookup?_cons_of_ne hkey] at h
      exact List.mem_cons_of_mem _ (ih h)

/-- With different keys, each plain entry is found under its name. -/
theorem lookup?_of_mem_text (hd : DistinctKeys entries) (h : (.text name, t) ∈ entries) :
    lookup? name entries = some t := by
  induction entries with
  | nil => cases h
  | cons e rest ih =>
    obtain ⟨hfirst, hrest⟩ := List.pairwise_cons.mp hd
    rcases List.mem_cons.mp h with rfl | hmem
    · exact lookup?_cons_self t rest
    · have hdiffer := hfirst _ hmem
      have hne : e.1 ≠ .text name := by
        intro hkey
        rw [hkey] at hdiffer
        simp [same] at hdiffer
      rw [lookup?_cons_of_ne hne, ih hrest hmem]

end Lookup

/-- The names among the keys of a map, under any tags. -/
def names (entries : Entries) : List String :=
  entries.filterMap fun e => e.1.string?

theorem names_cons (e : Tree × Tree) (rest : Entries) :
    names (e :: rest) = e.1.string?.toList ++ names rest := by
  rw [names, List.filterMap_cons]
  cases e.1.string? <;> rfl

theorem eq_text_of_string? {key : Tree} {name : String}
    (hu : ∀ tag content, key ≠ .tagged tag content) (h : key.string? = some name) :
    key = .text name := by
  cases key with
  | text s =>
    cases h
    rfl
  | tagged tag content => exact absurd rfl (hu tag content)
  | _ => cases h

section Names

variable {entries : Entries} (hd : DistinctKeys entries) (hu : UntaggedKeys entries)
include hd hu

/-- Different keys without tags have different names. -/
theorem nodup_names : (names entries).Nodup := by
  induction entries with
  | nil => exact List.nodup_nil
  | cons e rest ih =>
    obtain ⟨hfirst, hrest⟩ := List.pairwise_cons.mp hd
    have hnames := ih hrest fun f hf => hu f (List.mem_cons_of_mem e hf)
    rw [names_cons]
    cases hs : e.1.string? with
    | none => exact hnames
    | some name =>
      refine List.nodup_cons.mpr ⟨fun hmem => ?_, hnames⟩
      obtain ⟨f, hf, hfs⟩ := List.mem_filterMap.mp hmem
      have hdiffer := hfirst f hf
      rw [eq_text_of_string? (hu e List.mem_cons_self) hs,
        eq_text_of_string? (hu f (List.mem_cons_of_mem e hf)) hfs] at hdiffer
      simp [same] at hdiffer

/-- A name that is a key of a map is looked up to its value. -/
theorem lookup?_of_mem {e : Tree × Tree} {name : String} (he : e ∈ entries)
    (hs : e.1.string? = some name) : lookup? name entries = some e.2 := by
  refine lookup?_of_mem_text hd ?_
  rwa [← eq_text_of_string? (hu e he) hs]

end Names

section Documents

variable {p : Entries → Prop}

private theorem everyMap_intTree? {n : Int} {t : Tree} (h : Scalar.intTree? n = some t) :
    t.EveryMap p := by
  rw [Scalar.intTree?] at h
  split at h
  · cases h
    exact .number _
  · cases h

private theorem everyMap_untaggedTree? {text : List Char} {isPlain : Bool} {t : Tree}
    (h : Tag.untaggedTree? text isPlain = some t) : t.EveryMap p := by
  cases isPlain with
  | false =>
    cases h
    exact .text _
  | true =>
    simp only [Tag.untaggedTree?, Scalar.plainTree?, if_true] at h
    split at h
    · cases h
      exact .null
    · cases h
      exact .bool _
    · exact everyMap_intTree? h
    · cases h
      exact .number _
    · cases h
      exact .text _

private theorem everyMap_scalarTree? {tag : Option Tag} {text : List Char} {isPlain : Bool}
    {t : Tree} (h : Tag.scalarTree? tag text isPlain = some t) : t.EveryMap p := by
  unfold Tag.scalarTree? at h
  split at h
  · exact everyMap_untaggedTree? h
  · obtain ⟨u, hu, rfl⟩ := Option.map_eq_some_iff.mp h
    exact .tagged (everyMap_untaggedTree? hu)
  · obtain ⟨b, -, rfl⟩ := Option.map_eq_some_iff.mp h
    exact .bool b
  · obtain ⟨n, -, hn⟩ := Option.bind_eq_some_iff.mp h
    exact everyMap_intTree? hn
  · obtain ⟨x, -, rfl⟩ := Option.map_eq_some_iff.mp h
    exact .number _
  · split at h
    · cases h
      exact .null
    · cases h
  · cases h
    exact .text _

private theorem everyMap_collectionTree {tag : Option Tag} {t : Tree} (h : t.EveryMap p) :
    (Tag.collectionTree tag t).EveryMap p := by
  unfold Tag.collectionTree
  split
  · exact .tagged h
  · exact h

private theorem distinctKeys_distinctEntries? {es rest entries : Entries}
    (h : Node.distinctEntries? es rest = some entries) (hes : DistinctKeys es) :
    entries = es ++ rest ∧ DistinctKeys entries := by
  induction rest generalizing es with
  | nil =>
    cases h
    exact ⟨(List.append_nil _).symm, hes⟩
  | cons e rest ih =>
    obtain ⟨key, value⟩ := e
    rw [Node.distinctEntries?] at h
    split at h
    · cases h
    · rename_i hnew
      have hmore : DistinctKeys (es ++ [(key, value)]) := by
        refine List.pairwise_append.mpr ⟨hes, List.pairwise_singleton _ _, fun f hf g hg => ?_⟩
        rw [List.mem_singleton.mp hg]
        simp only [List.any_eq_true, not_exists, not_and] at hnew
        simpa using hnew f hf
      obtain ⟨heq, hdistinct⟩ := ih h hmore
      exact ⟨by simpa using heq, hdistinct⟩

private theorem bind_eq_some {α β : Type} {x : StateT Nat Option α} {f : α → StateT Nat Option β}
    {n : Nat} {r : β × Nat} :
    (x >>= f) n = some r ↔ ∃ a m, x n = some (a, m) ∧ f a m = some r := by
  simp [bind, StateT.bind, Option.bind_eq_some_iff]

private theorem forall_of_mapM {α β : Type} {f : α → StateT Nat Option β} {P : β → Prop}
    {xs : List α} {ys : List β} {n n' : Nat} (hf : ∀ x ∈ xs, ∀ n y n', f x n = some (y, n') → P y)
    (h : xs.mapM f n = some (ys, n')) : ∀ y ∈ ys, P y := by
  induction xs generalizing ys n with
  | nil =>
    rw [List.mapM_nil] at h
    cases h
    simp
  | cons x rest ih =>
    rw [List.mapM_cons] at h
    obtain ⟨y, m, hy, h⟩ := bind_eq_some.mp h
    obtain ⟨more, m', hmore, h⟩ := bind_eq_some.mp h
    cases h
    exact List.forall_mem_cons.mpr ⟨hf x List.mem_cons_self _ _ _ hy,
      ih (fun z hz => hf z (List.mem_cons_of_mem x hz)) hmore⟩

private theorem lift_eq_some {α : Type} {x : Option α} {n : Nat} {r : α × Nat}
    (h : (StateT.lift x : StateT Nat Option α) n = some r) : x = some r.1 := by
  cases x with
  | none => cases h
  | some a =>
    cases h
    rfl

private theorem everyMap_expand (slots : Node.Slots) (depth : Nat) (node : Node.Numbered)
    (n n' : Nat) (t : Tree) (h : Node.expand slots depth node n = some (t, n')) :
    t.EveryMap DistinctKeys := by
  induction depth generalizing node n n' t with
  | zero =>
    unfold Node.expand at h
    obtain ⟨node, m, -, h⟩ := bind_eq_some.mp h
    cases node with
    | scalar tag text isPlain => exact everyMap_scalarTree? (lift_eq_some h)
    | _ => cases h
  | succ depth ih =>
    unfold Node.expand at h
    obtain ⟨node, m, -, h⟩ := bind_eq_some.mp h
    cases node with
    | scalar tag text isPlain => exact everyMap_scalarTree? (lift_eq_some h)
    | list tag items =>
      obtain ⟨trees, m', htrees, h⟩ := bind_eq_some.mp h
      cases h
      refine everyMap_collectionTree (.list (forall_of_mapM (fun u _ k t k' hu => ?_) htrees))
      exact ih u k k' t hu
    | map tag entries =>
      obtain ⟨es, m', hes, h⟩ := bind_eq_some.mp h
      obtain ⟨entries', m'', hentries, h⟩ := bind_eq_some.mp h
      cases h
      obtain ⟨heq, hdistinct⟩ :=
        distinctKeys_distinctEntries? (lift_eq_some hentries) List.Pairwise.nil
      have hsame : entries' = es := heq
      rw [hsame] at hdistinct ⊢
      have hparts : ∀ e ∈ es, e.1.EveryMap DistinctKeys ∧ e.2.EveryMap DistinctKeys := by
        refine forall_of_mapM (fun u _ k e k' hu => ?_) hes
        obtain ⟨key, k₁, hkey, hu⟩ := bind_eq_some.mp hu
        obtain ⟨value, k₂, hvalue, hu⟩ := bind_eq_some.mp hu
        cases hu
        exact ⟨ih _ _ _ _ hkey, ih _ _ _ _ hvalue⟩
      exact everyMap_collectionTree
        (.map hdistinct (fun e he => (hparts e he).1) fun e he => (hparts e he).2)
    | _ => cases h

/-- No map of a document has a key twice. -/
theorem distinctKeys_read {text origin : String} {t : Tree}
    (h : (read text origin).outcome = .ok t) : t.EveryMap DistinctKeys := by
  have hempty : (map []).EveryMap DistinctKeys := .map List.Pairwise.nil (by simp) (by simp)
  rw [read] at h
  split at h
  · cases h
    exact hempty
  · split at h
    · cases h
      exact hempty
    · rename_i t _ htext
      cases h
      obtain ⟨tokens, -, htext⟩ := Option.bind_eq_some_iff.mp htext
      obtain ⟨node, -, htext⟩ := Option.bind_eq_some_iff.mp htext
      obtain ⟨⟨numbered, slots, names⟩, -, htext⟩ := Option.bind_eq_some_iff.mp htext
      obtain ⟨⟨tree, left⟩, htree, htext⟩ := Option.bind_eq_some_iff.mp htext
      cases htext
      exact everyMap_expand slots _ _ _ _ _ htree
    · cases h

end Documents

end PackageScript.Yaml.Tree
