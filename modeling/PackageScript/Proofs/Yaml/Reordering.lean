import Mathlib.Data.List.Forall2
import PackageScript.Proofs.Yaml.Keys
/-! Maps whose entries stand in another order: what is found under a name stays the same. -/
namespace PackageScript.Yaml.Tree

/-- Entries of one key whose values are the same, or related in the way that is allowed under the
name that is the key. -/
def SameEntry (part : String → Tree → Tree → Prop) (e f : Tree × Tree) : Prop :=
  e.1 = f.1 ∧ (e.2 = f.2 ∨ ∃ name, e.1 = .text name ∧ part name e.2 f.2)

/-- The entries in any order, with values that are related under their names. -/
def Rearranged (part : String → Tree → Tree → Prop) (es fs : Entries) : Prop :=
  ∃ middle, List.Forall₂ (SameEntry part) es middle ∧ middle.Perm fs

/-- The same tree, or a map that is rearranged, under the same tags. -/
inductive Reordered (part : String → Tree → Tree → Prop) : Tree → Tree → Prop
  | same (t : Tree) : Reordered part t t
  | map {es fs : Entries} : Rearranged part es fs → Reordered part (.map es) (.map fs)
  | tagged {tag : String} {t u : Tree} :
      Reordered part t u → Reordered part (.tagged tag t) (.tagged tag u)

/-- A tree whose own entries may stand in another order, and no others. -/
def Shuffled : Tree → Tree → Prop :=
  Reordered fun _ _ _ => False

/-- What may be found under a name in place of a tree. -/
def Alike (part : String → Tree → Tree → Prop) (name : String) (t u : Tree) : Prop :=
  t = u ∨ part name t u

theorem rel_cases {α β : Type} {R : α → β → Prop} {a : Option α} {b : Option β}
    (h : Option.Rel R a b) :
    (a = none ∧ b = none) ∨ ∃ x y, a = some x ∧ b = some y ∧ R x y := by
  cases h with
  | none => exact Or.inl ⟨rfl, rfl⟩
  | some hxy => exact Or.inr ⟨_, _, rfl, rfl, hxy⟩

section Rearranged

variable {part : String → Tree → Tree → Prop} {es fs : Entries} {name : String}

/-- Entries in another order are rearranged. -/
theorem rearranged_of_perm (h : es.Perm fs) : Rearranged part es fs :=
  ⟨es, List.forall₂_same.mpr fun _ _ => ⟨rfl, Or.inl rfl⟩, h⟩

theorem perm_of_rearranged (h : Rearranged (fun _ _ _ => False) es fs) : es.Perm fs := by
  obtain ⟨middle, hsame, hperm⟩ := h
  have heq : es = middle := List.forall₂_eq_eq_eq ▸ hsame.imp fun e f hef => by
    rcases hef with ⟨hkey, hvalue | ⟨_, _, hfalse⟩⟩
    · exact Prod.ext hkey hvalue
    · exact hfalse.elim
  rwa [heq]

private theorem names_of_sameEntry (h : List.Forall₂ (SameEntry part) es fs) :
    names es = names fs := by
  induction h with
  | nil => rfl
  | cons hef _ ih => rw [names_cons, names_cons, hef.1, ih]

private theorem perm_names (h : Rearranged part es fs) : (names es).Perm (names fs) := by
  obtain ⟨middle, hsame, hperm⟩ := h
  rw [names_of_sameEntry hsame]
  exact hperm.filterMap _

/-- What holds of an entry whenever it holds of a related one holds of all entries in any order. -/
theorem forall_mem_rearranged {P : Tree × Tree → Prop}
    (hP : ∀ e f, SameEntry part e f → (P e ↔ P f)) (h : Rearranged part es fs) :
    (∀ e ∈ es, P e) ↔ ∀ f ∈ fs, P f := by
  obtain ⟨middle, hsame, hperm⟩ := h
  have hmiddle : (∀ e ∈ es, P e) ↔ ∀ f ∈ middle, P f := by
    clear hperm
    induction hsame with
    | nil => simp
    | cons hef _ ih => rw [List.forall_mem_cons, List.forall_mem_cons, ih, hP _ _ hef]
  exact hmiddle.trans ⟨fun h f hf => h f (hperm.mem_iff.mpr hf),
    fun h f hf => h f (hperm.mem_iff.mp hf)⟩

/-- Keys that are told apart by their names, and that show them. -/
structure WellKeyed (es : Entries) : Prop where
  names : (names es).Nodup
  untagged : UntaggedKeys es

/-- Different keys without tags are told apart by their names. -/
theorem wellKeyed_of_distinct {es : Entries} (hd : DistinctKeys es) (hu : UntaggedKeys es) :
    WellKeyed es :=
  ⟨nodup_names hd hu, hu⟩

private theorem untaggedKeys_rearranged (h : Rearranged part es fs) :
    UntaggedKeys es ↔ UntaggedKeys fs :=
  forall_mem_rearranged (fun e f hef => by rw [hef.1]) h

/-- Rearranged entries are still told apart by their names. -/
theorem wellKeyed_rearranged (h : Rearranged part es fs) (hes : WellKeyed es) : WellKeyed fs :=
  ⟨(perm_names h).nodup_iff.mp hes.names, (untaggedKeys_rearranged h).mp hes.untagged⟩

/-- With different names, what is found under a name is its entry. -/
theorem lookup?_eq_some_iff (hn : (names es).Nodup) {t : Tree} :
    lookup? name es = some t ↔ (.text name, t) ∈ es := by
  refine ⟨mem_of_lookup?, fun h => ?_⟩
  induction es with
  | nil => cases h
  | cons e rest ih =>
    rw [names_cons, List.nodup_append] at hn
    rcases List.mem_cons.mp h with rfl | hmem
    · exact lookup?_cons_self t rest
    · have hne : e.1 ≠ .text name := by
        intro hkey
        have hlater : name ∈ names rest := List.mem_filterMap.mpr ⟨_, hmem, rfl⟩
        exact hn.2.2 name (by simp [hkey]) name hlater rfl
      rw [lookup?_cons_of_ne hne, ih hn.2.1 hmem]

private theorem lookup?_of_perm (hn : (names es).Nodup) (h : es.Perm fs) :
    lookup? name es = lookup? name fs := by
  have hn' : (names fs).Nodup := (h.filterMap _).nodup_iff.mp hn
  refine Option.ext fun t => ?_
  rw [lookup?_eq_some_iff hn, lookup?_eq_some_iff hn', h.mem_iff]

private theorem lookup?_of_sameEntry (h : List.Forall₂ (SameEntry part) es fs) :
    Option.Rel (Alike part name) (lookup? name es) (lookup? name fs) := by
  induction h with
  | nil => exact .none
  | @cons e f es fs hef _ ih =>
    obtain ⟨key, t⟩ := e
    obtain ⟨key', u⟩ := f
    obtain ⟨rfl, hvalue⟩ := hef
    by_cases hkey : key = .text name
    · subst hkey
      rw [lookup?_cons_self, lookup?_cons_self]
      refine .some (hvalue.imp_right ?_)
      rintro ⟨other, hother, hpart⟩
      cases hother
      exact hpart
    · rwa [lookup?_cons_of_ne hkey, lookup?_cons_of_ne hkey]

/-- What is found under a name does not depend on the order of the entries. -/
theorem lookup?_rearranged (name : String) (hn : (names es).Nodup) (h : Rearranged part es fs) :
    Option.Rel (Alike part name) (lookup? name es) (lookup? name fs) := by
  obtain ⟨middle, hsame, hperm⟩ := h
  rw [names_of_sameEntry hsame] at hn
  rw [← lookup?_of_perm hn hperm]
  exact lookup?_of_sameEntry hsame

end Rearranged

/-- Trees that are reordered have rearranged entries, or none. -/
theorem rel_entries? {part : String → Tree → Tree → Prop} {t u : Tree} (h : Reordered part t u) :
    Option.Rel (Rearranged part) t.entries? u.entries? := by
  induction h with
  | same t =>
    cases t.entries? with
    | none => exact .none
    | some es => exact .some (rearranged_of_perm (List.Perm.refl es))
  | map h => exact .some h
  | tagged _ ih => exact ih

end PackageScript.Yaml.Tree
