import Mathlib.Data.List.Nodup
import PackageScript.Normal
/-! Maps as they are written: entries under fresh keys, parts that may be left out, and lists of
named things of which the last one of a name counts. -/
namespace PackageScript

/-- The list with an element in place of the first one that has its key, or else at the end. -/
def replaceBy {α : Type} (key : α → String) (a : α) : List α → List α
  | [] => [a]
  | b :: rest => if key b = key a then a :: rest else b :: replaceBy key a rest

/-- The last element of each key, where the first one stood. -/
def lastBy {α : Type} (key : α → String) (xs : List α) : List α :=
  xs.foldl (fun kept a => replaceBy key a kept) []

section LastBy

variable {α β : Type} {key : α → String}

private theorem keys_replaceBy (a : α) (kept : List α) :
    (replaceBy key a kept).map key =
      if key a ∈ kept.map key then kept.map key else kept.map key ++ [key a] := by
  induction kept with
  | nil => rfl
  | cons b rest ih =>
    by_cases h : key b = key a
    · simp [replaceBy, h]
    · have ha : ¬ key a = key b := fun ha => h ha.symm
      rw [replaceBy, if_neg h, List.map_cons, List.map_cons, ih]
      by_cases hm : key a ∈ rest.map key
      · simp [hm]
      · simp [hm, ha]

private theorem mem_replaceBy {a b : α} {kept : List α} (h : b ∈ replaceBy key a kept) :
    b = a ∨ b ∈ kept := by
  induction kept with
  | nil => exact Or.inl (List.mem_singleton.mp h)
  | cons c rest ih =>
    rw [replaceBy] at h
    split at h
    · exact (List.mem_cons.mp h).imp_right (List.mem_cons_of_mem c)
    · rcases List.mem_cons.mp h with rfl | h
      · exact Or.inr List.mem_cons_self
      · exact (ih h).imp_right (List.mem_cons_of_mem c)

private theorem replaceBy_of_notMem {a : α} {kept : List α} (h : key a ∉ kept.map key) :
    replaceBy key a kept = kept ++ [a] := by
  induction kept with
  | nil => rfl
  | cons b rest ih =>
    simp only [List.map_cons, List.mem_cons, not_or] at h
    rw [replaceBy, if_neg (Ne.symm h.1), ih h.2, List.cons_append]

private theorem replaceBy_append {a : α} {front rest : List α} (h : key a ∉ front.map key) :
    replaceBy key a (front ++ rest) = front ++ replaceBy key a rest := by
  induction front with
  | nil => rfl
  | cons b more ih =>
    simp only [List.map_cons, List.mem_cons, not_or] at h
    rw [List.cons_append, replaceBy, if_neg (Ne.symm h.1), ih h.2, List.cons_append]

private theorem foldl_nodup (xs kept : List α) (h : (kept.map key).Nodup) :
    ((xs.foldl (fun kept a => replaceBy key a kept) kept).map key).Nodup := by
  induction xs generalizing kept with
  | nil => exact h
  | cons a rest ih =>
    refine ih _ ?_
    rw [keys_replaceBy]
    split
    · exact h
    · rename_i hnew
      exact List.nodup_append.mpr ⟨h, List.nodup_singleton _, fun k hk l hl hkl =>
        hnew (by rwa [← List.mem_singleton.mp hl, ← hkl])⟩

/-- No two kept elements have one key. -/
theorem nodup_lastBy (xs : List α) : ((lastBy key xs).map key).Nodup :=
  foldl_nodup xs [] List.nodup_nil

private theorem mem_foldl {xs kept : List α} {a : α}
    (h : a ∈ xs.foldl (fun kept a => replaceBy key a kept) kept) : a ∈ kept ∨ a ∈ xs := by
  induction xs generalizing kept with
  | nil => exact Or.inl h
  | cons b rest ih =>
    rcases ih h with h | h
    · rcases mem_replaceBy h with rfl | h
      · exact Or.inr List.mem_cons_self
      · exact Or.inl h
    · exact Or.inr (List.mem_cons_of_mem b h)

theorem mem_of_mem_lastBy {xs : List α} {a : α} (h : a ∈ lastBy key xs) : a ∈ xs :=
  (mem_foldl h).resolve_left (List.not_mem_nil)

private theorem foldl_of_nodup {xs kept : List α} (h : ((kept ++ xs).map key).Nodup) :
    xs.foldl (fun kept a => replaceBy key a kept) kept = kept ++ xs := by
  induction xs generalizing kept with
  | nil => simp
  | cons a rest ih =>
    have hnew : key a ∉ kept.map key := by
      rw [List.map_append, List.map_cons] at h
      exact fun hk => (List.nodup_append.mp h).2.2 _ hk _ List.mem_cons_self rfl
    rw [List.foldl_cons, replaceBy_of_notMem hnew, ih (by simpa using h)]
    simp

/-- Where no key comes twice, every element is the last of its key. -/
theorem lastBy_of_nodup {xs : List α} (h : (xs.map key).Nodup) : lastBy key xs = xs :=
  foldl_of_nodup (by simpa using h)

theorem lastBy_lastBy (xs : List α) : lastBy key (lastBy key xs) = lastBy key xs :=
  lastBy_of_nodup (nodup_lastBy xs)

private theorem foldl_append {front xs kept : List α}
    (h : ∀ a ∈ xs, key a ∉ front.map key) :
    xs.foldl (fun kept a => replaceBy key a kept) (front ++ kept) =
      front ++ xs.foldl (fun kept a => replaceBy key a kept) kept := by
  induction xs generalizing kept with
  | nil => rfl
  | cons a rest ih =>
    rw [List.foldl_cons, List.foldl_cons, replaceBy_append (h a List.mem_cons_self)]
    exact ih fun b hb => h b (List.mem_cons_of_mem a hb)

/-- Lists that share no key are treated one by one. -/
theorem lastBy_append {xs ys : List α} (h : ∀ y ∈ ys, ∀ x ∈ xs, key x ≠ key y) :
    lastBy key (xs ++ ys) = lastBy key xs ++ lastBy key ys := by
  have hfresh : ∀ y ∈ ys, key y ∉ (lastBy key xs).map key := by
    intro y hy hmem
    obtain ⟨x, hx, hxy⟩ := List.mem_map.mp hmem
    exact h y hy x (mem_of_mem_lastBy hx) hxy
  have hfold : ys.foldl (fun kept a => replaceBy key a kept) (lastBy key xs ++ []) =
      lastBy key xs ++ lastBy key ys := foldl_append hfresh
  rw [List.append_nil] at hfold
  rw [lastBy, List.foldl_append]
  exact hfold

theorem lastBy_map {key' : β → String} {f : α → β} (h : ∀ a, key' (f a) = key a) (xs : List α) :
    lastBy key' (xs.map f) = (lastBy key xs).map f := by
  have hstep : ∀ (kept : List α) (a : α),
      replaceBy key' (f a) (kept.map f) = (replaceBy key a kept).map f := by
    intro kept a
    induction kept with
    | nil => rfl
    | cons b rest ih =>
      simp only [replaceBy, List.map_cons, h, ih]
      split <;> rfl
  have hfold : ∀ (xs kept : List α),
      (xs.map f).foldl (fun kept a => replaceBy key' a kept) (kept.map f) =
        (xs.foldl (fun kept a => replaceBy key a kept) kept).map f := by
    intro xs
    induction xs with
    | nil => intro kept; rfl
    | cons a rest ih =>
      intro kept
      rw [List.map_cons, List.foldl_cons, List.foldl_cons, hstep, ih]
  exact hfold xs []

end LastBy

namespace Normal
open Yaml

/-- Whether a name is none of the keys of a map. -/
def Fresh (name : String) (entries : Tree.Entries) : Prop :=
  ∀ e ∈ entries, e.1.same (.text name) = false

@[simp] theorem fresh_nil (name : String) : Fresh name [] := by simp [Fresh]

@[simp] theorem fresh_cons {name other : String} {t : Tree} {rest : Tree.Entries} :
    Fresh name ((.text other, t) :: rest) ↔ other ≠ name ∧ Fresh name rest := by
  simp [Fresh, Tree.same]

@[simp] theorem fresh_append {name : String} {front rest : Tree.Entries} :
    Fresh name (front ++ rest) ↔ Fresh name front ∧ Fresh name rest :=
  List.forall_mem_append

private theorem insert_append {key value : Tree} {front rest : Tree.Entries}
    (h : ∀ e ∈ front, e.1.same key = false) :
    Tree.insert key value (front ++ rest) = front ++ Tree.insert key value rest := by
  induction front with
  | nil => rfl
  | cons e more ih =>
    rw [List.cons_append, Tree.insert, h e List.mem_cons_self,
      ih fun f hf => h f (List.mem_cons_of_mem e hf)]
    rfl

theorem insert_fresh {name : String} {value : Tree} {entries : Tree.Entries}
    (h : Fresh name entries) :
    Tree.insert (.text name) value entries = entries ++ [(Tree.text name, value)] := by
  have hinsert : Tree.insert (.text name) value (entries ++ []) =
      entries ++ Tree.insert (.text name) value [] := insert_append h
  simpa [Tree.insert] using hinsert

/-- One entry, or none if it would be empty. -/
def part (name : String) (value : Tree) (isEmpty : Bool) : Tree.Entries :=
  if isEmpty then [] else [(.text name, value)]

@[simp] theorem fresh_part {name other : String} {t : Tree} {isEmpty : Bool} (h : other ≠ name) :
    Fresh name (part other t isEmpty) := by
  cases isEmpty <;> simp [part, h]

theorem withItems_fresh {name : String} {entries : Tree.Entries} (items : List Tree)
    (h : Fresh name entries) :
    withItems name items entries = entries ++ part name (.list items) items.isEmpty := by
  cases items with
  | nil => simp [withItems, part]
  | cons t rest => simp [withItems, part, insert_fresh h]

/-- A list under a new key is put at the end, unless it is empty. -/
theorem withList_fresh {name : String} {entries : Tree.Entries} (items : List String)
    (h : Fresh name entries) :
    withList name items entries = entries ++ part name (stringList items) items.isEmpty := by
  cases items with
  | nil => simp [withList, part]
  | cons t rest => simp [withList, part, insert_fresh h]

theorem withMap_fresh {name : String} {entries : Tree.Entries} (inner : Tree.Entries)
    (h : Fresh name entries) :
    withMap name inner entries = entries ++ part name (.map inner) inner.isEmpty := by
  cases inner with
  | nil => simp [withMap, part]
  | cons t rest => simp [withMap, part, insert_fresh h]

section Keyed

variable {α : Type} (key : α → String) (value : α → Tree)

/-- The entries of some things under their keys. -/
def keyed (xs : List α) : Tree.Entries :=
  xs.map fun a => (.text (key a), value a)

private theorem insert_keyed (a : α) (xs : List α) :
    Tree.insert (.text (key a)) (value a) (keyed key value xs) =
      keyed key value (replaceBy key a xs) := by
  induction xs with
  | nil => rfl
  | cons b rest ih =>
    by_cases h : key b = key a
    · simp [keyed, Tree.insert, replaceBy, Tree.same, h]
    · simp only [keyed, List.map_cons, Tree.insert, replaceBy, Tree.same, h, if_false,
        beq_eq_false_iff_ne.mpr h] at ih ⊢
      rw [ih]
      rfl

/-- Things put under keys that the map did not have: the last one of each key counts. -/
theorem foldl_insert (xs : List α) {front : Tree.Entries} (h : ∀ a ∈ xs, Fresh (key a) front) :
    xs.foldl (fun entries a => Tree.insert (.text (key a)) (value a) entries) front =
      front ++ keyed key value (lastBy key xs) := by
  have hfold : ∀ (xs kept : List α), (∀ a ∈ xs, Fresh (key a) front) →
      xs.foldl (fun entries a => Tree.insert (.text (key a)) (value a) entries)
          (front ++ keyed key value kept) =
        front ++ keyed key value (xs.foldl (fun kept a => replaceBy key a kept) kept) := by
    intro xs
    induction xs with
    | nil => intro kept _; rfl
    | cons a rest ih =>
      intro kept h
      rw [List.foldl_cons, List.foldl_cons, insert_append (h a List.mem_cons_self), insert_keyed,
        ih _ fun b hb => h b (List.mem_cons_of_mem a hb)]
  have := hfold xs [] h
  simpa [keyed, lastBy] using this

end Keyed

end Normal

end PackageScript
